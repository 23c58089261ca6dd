import FrameRpc.Proofs.Confirmation

/-!
# Updates that overtake each other

The predictions and the confirmations of one value may arrive in any order. As long as no prediction
is dated after a confirmation, the order does not matter: the first confirmation takes the place of
whatever the subscription holds, and from then on it holds the confirmation that has come last
(`Subscription.current_of_latest`), as that one is compared with every prediction to come. So what
is left in the end is the last confirmation (`Subscription.settles_in_any_order`), and if there is
only one, it is left whatever the order and whatever there was before.
-/

namespace FrameRpc

variable {α ε : Type}

namespace Reply

/-- The confirmation that comes last. -/
def latest (us : List (Reply (Convergence α) ε)) : Option (Reply (Convergence α) ε) :=
  (us.filter isConfirmation).getLast?

variable {us : List (Reply (Convergence α) ε)} {c p : Reply (Convergence α) ε}

theorem latest_concat_confirmation (us : List (Reply (Convergence α) ε)) (h : c.isConfirmation) :
    latest (us ++ [c]) = some c := by
  rw [latest, List.filter_append, List.filter_singleton, h]
  exact List.getLast?_concat

theorem latest_concat_prediction (us : List (Reply (Convergence α) ε)) (h : p.isPrediction) :
    latest (us ++ [p]) = latest us := by
  rw [latest, List.filter_append, List.filter_singleton, isConfirmation_of_isPrediction h, latest]
  exact congrArg List.getLast? (List.append_nil _)

theorem mem_of_latest (h : latest us = some c) : c ∈ us ∧ c.isConfirmation :=
  List.mem_filter.1 (List.mem_of_getLast? h)

theorem exists_latest (hc : c ∈ us) (h : c.isConfirmation) : ∃ c', latest us = some c' := by
  have hne : us.filter isConfirmation ≠ [] := List.ne_nil_of_mem (List.mem_filter.2 ⟨hc, h⟩)
  exact ⟨_, List.getLast?_eq_some_getLast hne⟩

/-- Undated, or dated no later than the other one if that is dated as well. -/
theorem isAfter_eq_false_iff :
    p.isAfter c = false ↔ ∀ t ∈ p.timestamp?, ∀ t' ∈ c.timestamp?, t ≤ t' := by
  rw [isAfter]
  cases c.timestamp? <;> cases p.timestamp? <;> simp

end Reply

namespace Subscription

variable {s : Subscription α ε} {c p : Reply (Convergence α) ε}
  {us cs ps : List (Reply (Convergence α) ε)}

/-! ## One update -/

/-- A confirmation is always taken. -/
theorem apply_confirmation (s : Subscription α ε) (h : c.isConfirmation) :
    s.apply c = (true, ⟨c⟩) :=
  apply_taken (regresses_of_not_prediction s (Reply.isPrediction_of_isConfirmation h))

/-- A prediction is ignored while a confirmation is held that it is not dated after. -/
theorem apply_prediction (hs : s.current.isConfirmation) (hp : p.isPrediction)
    (hdate : p.isAfter s.current = false) : s.apply p = (false, s) := by
  refine apply_ignored ?_
  rw [regresses_eq, hs, hp, hdate]
  rfl

/-! ## Runs -/

/-- Predictions and confirmations only, and no prediction that is dated after a confirmation. -/
structure Concerted (us : List (Reply (Convergence α) ε)) : Prop where
  kinds : ∀ u ∈ us, u.isConfirmation ∨ u.isPrediction
  dates : ∀ p ∈ us, p.isPrediction → ∀ c ∈ us, c.isConfirmation → p.isAfter c = false

theorem Concerted.of_subset {vs : List (Reply (Convergence α) ε)} (h : Concerted us)
    (hvs : vs ⊆ us) : Concerted vs :=
  ⟨fun u hu => h.kinds u (hvs hu),
    fun p hp hprediction c hc => h.dates p (hvs hp) hprediction c (hvs hc)⟩

/-- Once there is a confirmation, the one that has come last is held. -/
theorem current_of_latest (h : Concerted us) (s : Subscription α ε)
    (hc : Reply.latest us = some c) : (s.afterAll us).current = c := by
  -- From the last update: a confirmation is taken, and a prediction is ignored, as the
  -- confirmation that is held is among the updates that it is not dated after.
  induction us using List.reverseRecOn with
  | nil => nomatch hc
  | append_singleton us u ih =>
    rw [afterAll_concat]
    rcases h.kinds u (List.mem_append_right _ List.mem_cons_self) with hu | hu
    · rw [Reply.latest_concat_confirmation us hu] at hc
      rw [apply_confirmation _ hu]
      exact Option.some.inj hc
    · rw [Reply.latest_concat_prediction us hu] at hc
      obtain ⟨hmem, hconfirmation⟩ := Reply.mem_of_latest hc
      have hheld := ih (h.of_subset (List.subset_append_left us [u])) hc
      have hdate := h.dates u (List.mem_append_right _ List.mem_cons_self) hu c
        (List.mem_append_left _ hmem) hconfirmation
      rw [apply_prediction (by rwa [hheld]) hu (by rwa [hheld])]
      exact hheld

/-- Behind a confirmation, every prediction is ignored. -/
theorem apply_behind_confirmation {before after : List (Reply (Convergence α) ε)}
    (h : Concerted (before ++ p :: after)) (s : Subscription α ε) (hp : p.isPrediction)
    (hbefore : ∃ c ∈ before, c.isConfirmation) :
    (s.afterAll before).apply p = (false, s.afterAll before) := by
  obtain ⟨c', hc', hconfirmation'⟩ := hbefore
  obtain ⟨c, hc⟩ := Reply.exists_latest hc' hconfirmation'
  obtain ⟨hmem, hconfirmation⟩ := Reply.mem_of_latest hc
  have hheld := current_of_latest (h.of_subset (List.subset_append_left before _)) s hc
  have hdate := h.dates p (List.mem_append_right _ List.mem_cons_self) hp c
    (List.mem_append_left _ hmem) hconfirmation
  exact apply_prediction (by rwa [hheld]) hp (by rwa [hheld])

theorem concerted_of_perm (hcs : ∀ c ∈ cs, c.isConfirmation) (hps : ∀ p ∈ ps, p.isPrediction)
    (hdates : ∀ p ∈ ps, ∀ t ∈ p.timestamp?, ∀ c ∈ cs, ∀ t' ∈ c.timestamp?, t ≤ t')
    (horder : us.Perm (cs ++ ps)) : Concerted us where
  kinds u hu := (List.mem_append.1 (horder.subset hu)).imp (hcs u) (hps u)
  dates p hp hprediction c hc hconfirmation := by
    have hp : p ∈ ps := (List.mem_append.1 (horder.subset hp)).resolve_left fun hp => by
      rw [Reply.isPrediction_of_isConfirmation (hcs p hp)] at hprediction
      nomatch hprediction
    have hc : c ∈ cs := (List.mem_append.1 (horder.subset hc)).resolve_right fun hc => by
      rw [Reply.isConfirmation_of_isPrediction (hps c hc)] at hconfirmation
      nomatch hconfirmation
    exact Reply.isAfter_eq_false_iff.2 fun t ht t' ht' => hdates p hp t ht c hc t' ht'

/-- A single confirmation is left, whatever the order. -/
theorem afterAll_of_perm_singleton (h : Concerted us) (hc : c.isConfirmation)
    (hps : ∀ p ∈ ps, p.isPrediction) (horder : us.Perm (c :: ps)) (s : Subscription α ε) :
    s.afterAll us = ⟨c⟩ := by
  obtain ⟨c', hc'⟩ := Reply.exists_latest (horder.mem_iff.2 List.mem_cons_self) hc
  obtain ⟨hmem, hconfirmation⟩ := Reply.mem_of_latest hc'
  rcases List.mem_cons.1 (horder.subset hmem) with rfl | hmem
  · exact congrArg Subscription.mk (current_of_latest h s hc')
  · have hplain := Reply.isConfirmation_of_isPrediction (hps c' hmem)
    exact absurd hconfirmation (by rw [hplain]; exact Bool.false_ne_true)

/-- **Any order.** Let there be confirmations, and predictions each of which is undated or dated no
    later than every dated confirmation. In whatever order all of them are applied, to whatever
    subscription: what is left is the confirmation that was applied last; every prediction behind
    the first confirmation is ignored and changes nothing; and every confirmation is taken. With a
    single confirmation the result is the same for every order. -/
theorem settles_in_any_order (hcs : ∀ c ∈ cs, c.isConfirmation) (hps : ∀ p ∈ ps, p.isPrediction)
    (hne : cs ≠ [])
    (hdates : ∀ p ∈ ps, ∀ t ∈ p.timestamp?, ∀ c ∈ cs, ∀ t' ∈ c.timestamp?, t ≤ t')
    (horder : us.Perm (cs ++ ps)) (s : Subscription α ε) :
    Reply.latest us = some (s.afterAll us).current ∧
      (∀ before p after, us = before ++ p :: after → p.isPrediction →
        (∃ c ∈ before, c.isConfirmation) →
          (s.afterAll before).apply p = (false, s.afterAll before)) ∧
      (∀ before c after, us = before ++ c :: after → c.isConfirmation →
        (s.afterAll before).apply c = (true, ⟨c⟩)) ∧
      (∀ c, cs = [c] → s.afterAll us = ⟨c⟩ ∧
        ∀ vs : List (Reply (Convergence α) ε), vs.Perm us → s.afterAll vs = s.afterAll us) := by
  have h := concerted_of_perm hcs hps hdates horder
  refine ⟨?_, ?_, fun before c after _ hc => apply_confirmation _ hc, ?_⟩
  · obtain ⟨c₀, hc₀⟩ := List.exists_mem_of_ne_nil cs hne
    obtain ⟨c, hc⟩ := Reply.exists_latest (horder.mem_iff.2 (List.mem_append_left ps hc₀))
      (hcs c₀ hc₀)
    rw [hc, current_of_latest h s hc]
  · rintro before p after rfl hp hbefore
    exact apply_behind_confirmation h s hp hbefore
  · rintro c rfl
    have hc := hcs c List.mem_cons_self
    have hus := afterAll_of_perm_singleton h hc hps horder s
    refine ⟨hus, fun vs hvs => ?_⟩
    rw [hus]
    exact afterAll_of_perm_singleton (h.of_subset hvs.subset) hc hps (hvs.trans horder) s

/-- An undated confirmation behind a dated one, and predictions before, between and behind them. -/
theorem settles_in_any_order_mixed :
    let cs := [dated (.complete "real") 10, Reply.ok (.complete "final")]
    let ps := [dated (.optimistic "guess") 10, Reply.ok (.optimistic "hunch"),
      dated (.optimistic "early") 3]
    let us := [dated (.optimistic "early") 3, dated (.complete "real") 10,
      Reply.ok (.optimistic "hunch"), Reply.ok (.complete "final"),
      dated (.optimistic "guess") 10]
    (∀ c ∈ cs, c.isConfirmation) ∧ (∀ p ∈ ps, p.isPrediction) ∧
      (∀ p ∈ ps, ∀ t ∈ p.timestamp?, ∀ c ∈ cs, ∀ t' ∈ c.timestamp?, t ≤ t') ∧
      us.Perm (cs ++ ps) ∧
      ((new : Subscription String String).afterAll us).current = .ok (.complete "final") := by
  intro cs ps us
  have hcs : ∀ c ∈ cs, c.isConfirmation := by decide
  have hps : ∀ p ∈ ps, p.isPrediction := by decide
  have hdates : ∀ p ∈ ps, ∀ t ∈ p.timestamp?, ∀ c ∈ cs, ∀ t' ∈ c.timestamp?, t ≤ t' := by
    decide
  have horder : us.Perm (cs ++ ps) :=
    (show [4, 0, 3, 1, 2].Perm [0, 1, 2, 3, 4] by decide).map fun i => (cs ++ ps).getD i .loading
  have hlatest : Reply.latest us = some (.ok (.complete "final")) := rfl
  have hcurrent := (settles_in_any_order hcs hps (List.cons_ne_nil _ _) hdates horder new).1
  exact ⟨hcs, hps, hdates, horder, Option.some.inj (hcurrent.symm.trans hlatest)⟩

end Subscription

end FrameRpc
