import FrameRpc.Reply.Subscription
import Mathlib.Data.List.Basic
import Mathlib.Data.List.Induction

/-!
# Predictions after a confirmation

A subscription holds one reply, and `Subscription.apply` looks at no other one. A prediction is
compared with a confirmation only while the confirmation is held: the first prediction dated after
it takes its place, and any prediction takes the place of that one, whatever its date
(`Subscription.stale_prediction_iff`). An undated confirmation stays until something else than a
prediction comes.
-/

namespace FrameRpc

variable {α ε : Type}

namespace Reply

/-- A success that is optimistic. -/
def isPrediction (r : Reply (Convergence α) ε) : Bool := r.value?.any Convergence.isOptimistic

/-- A success that is complete. -/
def isConfirmation (r : Reply (Convergence α) ε) : Bool := r.value?.any Convergence.isComplete

/-- Both are dated, and the reply is dated after the other one. -/
def isAfter (r c : Reply (Convergence α) ε) : Bool :=
  match c.timestamp?, r.timestamp? with
  | some t, some t' => t < t'
  | _, _ => false

theorem isConfirmation_of_isPrediction {r : Reply (Convergence α) ε} (h : r.isPrediction) :
    r.isConfirmation = false := by
  rw [isPrediction] at h
  rw [isConfirmation]
  rcases hv : r.value? with _ | c
  · rfl
  · rw [hv] at h
    cases c with
    | optimistic => rfl
    | complete => nomatch h

theorem isPrediction_of_isConfirmation {r : Reply (Convergence α) ε} (h : r.isConfirmation) :
    r.isPrediction = false :=
  Bool.eq_false_iff.2 fun hp => by
    rw [isConfirmation_of_isPrediction hp] at h
    nomatch h

theorem isAfter_of_undated {r c : Reply (Convergence α) ε} (h : c.timestamp? = none) :
    r.isAfter c = false := by
  rw [isAfter, h]

end Reply

namespace Subscription

variable {c : Reply (Convergence α) ε} {since : List (Reply (Convergence α) ε)}

/-! ## One update -/

theorem regresses_eq (s : Subscription α ε) (u : Reply (Convergence α) ε) :
    s.regresses u = (s.current.isConfirmation && u.isPrediction && !u.isAfter s.current) := by
  rw [regresses, Reply.isConfirmation, Reply.isPrediction, Reply.isAfter]
  split
  · rename_i h
    rw [h, Bool.true_and]
    rcases s.current.timestamp? with _ | t <;> rcases u.timestamp? with _ | t'
    iterate 3 rfl
    exact (decide_eq_decide.2 Nat.not_lt.symm).trans decide_not
  · rename_i h
    rw [Bool.eq_false_iff.2 h, Bool.false_and]

/-- An update that is no prediction is always taken. -/
theorem regresses_of_not_prediction (s : Subscription α ε) {u : Reply (Convergence α) ε}
    (h : u.isPrediction = false) : s.regresses u = false := by
  rw [regresses_eq, h, Bool.and_false, Bool.false_and]

theorem apply_fst (s : Subscription α ε) (u : Reply (Convergence α) ε) :
    (s.apply u).1 = !s.regresses u := by
  rw [apply]
  cases s.regresses u <;> rfl

theorem apply_taken {s : Subscription α ε} {u : Reply (Convergence α) ε}
    (h : s.regresses u = false) : s.apply u = (true, ⟨u⟩) := by
  rw [apply, h]
  rfl

theorem apply_ignored {s : Subscription α ε} {u : Reply (Convergence α) ε}
    (h : s.regresses u = true) : s.apply u = (false, s) := by
  rw [apply, h]
  rfl

/-! ## Runs -/

/-- The subscription after a list of updates. -/
def afterAll (s : Subscription α ε) (updates : List (Reply (Convergence α) ε)) :
    Subscription α ε :=
  updates.foldl (fun s u => (s.apply u).2) s

theorem afterAll_concat (s : Subscription α ε) (us : List (Reply (Convergence α) ε))
    (u : Reply (Convergence α) ε) : s.afterAll (us ++ [u]) = ((s.afterAll us).apply u).2 :=
  List.foldl_append

/-- What is left of a confirmation after these predictions. -/
def standing (c : Reply (Convergence α) ε) (since : List (Reply (Convergence α) ε)) :
    Reply (Convergence α) ε :=
  if since.any (·.isAfter c) then since.getLastD c else c

/-- The next prediction is compared with the confirmation, unless there was one dated after it. -/
theorem regresses_standing (hc : c.isConfirmation) (hsince : ∀ p ∈ since, p.isPrediction)
    (u : Reply (Convergence α) ε) :
    (Subscription.mk (standing c since)).regresses u
      = (u.isPrediction && !(since ++ [u]).any (·.isAfter c)) := by
  rw [regresses_eq, standing, List.any_append, List.any_cons, List.any_nil, Bool.or_false]
  cases hany : since.any (·.isAfter c) with
  | false =>
    rw [if_neg Bool.false_ne_true, hc, Bool.true_and, Bool.false_or]
  | true =>
    -- A prediction stands, and no update is compared with a prediction.
    rcases since.eq_nil_or_concat' with rfl | ⟨front, last, rfl⟩
    · nomatch hany
    · have hlast : last.isPrediction := hsince last (List.mem_append_right _ List.mem_cons_self)
      rw [if_pos rfl, List.getLastD_concat, Reply.isConfirmation_of_isPrediction hlast,
        Bool.true_or, Bool.not_true, Bool.and_false, Bool.false_and, Bool.false_and]

theorem standing_concat (c u : Reply (Convergence α) ε) (since : List (Reply (Convergence α) ε)) :
    standing c (since ++ [u]) = if (since ++ [u]).any (·.isAfter c) then u else c := by
  rw [standing, List.getLastD_concat]

/-- By induction on the predictions, from the last one. -/
theorem afterAll_confirmation (hc : c.isConfirmation) (hsince : ∀ p ∈ since, p.isPrediction)
    (s : Subscription α ε) (before : List (Reply (Convergence α) ε)) :
    s.afterAll (before ++ c :: since) = ⟨standing c since⟩ := by
  induction since using List.reverseRecOn with
  | nil =>
    have hplain := regresses_of_not_prediction (s.afterAll before)
      (Reply.isPrediction_of_isConfirmation hc)
    rw [afterAll_concat, apply_taken hplain]
    rfl
  | append_singleton since p ih =>
    obtain ⟨hsince, hp⟩ := List.forall_mem_append.1 hsince
    have hp : p.isPrediction := hp p List.mem_cons_self
    have hregresses := regresses_standing hc hsince p
    rw [hp, Bool.true_and] at hregresses
    rw [← List.cons_append, ← List.append_assoc, afterAll_concat, ih hsince, standing_concat]
    cases hany : (since ++ [p]).any (·.isAfter c) with
    | true =>
      rw [hany] at hregresses
      rw [apply_taken hregresses]
      rfl
    | false =>
      rw [hany] at hregresses
      rw [apply_ignored hregresses, standing, if_neg, if_neg Bool.false_ne_true]
      rw [List.any_append, Bool.or_eq_false_iff] at hany
      rw [hany.1]
      exact Bool.false_ne_true

/-- A prediction that is not dated after the confirmation stands, just when it comes last, and one
    that is has come before it. -/
theorem stale_standing_iff (hc : c.isConfirmation) (hsince : ∀ p ∈ since, p.isPrediction) :
    ((standing c since).isPrediction ∧ (standing c since).isAfter c = false) ↔
      (∃ p ∈ since, p.isAfter c) ∧ ∃ p ∈ since.getLast?, p.isAfter c = false := by
  rw [standing, ← List.any_eq_true]
  cases hany : since.any (·.isAfter c) with
  | false =>
    rw [if_neg Bool.false_ne_true, Reply.isPrediction_of_isConfirmation hc]
    exact ⟨fun ⟨h, _⟩ => (nomatch h), fun ⟨h, _⟩ => nomatch h⟩
  | true =>
    rcases since.eq_nil_or_concat' with rfl | ⟨front, last, rfl⟩
    · nomatch hany
    · have hlast : last.isPrediction := hsince last (List.mem_append_right _ List.mem_cons_self)
      rw [if_pos rfl, List.getLastD_concat, List.getLast?_concat]
      refine ⟨fun h => ⟨rfl, last, rfl, h.2⟩, ?_⟩
      rintro ⟨-, p, ⟨⟩, h⟩
      exact ⟨hlast, h⟩

/-- **How far a confirmation holds.** Of the predictions that come after it, those up to the first
    one that is dated after it are ignored, and all the others are taken, whatever their dates. So a
    prediction that is not dated after it is shown just when it is the last one to have come and one
    that is has come before it. An undated confirmation holds against all predictions. -/
theorem stale_prediction_iff (hc : c.isConfirmation) (hsince : ∀ p ∈ since, p.isPrediction)
    (before : List (Reply (Convergence α) ε)) :
    let s := new.afterAll (before ++ c :: since)
    (∀ u, (s.apply u).1 = (!u.isPrediction || (since ++ [u]).any (·.isAfter c))) ∧
      s.current = (if since.any (·.isAfter c) then since.getLastD c else c) ∧
      ((s.current.isPrediction ∧ s.current.isAfter c = false) ↔
        (∃ p ∈ since, p.isAfter c) ∧ ∃ p ∈ since.getLast?, p.isAfter c = false) ∧
      (c.timestamp? = none → s.current = c) := by
  rw [afterAll_confirmation hc hsince]
  refine ⟨fun u => ?_, rfl, stale_standing_iff hc hsince, fun hdate => ?_⟩
  · rw [apply_fst, regresses_standing hc hsince, Bool.not_and, Bool.not_not]
  · have hnone : since.any (·.isAfter c) = false :=
      List.any_eq_false.2 fun p _ => by
        rw [Reply.isAfter_of_undated hdate]
        exact Bool.false_ne_true
    rw [standing, hnone, if_neg Bool.false_ne_true]

/-- A success with this value, dated. -/
def dated (v : Convergence String) (t : Nat) : Reply (Convergence String) String :=
  (Reply.ok v).withTimestamp t

theorem stale_prediction_iff_late :
    (dated (.complete "real") 10).isConfirmation ∧
      (∀ p ∈ [dated (.optimistic "newer") 11, dated (.optimistic "older") 5], p.isPrediction) ∧
      (new.afterAll [Reply.error "lost", dated (.complete "real") 10,
        dated (.optimistic "newer") 11, dated (.optimistic "older") 5]).current
          = dated (.optimistic "older") 5 := by
  have hsince : ∀ p ∈ [dated (.optimistic "newer") 11, dated (.optimistic "older") 5],
      p.isPrediction := by decide
  exact ⟨rfl, hsince, (stale_prediction_iff (c := dated (.complete "real") 10) rfl hsince
    [Reply.error "lost"]).2.1⟩

/-- All three updates are taken, and the confirmation, dated 10, ends up behind the prediction dated
    5: the one between them, dated 11, has taken its place. -/
theorem confirmation_forgotten :
    let real := dated (.complete "real") 10
    let newer := dated (.optimistic "newer") 11
    let older := dated (.optimistic "older") 5
    (new.apply real).1 ∧ ((new.afterAll [real]).apply newer).1 ∧
      ((new.afterAll [real, newer]).apply older).1 ∧
      (new.afterAll [real, newer, older]).current = older ∧
      real.isConfirmation ∧ real.timestamp? = some 10 ∧ newer.isPrediction ∧
      older.isPrediction ∧ older.timestamp? = some 5 := by
  exact ⟨rfl, rfl, rfl, rfl, rfl, rfl, rfl, rfl, rfl⟩

end Subscription

end FrameRpc
