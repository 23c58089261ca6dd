import FrameRpc.Proofs.SharedOutcome

/-!
# Settled lookups

A key is settled when nobody who asks for it has a step to take (`SettledAt`): its callers run
lookups, wait for lookups that go on, hold values or have ended (`Phase.Rests`). Then a lookup of
the key runs, or its outcome is published, or its channel is closed, and nothing is in between
(`Recorded.stage_of_settled`).

So nobody waits in vain: who waits is an owner of the entry of its key, and the lookup of this entry
runs (`exists_runner_of_waiting`); a pending entry counts the caller that runs the lookup and those
that wait for it (`owners_of_pending`); and a failure is in no entry (`outcome_ne_error`).
-/

namespace FrameRpc

namespace Table

variable {κ α : Type} [DecidableEq κ] {P Q : κ → α → Bool} {t : Table κ α} {key : κ} {a : α}

/-- A condition that holds of one more key. -/
theorem count_eq_add_one (hkey : t.get? key = some a) (hP : P key a = true)
    (hQ : Q key a = false)
    (hothers : ∀ k b, k ≠ key → t.get? k = some b → P k b = Q k b) :
    t.count P = t.count Q + 1 := by
  have hmem : ∀ k b, (k, b) ∈ t.entries → (k = key ∧ b = a) ∨ (k ≠ key ∧ P k b = Q k b) := by
    intro k b hkb
    have hget := mem_entries_iff.1 hkb
    by_cases hk : k = key
    · subst hk
      exact .inl ⟨rfl, Option.some.inj (hget.symm.trans hkey)⟩
    · exact .inr ⟨hk, hothers k b hk hget⟩
  have hin := mem_entries_iff.2 hkey
  have hdistinct := t.distinct
  rw [count, count]
  generalize t.entries = es at hmem hin hdistinct
  induction es with
  | nil => cases hin
  | cons e rest ih =>
    obtain ⟨k, b⟩ := e
    obtain ⟨hfirst, hrest⟩ := List.nodup_cons.1 hdistinct
    rw [List.countP_cons, List.countP_cons]
    rcases hmem k b List.mem_cons_self with ⟨rfl, rfl⟩ | ⟨hne, heq⟩
    · -- The keys of the rest are others.
      have hcongr : rest.countP (fun e => P e.1 e.2) = rest.countP fun e => Q e.1 e.2 := by
        refine List.countP_congr fun e he => ?_
        rcases hmem e.1 e.2 (List.mem_cons_of_mem _ he) with ⟨hk, -⟩ | ⟨-, heq⟩
        · exact absurd (List.mem_map.2 ⟨e, he, hk⟩) hfirst
        · rw [heq]
      dsimp only
      rw [hP, hQ, hcongr]
      rfl
    · have hin' : (key, a) ∈ rest := by
        rcases List.mem_cons.1 hin with heq' | hin'
        · exact absurd (congrArg Prod.fst heq').symm hne
        · exact hin'
      have hcount := ih (fun k b hkb => hmem k b (List.mem_cons_of_mem _ hkb)) hin' hrest
      dsimp only
      rw [heq, hcount]
      omega

/-- As many keys of one table satisfy a condition as keys of another one satisfy another, if they
    are the same. -/
theorem count_eq_of_iff {β : Type} {Q : κ → β → Bool} {u : Table κ β}
    (h : ∀ k, (∃ a, t.get? k = some a ∧ P k a = true) ↔ ∃ b, u.get? k = some b ∧ Q k b = true) :
    t.count P = u.count Q := by
  have hkeys {γ : Type} (t : Table κ γ) (P : κ → γ → Bool) : t.count P =
      ((t.entries.filter fun e => P e.1 e.2).map Prod.fst).length := by
    rw [count, List.length_map, List.countP_eq_length_filter]
  have hmem {γ : Type} (t : Table κ γ) (P : κ → γ → Bool) (k : κ) :
      k ∈ (t.entries.filter fun e => P e.1 e.2).map Prod.fst ↔
        ∃ a, t.get? k = some a ∧ P k a = true := by
    constructor
    · intro hk
      obtain ⟨⟨_, a⟩, he, rfl⟩ := List.mem_map.1 hk
      obtain ⟨hin, hP⟩ := List.mem_filter.1 he
      exact ⟨a, mem_entries_iff.1 hin, hP⟩
    · rintro ⟨a, ha, hP⟩
      exact List.mem_map.2 ⟨(k, a), List.mem_filter.2 ⟨mem_entries_iff.2 ha, hP⟩, rfl⟩
  have hnodup {γ : Type} (t : Table κ γ) (P : κ → γ → Bool) :
      ((t.entries.filter fun e => P e.1 e.2).map Prod.fst).Nodup :=
    t.distinct.sublist (List.filter_sublist.map Prod.fst)
  rw [hkeys, hkeys]
  refine ((List.perm_ext_iff_of_nodup (hnodup t P) (hnodup u Q)).2 fun k => ?_).length_eq
  rw [hmem, hmem, h k]

end Table

namespace SingleFlight

variable {K V E : Type} [DecidableEq K] {s t : SingleFlight K V E}

/-- Nobody who asks for the key has a step to take. -/
def SettledAt (s : SingleFlight K V E) (key : K) : Prop :=
  ∀ c : Caller K, c.key = key → s.perform? (.step c) = none

/-- A caller at the phase has no step to take. -/
def Phase.Rests (s : SingleFlight K V E) : Phase V E → Prop
  | .looking _ | .holding _ _ | .ended _ => True
  | .waiting n => s.channel n = .silent
  | _ => False

/-- A caller at the phase waits for the lookup. -/
def Phase.waits (n : Nat) : Phase V E → Bool
  | .waiting m => m == n
  | _ => false

/-- The number of callers of the key that wait for the lookup. -/
def waiters (s : SingleFlight K V E) (key : K) (n : Nat) : Nat :=
  s.callers.count fun c p => c.key = key ∧ p.waits n

theorem step?_eq_none_iff {c : Caller K} {p : Phase V E} : s.step? c p = none ↔ p.Rests s := by
  cases p with
  | waiting n =>
    rw [step?, Phase.Rests]
    cases s.channel n <;> simp
  | resolving n o => cases o <;> simp [step?, Phase.Rests]
  | _ => simp [step?, Phase.Rests]

theorem SettledAt.rests {key : K} (h : s.SettledAt key) {c : Caller K} {p : Phase V E}
    (hkey : c.key = key) (hc : s.callers.get? c = some p) : p.Rests s := by
  have hstep := h c hkey
  rw [perform?, hc, Option.bind_some] at hstep
  exact step?_eq_none_iff.1 hstep

theorem exists_of_leases_pos {key : K} {n : Nat} (h : 0 < s.leases key n) :
    ∃ c p, s.callers.get? c = some p ∧ c.key = key ∧ p.lease? = some n := by
  obtain ⟨e, he, hlease⟩ := List.countP_pos_iff.1 h
  rw [decide_eq_true_eq] at hlease
  exact ⟨e.1, e.2, Table.mem_entries_iff.1 he, hlease⟩

section

variable {book : List (Record K V E)} {key : K} {n : Nat}

/-- When the key is settled, each of its lookups runs, or all about it has been told. -/
theorem Recorded.stage_of_settled (h : s.Recorded book) (hsettled : s.SettledAt key)
    {st : Stage K V E} (hrec : book[n]? = some ⟨key, st⟩) :
    (∃ r, st = .flying r ∧ r.key = key ∧ s.callers.get? r = some (.looking n)) ∨
      (∃ o, st = .published o) ∨ st = .closed := by
  cases hrunner : st.runner? with
  | none =>
    cases st with
    | published o => exact .inr (.inl ⟨o, rfl⟩)
    | closed => exact .inr (.inr rfl)
    | _ => cases hrunner
  | some r =>
    obtain ⟨p, hp, hlease, hrunning, hkey, hfits⟩ := h.exists_runner hrec hrunner
    have hrests := hsettled.rests hkey.symm hp
    cases p with
    | looking m =>
      obtain rfl := Option.some.inj hlease
      exact .inl ⟨r, hfits, hkey.symm, hp⟩
    | storing | publishing | abandoning | closing => exact hrests.elim
    | _ => cases hrunning

/-- A lookup that runs is in flight. -/
theorem Recorded.inFlight_of_flying (h : s.Recorded book) {r : Caller K}
    (hrec : book[n]? = some ⟨key, .flying r⟩) : s.InFlight key n := by
  refine ⟨(h.log _ rfl).2 ⟨_, hrec⟩, fun o ho => ?_, fun hgivenUp => ?_⟩
  · cases ((tells_finished_iff hrec).1 ((h.log _ rfl).1 ho)).2
  · cases ((tells_abandoned_iff hrec).1 ((h.log _ rfl).1 hgivenUp)).2

/-- A lookup that is done and that somebody has a lease on is live. -/
theorem Recorded.live_of_outcome (h : s.Recorded book) {st : Stage K V E} {o : Except E V}
    {c : Caller K} {p : Phase V E} (hrec : book[n]? = some ⟨c.key, st⟩)
    (ho : st.outcome? = some o) (hc : s.callers.get? c = some p) (hlease : p.lease? = some n) :
    s.Live c.key n :=
  .inr ⟨⟨o, (h.log _ rfl).2 ((tells_finished_iff hrec).2 ⟨rfl, ho⟩)⟩, leases_pos hc hlease⟩

/-- A caller that runs a lookup is the one in the book. -/
theorem Recorded.flying_of_looking (h : s.Recorded book) {r : Caller K}
    (hr : s.callers.get? r = some (.looking n)) : book[n]? = some ⟨r.key, .flying r⟩ := by
  obtain ⟨_, hrec, rfl⟩ := h.callers r _ n hr rfl
  exact hrec

/-- The entry of a lookup that runs is under its key, and pending. -/
theorem exists_entry_of_looking (reached : s.Reachable) {r : Caller K}
    (hr : s.callers.get? r = some (.looking n)) :
    ∃ e, s.entries.get? r.key = some e ∧ e.lookup = n ∧ e.outcome = none := by
  obtain ⟨book, h⟩ := reached.recorded
  have hrec := h.flying_of_looking hr
  have hlive : s.Live r.key n := .inl (h.inFlight_of_flying hrec)
  obtain ⟨e, he⟩ := Option.ne_none_iff_exists'.1 (hlive.entryOf?_ne_none h reached.kept)
  obtain ⟨hkey, rfl⟩ := entryOf?_eq_some_iff.1 he
  exact ⟨e, hkey, rfl, (Option.some.inj (h.entry_eq hrec hkey).2).symm⟩

/-- Two callers of one key do not run lookups at the same time. -/
theorem looking_unique (reached : s.Reachable) {r r' : Caller K} {n' : Nat}
    (hkey : r.key = r'.key) (hr : s.callers.get? r = some (.looking n))
    (hr' : s.callers.get? r' = some (.looking n')) : r = r' ∧ n = n' := by
  obtain ⟨book, h⟩ := reached.recorded
  have hrec := h.flying_of_looking hr
  have hlive : s.Live r.key n := .inl (h.inFlight_of_flying hrec)
  have hlive' : s.Live r.key n' := .inl (hkey ▸ h.inFlight_of_flying (h.flying_of_looking hr'))
  obtain rfl := eq_of_live reached hlive hlive'
  exact ⟨Stage.flying.inj (h.fits hrec hr' rfl).2, rfl⟩

variable (reached : s.Reachable) (hsettled : s.SettledAt key)
include reached hsettled

/-- Who waits, waits for a lookup that runs. -/
theorem exists_runner_of_waiting {c : Caller K} (hkey : c.key = key)
    (hc : s.callers.get? c = some (.waiting n)) :
    ∃ r, r.key = key ∧ s.callers.get? r = some (.looking n) := by
  obtain ⟨book, h⟩ := reached.recorded
  obtain ⟨st, hrec, -⟩ := h.callers c _ n hc rfl
  have hsilent : s.channel n = .silent := hsettled.rests hkey hc
  rw [h.channel_eq hrec] at hsilent
  rw [hkey] at hrec
  obtain ⟨r, -, hr⟩ | ⟨o, rfl⟩ | rfl := h.stage_of_settled hsettled hrec
  · exact ⟨r, hr⟩
  · cases hsilent
  · cases hsilent

/-- The lookup of a pending entry runs. -/
theorem exists_runner_of_pending {e : Entry V E} (he : s.entries.get? key = some e)
    (hpending : e.outcome = none) :
    ∃ r, r.key = key ∧ s.callers.get? r = some (.looking e.lookup) := by
  obtain ⟨book, h⟩ := reached.recorded
  obtain ⟨st, hrec, hheld⟩ := h.entries key e he
  rw [hpending] at hheld
  obtain ⟨r, -, hr⟩ | ⟨o, rfl⟩ | rfl := h.stage_of_settled hsettled hrec
  · exact ⟨r, hr⟩
  · cases hheld
  · cases hheld

/-- A pending entry counts who runs its lookup and those who wait for it. -/
theorem owners_of_pending {e : Entry V E} (he : s.entries.get? key = some e)
    (hpending : e.outcome = none) : e.owners = s.waiters key e.lookup + 1 := by
  obtain ⟨book, h⟩ := reached.recorded
  obtain ⟨r, hkey, hr⟩ := exists_runner_of_pending reached hsettled he hpending
  have hrec := h.flying_of_looking hr
  rw [reached.counted.owners_eq key e he]
  refine Table.count_eq_add_one hr (by simp [hkey, Phase.lease?]) (by simp [Phase.waits])
    fun c p hne hc => ?_
  by_cases hck : c.key = key
  · -- Another caller of the key that rests and has a lease on the lookup waits for it.
    have hrests := hsettled.rests hck hc
    have hfits (hlease : p.lease? = some e.lookup) := (h.fits hrec hc hlease).2
    cases p with
    | waiting m => simp [hck, Phase.lease?, Phase.waits]
    | looking m =>
      have hm : m ≠ e.lookup := fun hm =>
        hne (Stage.flying.inj (hfits (congrArg some hm))).symm
      simp [Phase.lease?, Phase.waits, hm]
    | holding m v =>
      have hm : m ≠ e.lookup := by
        intro hm
        cases hfits (congrArg some hm)
      simp [Phase.lease?, Phase.waits, hm]
    | ended => simp [Phase.lease?, Phase.waits]
    | _ => exact hrests.elim
  · simp [hck]

/-- No entry holds a failure: whoever got it has given up its lease. -/
theorem outcome_ne_error {e : Entry V E} (he : s.entries.get? key = some e) (x : E) :
    e.outcome ≠ some (.error x) := by
  intro hfailed
  obtain ⟨book, h⟩ := reached.recorded
  obtain ⟨st, hrec, hheld⟩ := h.entries key e he
  rw [hfailed] at hheld
  have houtcome := Stage.outcome?_of_held? hheld
  have hpos : 0 < s.leases key e.lookup := by
    rw [← reached.counted.owners_eq key e he]
    exact reached.counted.owners_pos key e he
  obtain ⟨c, p, hc, hkey, hlease⟩ := exists_of_leases_pos hpos
  have hfits := (h.fits hrec hc hlease).2
  have hrests := hsettled.rests hkey hc
  cases p with
  | looking m =>
    rw [show st = _ from hfits] at houtcome
    cases houtcome
  | waiting m =>
    -- The outcome is published, and would have woken the caller.
    obtain rfl := Option.some.inj hlease
    have hsilent : s.channel e.lookup = .silent := hrests
    rw [h.channel_eq hrec] at hsilent
    obtain ⟨r, rfl, -⟩ | ⟨o, rfl⟩ | rfl := h.stage_of_settled hsettled hrec
    · cases hheld
    · cases hsilent
    · cases hheld
  | holding m v => cases hfits.symm.trans houtcome
  | ended => cases hlease
  | _ => exact hrests.elim

end

end SingleFlight

end FrameRpc
