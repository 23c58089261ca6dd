import FrameRpc.Proofs.LeaseCount
import FrameRpc.Proofs.LookupBook

/-!
# One lookup, one outcome

At most one lookup of a key is in flight, and none starts while another is in flight or somebody has
a lease on one that is done: a lease keeps the entry of its lookup in the table, unless the lookup
was given up (`Kept`). Whoever has a lease on a lookup that is done gets its outcome
(`Phase.Heeds`), in whatever order callers go on, and however late a caller wakes
(`outcome_shared`).
-/

namespace FrameRpc

namespace SingleFlight

variable {K V E : Type} [DecidableEq K] {s t : SingleFlight K V E}

/-! ## Leases keep entries -/

theorem Amends.entryOf?_ne_none {key₀ : K} {n₀ : Nat} {f : Entry V E → Option (Entry V E)}
    (h : s.Amends t key₀ n₀ f) {key : K} {n : Nat}
    (hf : key = key₀ → n = n₀ → ∀ e, s.entryOf? key n = some e →
      ∃ e', f e = some e' ∧ e'.lookup = e.lookup)
    (hs : s.entryOf? key n ≠ none) : t.entryOf? key n ≠ none := by
  obtain ⟨e, he⟩ := Option.ne_none_iff_exists'.1 hs
  obtain ⟨hkey, rfl⟩ := entryOf?_eq_some_iff.1 he
  have ht : ∃ e', t.entries.get? key = some e' ∧ e'.lookup = e.lookup := by
    rw [h key, hkey, Option.bind_some]
    split
    · rename_i hkn
      exact hf hkn.1 hkn.2 e he
    · exact ⟨e, rfl, rfl⟩
  obtain ⟨e', he', hlookup⟩ := ht
  rw [entryOf?_eq_some_iff.2 ⟨he', hlookup⟩]
  exact Option.some_ne_none e'

/-- Only a new lease of the caller that is placed can be the first one. -/
theorem leases_pos_of_set {c : Caller K} {p : Phase V E} (h : t.callers = s.callers.set c p)
    {key : K} {n : Nat} (hpos : 0 < t.leases key n) :
    0 < s.leases key n ∨ c.key = key ∧ p.lease? = some n := by
  have hset := leases_of_set h key n
  by_cases hlease : c.key = key ∧ p.lease? = some n
  · exact .inr hlease
  · rw [share, share, Option.bind_some, if_neg hlease] at hset
    exact .inl (by omega)

/-- The entry of a lookup that somebody has a lease on is there, unless the lookup was given up. -/
def Kept (s : SingleFlight K V E) : Prop :=
  ∀ key n, 0 < s.leases key n → s.entryOf? key n = none → .abandoned n key ∈ s.log

/-- A caller gets no lease without an entry, and entries stay, or the lookups of those that go were
    given up. -/
theorem Kept.move (h : s.Kept) {c : Caller K} {p' : Phase V E}
    (hlog : ∀ e ∈ s.log, e ∈ t.log) (hcallers : t.callers = s.callers.set c p')
    (hlease : ∀ n, p'.lease? = some n → 0 < s.leases c.key n ∨ t.entryOf? c.key n ≠ none)
    (hentries : ∀ key n, 0 < t.leases key n → s.entryOf? key n ≠ none →
      t.entryOf? key n ≠ none ∨ .abandoned n key ∈ s.log) : t.Kept := by
  intro key n hpos hnone
  have hpos' : 0 < s.leases key n := by
    rcases leases_pos_of_set hcallers hpos with hpos' | ⟨rfl, hn⟩
    · exact hpos'
    · exact (hlease n hn).resolve_right (absurd hnone)
  by_cases hs : s.entryOf? key n = none
  · exact hlog _ (h key n hpos' hs)
  · rcases hentries key n hpos hs with hsome | hgivenUp
    · exact absurd hnone hsome
    · exact hlog _ hgivenUp

/-- A new entry takes the place of none. -/
theorem Kept.begin (h : s.Kept) {c : Caller K} {n : Nat} (hlog : ∀ e ∈ s.log, e ∈ t.log)
    (hfree : s.entries.get? c.key = none)
    (hentries : t.entries = s.entries.set c.key ⟨n, 1, none⟩)
    (hcallers : t.callers = s.callers.set c (.looking n)) : t.Kept := by
  refine h.move hlog hcallers (fun m hm => .inr ?_) fun key m _ hs => .inl ?_
  · obtain rfl := Option.some.inj hm
    have hkey : t.entries.get? c.key = some ⟨n, 1, none⟩ := by
      rw [hentries, Table.get?_set, if_pos rfl]
    rw [entryOf?_eq_some_iff.2 ⟨hkey, rfl⟩]
    exact Option.some_ne_none _
  · obtain ⟨e, he⟩ := Option.ne_none_iff_exists'.1 hs
    obtain ⟨hkey, hm⟩ := entryOf?_eq_some_iff.1 he
    have hne : key ≠ c.key := by
      rintro rfl
      nomatch hfree.symm.trans hkey
    have hkey' : t.entries.get? key = some e := by
      rw [hentries, Table.get?_set, if_neg hne]
      exact hkey
    rw [entryOf?_eq_some_iff.2 ⟨hkey', hm⟩]
    exact Option.some_ne_none e

/-- Retaining keeps every entry. -/
theorem entryOf?_retain_ne_none {key₀ key : K} {n₀ n : Nat} (h : s.entryOf? key n ≠ none) :
    (s.retain key₀ n₀).entryOf? key n ≠ none :=
  (amends_retain s key₀ n₀).entryOf?_ne_none (fun _ _ _ _ => ⟨_, rfl, rfl⟩) h

/-- The entry that goes with a pending lookup is that of a lookup that the caller has given up. -/
theorem Kept.abandon (h : s.Kept) {book : List (Record K V E)} (hrecorded : s.Recorded book)
    {c : Caller K} {n : Nat} {ending : Ending E}
    (hc : s.callers.get? c = some (.abandoning n ending)) :
    ((s.abandon c.key n).place c (.closing n ending)).Kept := by
  have hgivenUp : .abandoned n c.key ∈ s.log := by
    obtain ⟨st, hrec, hfits⟩ := hrecorded.callers c _ n hc rfl
    obtain rfl : st = .givenUp c := hfits
    exact (hrecorded.log _ rfl).2 ((tells_abandoned_iff hrec).2 ⟨rfl, rfl⟩)
  refine h.move (fun _ he => (Step.abandon hc).log_mono he)
    (place_callers_of (abandon_callers ..) ..)
    (fun n hn => .inl (Option.some.inj hn ▸ leases_pos hc rfl)) fun key m _ hs => ?_
  by_cases hkn : key = c.key ∧ m = n
  · obtain ⟨rfl, rfl⟩ := hkn
    exact .inr hgivenUp
  · exact .inl ((amends_abandon s c.key n).entryOf?_ne_none
      (fun hkey hm _ _ => absurd ⟨hkey, hm⟩ hkn) hs)

/-- An entry that somebody still has a lease on has another owner, so it stays when one parts. -/
theorem Kept.part (h : s.Kept) (hcounted : s.Counted) {c : Caller K} {n : Nat} {p p' : Phase V E}
    {m : Move K V E} (hc : s.callers.get? c = some p) (hpart : Parting c n p m p') :
    ((s.release c.key n).place c p').Kept := by
  have hcallers : ((s.release c.key n).place c p').callers = s.callers.set c p' :=
    place_callers_of (release_callers ..) ..
  refine h.move (fun _ he => (Step.part hc hpart).log_mono he) hcallers
    (fun n hn => nomatch hpart.lease?_eq.2.symm.trans hn)
    fun key m hpos hs => .inl ((amends_release s c.key n).entryOf?_ne_none ?_ hs)
  rintro rfl rfl e he
  obtain ⟨hkey, rfl⟩ := entryOf?_eq_some_iff.1 he
  have howners := hcounted.owners_eq c.key e hkey
  have hleases := leases_of_set hcallers c.key e.lookup
  simp only [share, hc, Option.bind_some, hpart.lease?_eq, reduceCtorEq, and_self, and_false,
    if_true, if_false] at hleases
  rw [if_neg (by omega)]
  exact ⟨_, rfl, rfl⟩

theorem Kept.step (h : s.Kept) (hcounted : s.Counted) {book : List (Record K V E)}
    (hrecorded : s.Recorded book) {m : Move K V E} (hstep : s.Step m t) : t.Kept := by
  have hlog : ∀ e ∈ s.log, e ∈ t.log := fun _ he => hstep.log_mono he
  cases hstep with
  | call hc =>
    exact h.move hlog rfl (fun n hn => nomatch hn) fun key n _ hs => .inl hs
  | withdraw hc =>
    exact h.move hlog rfl (fun n hn => nomatch hn) fun key n _ hs => .inl hs
  | @join c e hc hlive =>
    refine h.move hlog (place_callers_of (retain_callers ..) ..) (fun n hn => .inr ?_)
      fun key n _ hs => .inl (entryOf?_retain_ne_none hs)
    -- The caller gets its lease on the entry that it joins.
    obtain rfl := Option.some.inj ((Entry.lease?_joined e).symm.trans hn)
    refine entryOf?_retain_ne_none ?_
    rw [entryOf?_eq_some_iff.2 ⟨get?_of_live hlive, rfl⟩]
    exact Option.some_ne_none e
  | begin hc hnone => exact h.begin hlog (hrecorded.get?_eq_none hnone) rfl rfl
  | finish o hc =>
    exact h.move hlog rfl (fun n hn => .inl (Option.some.inj hn ▸ leases_pos hc rfl))
      fun key n _ hs => .inl hs
  | giveUp ending hm hc =>
    exact h.move hlog rfl (fun n hn => .inl (Option.some.inj hn ▸ leases_pos hc rfl))
      fun key n _ hs => .inl hs
  | @store c n o hc =>
    refine h.move hlog (place_callers_of (store_callers ..) ..)
      (fun n hn => .inl (Option.some.inj hn ▸ leases_pos hc rfl)) fun key m _ hs => .inl ?_
    exact (amends_store s c.key n o).entryOf?_ne_none (fun _ _ e _ => ⟨_, rfl, rfl⟩) hs
  | publish hc =>
    exact h.move hlog rfl (fun n hn => .inl (Option.some.inj hn ▸ leases_pos hc rfl))
      fun key n _ hs => .inl hs
  | abandon hc => exact h.abandon hrecorded hc
  | close hc =>
    exact h.move hlog rfl (fun n hn => .inl (Option.some.inj hn ▸ leases_pos hc rfl))
      fun key n _ hs => .inl hs
  | turn hc hturn =>
    refine h.move hlog rfl (fun n hn => .inl ?_) fun key n _ hs => .inl hs
    exact leases_pos hc (hturn.lease?_eq.1.trans (hturn.lease?_eq.2.symm.trans hn))
  | part hc hpart => exact h.part hcounted hc hpart
  | @clone c number n v hc hfree =>
    refine h.move hlog (place_callers_of (retain_callers ..) ..) (fun m hm => .inl ?_)
      fun key m _ hs => .inl (entryOf?_retain_ne_none hs)
    obtain rfl := Option.some.inj hm
    exact leases_pos (c := c) hc rfl

/-- What a lease keeps is kept in every state that can be reached. -/
theorem Reachable.kept (reached : s.Reachable) : s.Kept := by
  induction reached with
  | start => exact fun _ _ h => absurd h (Nat.lt_irrefl 0)
  | move m reached possible ih =>
    obtain ⟨book, hrecorded⟩ := reached.recorded
    exact ih.step reached.counted hrecorded (step_of_perform? possible)

/-! ## Lookups in flight -/

/-- A lookup has started, and is neither done nor given up. -/
def InFlight (s : SingleFlight K V E) (key : K) (n : Nat) : Prop :=
  .started n key ∈ s.log ∧ (∀ o, .finished n key o ∉ s.log) ∧ .abandoned n key ∉ s.log

/-- A lookup whose caller lives, or that is done while somebody has a lease on it. -/
def Live (s : SingleFlight K V E) (key : K) (n : Nat) : Prop :=
  s.InFlight key n ∨ (∃ o, .finished n key o ∈ s.log) ∧ 0 < s.leases key n

variable {book : List (Record K V E)}

/-- A lookup in flight is run by a caller that has a lease on it. -/
theorem InFlight.leases_pos {key : K} {n : Nat} (h : s.InFlight key n)
    (hrecorded : s.Recorded book) : 0 < s.leases key n := by
  obtain ⟨hstarted, hfinished, hgivenUp⟩ := h
  obtain ⟨st, hrec⟩ := (hrecorded.log _ rfl).1 hstarted
  have houtcome : ∀ o, st.outcome? ≠ some o := fun o ho =>
    hfinished o ((hrecorded.log _ rfl).2 ((tells_finished_iff hrec).2 ⟨rfl, ho⟩))
  have hgoes : st.isGivenUp ≠ true := fun hst =>
    hgivenUp ((hrecorded.log _ rfl).2 ((tells_abandoned_iff hrec).2 ⟨rfl, hst⟩))
  cases st with
  | flying c =>
    obtain ⟨p, hp, hlease, -, hkey, -⟩ := hrecorded.exists_runner hrec rfl
    obtain rfl : key = c.key := hkey
    exact SingleFlight.leases_pos hp hlease
  | done _ o | stored _ o | published o => exact absurd rfl (houtcome o)
  | givenUp _ | removed _ | closed => exact absurd rfl hgoes

/-- The entry of a live lookup is in the table. -/
theorem Live.entryOf?_ne_none {key : K} {n : Nat} (h : s.Live key n) (hrecorded : s.Recorded book)
    (hkept : s.Kept) : s.entryOf? key n ≠ none := by
  intro hnone
  rcases h with h | ⟨⟨o, hfinished⟩, hpos⟩
  · exact h.2.2 (hkept key n (h.leases_pos hrecorded) hnone)
  · obtain ⟨_, _, _, hgivenUp⟩ := hrecorded.exists_of_finished hfinished
    exact hgivenUp (hkept key n hpos hnone)

theorem eq_of_live {key : K} {n n' : Nat} (reached : s.Reachable) (h : s.Live key n)
    (h' : s.Live key n') : n = n' := by
  obtain ⟨book, hrecorded⟩ := reached.recorded
  -- Both have their entry under the key, and there is only one.
  obtain ⟨e, he⟩ := Option.ne_none_iff_exists'.1 (h.entryOf?_ne_none hrecorded reached.kept)
  obtain ⟨e', he'⟩ := Option.ne_none_iff_exists'.1 (h'.entryOf?_ne_none hrecorded reached.kept)
  obtain ⟨hkey, rfl⟩ := entryOf?_eq_some_iff.1 he
  obtain ⟨hkey', rfl⟩ := entryOf?_eq_some_iff.1 he'
  rw [Option.some.inj (hkey.symm.trans hkey')]

/-- When a lookup starts, none of the same key is live. -/
theorem not_live_of_started {key : K} {n : Nat} {m : Move K V E} (reached : s.Reachable)
    (hstep : s.Step m t) (hold : .started n key ∉ s.log) (hnew : .started n key ∈ t.log)
    (n' : Nat) : ¬ s.Live key n' := by
  intro hlive
  obtain ⟨book, hrecorded⟩ := reached.recorded
  obtain ⟨e, he⟩ := Option.ne_none_iff_exists'.1 (hlive.entryOf?_ne_none hrecorded reached.kept)
  obtain ⟨hkey, -⟩ := entryOf?_eq_some_iff.1 he
  cases hstep with
  | begin hc hnone =>
    rcases List.mem_append.1 hnew with hnew | hnew
    · exact hold hnew
    · obtain ⟨-, rfl⟩ := Event.started.inj (List.mem_singleton.1 hnew)
      nomatch hkey.symm.trans (hrecorded.get?_eq_none hnone)
  | call | withdraw | publish | close | turn => exact hold hnew
  | finish | giveUp =>
    rcases List.mem_append.1 hnew with hnew | hnew
    · exact hold hnew
    · nomatch List.mem_singleton.1 hnew
  | join | clone => exact hold (by rwa [place_log, retain_log] at hnew)
  | store => exact hold (by rwa [place_log, store_log] at hnew)
  | abandon => exact hold (by rwa [place_log, abandon_log] at hnew)
  | part => exact hold ((mem_release_log rfl ..).1 hnew)

/-! ## Outcomes -/

/-- The caller is about to end without an outcome. -/
def Phase.isLeaving : Phase V E → Bool
  | .leaving _ _ => true
  | _ => false

/-- A caller is on its way to the outcome of a lookup, or has got it. -/
def Phase.Heeds (n : Nat) (o : Except E V) : Phase V E → Prop
  | .storing m o' | .publishing m o' | .resolving m o' => m = n ∧ o' = o
  | .waiting m => m = n
  | .holding m v => m = n ∧ o = .ok v
  | .ended (.failed e) => o = .error e
  | .ended .dropped => ∃ v, o = .ok v
  | _ => False

/-- A caller has got an outcome: it holds the value, or has dropped it, or has failed. -/
def Phase.Got (o : Except E V) : Phase V E → Prop
  | .holding _ v => o = .ok v
  | .ended (.failed e) => o = .error e
  | .ended .dropped => ∃ v, o = .ok v
  | _ => False

/-- A caller at a phase has a lease on a lookup and stays, or has ended with its outcome. -/
def Phase.Attends (s : SingleFlight K V E) (key : K) (n : Nat) (q : Phase V E) : Prop :=
  q.lease? = some n ∧ q.isLeaving = false ∨
    ∃ o, .finished n key o ∈ s.log ∧ q.lease? = none ∧ q.Got o

/-- A caller attends to a lookup, or the lookup has been given up. -/
def Attends (s : SingleFlight K V E) (c : Caller K) (n : Nat) : Prop :=
  .abandoned n c.key ∈ s.log ∨ ∃ q, s.callers.get? c = some q ∧ q.Attends s c.key n

/-- Only what the caller itself does matters. -/
theorem Attends.move {c c₁ : Caller K} {n : Nat} {p₁ : Phase V E} (h : s.Attends c n)
    (hlog : ∀ e ∈ s.log, e ∈ t.log) (hcallers : t.callers = s.callers.set c₁ p₁)
    (hmove : c₁ = c → ∀ q, s.callers.get? c = some q → q.Attends s c.key n →
      .abandoned n c.key ∈ s.log ∨ p₁.Attends t c.key n) : t.Attends c n := by
  rcases h with hgivenUp | ⟨q, hq, hattends⟩
  · exact .inl (hlog _ hgivenUp)
  · by_cases hc : c₁ = c
    · rcases hmove hc q hq hattends with hgivenUp | hattends'
      · exact .inl (hlog _ hgivenUp)
      · refine .inr ⟨p₁, ?_, hattends'⟩
        rw [hcallers, Table.get?_set, if_pos hc.symm]
    · refine .inr ⟨q, ?_, ?_⟩
      · rw [hcallers, Table.get?_set, if_neg (Ne.symm hc)]
        exact hq
      · rcases hattends with hlease | ⟨o, ho, hgot⟩
        · exact .inl hlease
        · exact .inr ⟨o, hlog _ ho, hgot⟩

/-- A caller that keeps its lease and stays attends to the lookup. -/
theorem Attends.keep {c c₁ : Caller K} {n n₁ : Nat} {p p₁ : Phase V E} (h : s.Attends c n)
    (hlog : ∀ e ∈ s.log, e ∈ t.log) (hcallers : t.callers = s.callers.set c₁ p₁)
    (hc : s.callers.get? c₁ = some p) (hp : p.lease? = some n₁) (hp₁ : p₁.lease? = some n₁)
    (hstay : c₁ = c → p₁.isLeaving = false) : t.Attends c n := by
  refine h.move hlog hcallers fun heq q hq hattends => .inr (.inl ⟨?_, hstay heq⟩)
  subst heq
  obtain rfl := Option.some.inj (hc.symm.trans hq)
  rcases hattends with ⟨hn, -⟩ | ⟨_, _, hnone, _⟩
  · rw [hp₁, ← hp, hn]
  · nomatch hp.symm.trans hnone

/-- A caller that gives up its lease has got the outcome, or leaves, or its lookup was given up. -/
theorem Recorded.attends_part (h : s.Recorded book) {c : Caller K} {n : Nat} {p p' : Phase V E}
    {m : Move K V E} (hc : s.callers.get? c = some p) (hpart : Parting c n p m p') :
    .abandoned n c.key ∈ s.log ∨ p.isLeaving = true ∨
      ∃ o, .finished n c.key o ∈ s.log ∧ p'.lease? = none ∧ p'.Got o := by
  obtain ⟨st, hrec, hfits⟩ := h.callers c p n hc hpart.lease?_eq.1
  cases hpart with
  | fail e =>
    exact .inr (.inr ⟨_, (h.log _ rfl).2 ((tells_finished_iff hrec).2 ⟨rfl, hfits⟩), rfl, rfl⟩)
  | retry =>
    obtain rfl : st = .closed := hfits
    exact .inl ((h.log _ rfl).2 ((tells_abandoned_iff hrec).2 ⟨rfl, rfl⟩))
  | leave => exact .inr (.inl rfl)
  | drop v =>
    exact .inr (.inr ⟨_, (h.log _ rfl).2 ((tells_finished_iff hrec).2 ⟨rfl, hfits⟩), rfl, v, rfl⟩)

/-- Nobody attends to a lookup before having joined. -/
theorem Attends.joining {c c₁ : Caller K} {n : Nat} {p₁ : Phase V E} (h : s.Attends c n)
    (hlog : ∀ e ∈ s.log, e ∈ t.log) (hcallers : t.callers = s.callers.set c₁ p₁)
    (hc : s.callers.get? c₁ = some .joining) : t.Attends c n := by
  refine h.move hlog hcallers fun heq q hq hattends => ?_
  subst heq
  obtain rfl := Option.some.inj (hc.symm.trans hq)
  rcases hattends with ⟨hn, -⟩ | ⟨_, _, _, hgot⟩
  · nomatch hn
  · exact hgot.elim

/-- Neither does a caller that is new. -/
theorem Attends.enter {c c₁ : Caller K} {n : Nat} {p₁ : Phase V E} (h : s.Attends c n)
    (hlog : ∀ e ∈ s.log, e ∈ t.log) (hcallers : t.callers = s.callers.set c₁ p₁)
    (hc : s.callers.get? c₁ = none) : t.Attends c n := by
  refine h.move hlog hcallers fun heq q hq _ => ?_
  subst heq
  nomatch hc.symm.trans hq

/-- Who closes the channel of a lookup has given it up. -/
theorem Attends.close {c c₁ : Caller K} {n n₁ : Nat} {ending : Ending E} (h : s.Attends c n)
    (hrecorded : s.Recorded book) (hlog : ∀ e ∈ s.log, e ∈ t.log)
    (hcallers : t.callers = s.callers.set c₁ (.leaving n₁ ending))
    (hc : s.callers.get? c₁ = some (.closing n₁ ending)) : t.Attends c n := by
  refine h.move hlog hcallers fun heq q hq hattends => .inl ?_
  subst heq
  obtain rfl := Option.some.inj (hc.symm.trans hq)
  rcases hattends with ⟨hn, -⟩ | ⟨_, _, hnone, _⟩
  · obtain rfl := Option.some.inj hn
    obtain ⟨_, hrec, rfl⟩ := hrecorded.callers c₁ _ n₁ hc rfl
    exact (hrecorded.log _ rfl).2 ((tells_abandoned_iff hrec).2 ⟨rfl, rfl⟩)
  · nomatch hnone

/-- Who gives up a lease without leaving has got the outcome. -/
theorem Attends.part {c c₁ : Caller K} {n n₁ : Nat} {p p' : Phase V E} {m : Move K V E}
    (h : s.Attends c n) (hrecorded : s.Recorded book) (hlog : ∀ e ∈ s.log, e ∈ t.log)
    (hcallers : t.callers = s.callers.set c₁ p') (hc : s.callers.get? c₁ = some p)
    (hpart : Parting c₁ n₁ p m p') : t.Attends c n := by
  refine h.move hlog hcallers fun heq q hq hattends => ?_
  subst heq
  obtain rfl := Option.some.inj (hc.symm.trans hq)
  rcases hattends with ⟨hn, hstay⟩ | ⟨_, _, hnone, _⟩
  · obtain rfl := Option.some.inj (hpart.lease?_eq.1.symm.trans hn)
    rcases hrecorded.attends_part hc hpart with hgivenUp | hleaving | ⟨o, ho, hgot⟩
    · exact .inl hgivenUp
    · nomatch hstay.symm.trans hleaving
    · exact .inr (.inr ⟨o, hlog _ ho, hgot⟩)
  · nomatch hpart.lease?_eq.1.symm.trans hnone

/-- As long as it is not cancelled, a caller attends to its lookup. -/
theorem Attends.step {c : Caller K} {n : Nat} (h : s.Attends c n) (hrecorded : s.Recorded book)
    {m : Move K V E} (hm : m ≠ .cancel c) (hstep : s.Step m t) : t.Attends c n := by
  have hlog : ∀ e ∈ s.log, e ∈ t.log := fun _ he => hstep.log_mono he
  cases hstep with
  | call hc => exact h.enter hlog rfl hc
  | withdraw hc => exact h.joining hlog rfl hc
  | join hc hlive => exact h.joining hlog (place_callers_of (retain_callers ..) ..) hc
  | begin hc hnone => exact h.joining hlog rfl hc
  | finish o hc => exact h.keep hlog rfl hc rfl rfl fun _ => rfl
  | giveUp ending hm hc => exact h.keep hlog rfl hc rfl rfl fun _ => rfl
  | store hc =>
    exact h.keep hlog (place_callers_of (store_callers ..) ..) hc rfl rfl fun _ => rfl
  | publish hc => exact h.keep hlog rfl hc rfl rfl fun _ => rfl
  | abandon hc =>
    exact h.keep hlog (place_callers_of (abandon_callers ..) ..) hc rfl rfl fun _ => rfl
  | close hc => exact h.close hrecorded hlog rfl hc
  | turn hc hturn =>
    refine h.keep hlog rfl hc hturn.lease?_eq.1 hturn.lease?_eq.2 fun heq => ?_
    cases hturn with
    | wake | gone | hold => rfl
    | cancel => exact absurd (congrArg Move.cancel heq) hm
  | part hc hpart =>
    exact h.part hrecorded hlog (place_callers_of (release_callers ..) ..) hc hpart
  | clone hc hfree => exact h.enter hlog (place_callers_of (retain_callers ..) ..) hfree

/-- What is preserved by one step is by a run. -/
theorem Attends.run {c : Caller K} {n : Nat} (h : s.Attends c n) (reached : s.Reachable)
    {moves : List (Move K V E)} (hmoves : .cancel c ∉ moves) (hrun : s.run? moves = some t) :
    t.Attends c n := by
  induction moves generalizing s with
  | nil => exact Option.some.inj hrun ▸ h
  | cons m rest ih =>
    obtain ⟨u, hu, hrest⟩ := Option.bind_eq_some_iff.1 hrun
    obtain ⟨hm, hmoves⟩ := not_or.1 (mt List.mem_cons.2 hmoves)
    obtain ⟨book, hrecorded⟩ := reached.recorded
    exact ih (h.step hrecorded (Ne.symm hm) (step_of_perform? hu)) (reached.move m hu) hmoves hrest

/-- Who attends to a lookup that is done heeds its outcome. -/
theorem Attends.heeds {c : Caller K} {n : Nat} {o : Except E V} (h : s.Attends c n)
    (hrecorded : s.Recorded book) (hfinished : .finished n c.key o ∈ s.log) :
    ∃ q, s.callers.get? c = some q ∧ q.Heeds n o := by
  obtain ⟨st, hrec, ho, hkept⟩ := hrecorded.exists_of_finished hfinished
  obtain ⟨q, hq, ⟨hn, hstay⟩ | ⟨o', hfinished', hnone, hgot⟩⟩ := h.resolve_left hkept
  · -- With a lease, the stage of the lookup says where the caller can be.
    refine ⟨q, hq, ?_⟩
    have hfits := (hrecorded.fits hrec hq hn).2
    cases q with
    | joining | ended _ => nomatch hn
    | leaving _ _ => nomatch hstay
    | looking _ | abandoning _ _ | closing _ _ | retrying _ =>
      rw [show st = _ from hfits] at ho
      nomatch ho
    | storing _ _ | publishing _ _ =>
      rw [show st = _ from hfits] at ho
      exact ⟨Option.some.inj hn, Option.some.inj ho⟩
    | waiting _ => exact Option.some.inj hn
    | resolving _ _ => exact ⟨Option.some.inj hn, Option.some.inj (hfits.symm.trans ho)⟩
    | holding _ _ => exact ⟨Option.some.inj hn, Option.some.inj (ho.symm.trans hfits)⟩
  · -- Without one it has ended with an outcome, and a lookup has no two of them.
    obtain ⟨st', hrec', ho', -⟩ := hrecorded.exists_of_finished hfinished'
    obtain ⟨-, rfl⟩ := Record.mk.inj (Option.some.inj (hrec.symm.trans hrec'))
    obtain rfl := Option.some.inj (ho.symm.trans ho')
    refine ⟨q, hq, ?_⟩
    cases q with
    | holding _ _ => nomatch hnone
    | ended ending => cases ending <;> exact hgot
    | _ => exact hgot.elim

/-- Steps of callers alone, no call, no drop and no lookup, lead to where a caller has got an
    outcome. -/
def CanGet (s : SingleFlight K V E) (c : Caller K) (o : Except E V) : Prop :=
  ∃ moves u q, (∀ m ∈ moves, ∃ a, m = Move.step a) ∧ s.run? moves = some u ∧
    u.callers.get? c = some q ∧ q.Got o

theorem canGet_of_got {c : Caller K} {q : Phase V E} {o : Except E V}
    (hq : s.callers.get? c = some q) (hgot : q.Got o) : s.CanGet c o :=
  ⟨[], s, q, fun _ h => absurd h List.not_mem_nil, rfl, hq, hgot⟩

theorem CanGet.of_step {a c : Caller K} {p : Phase V E} {o : Except E V}
    (ha : s.callers.get? a = some p) (hstep : s.step? a p = some t) (h : t.CanGet c o) :
    s.CanGet c o := by
  obtain ⟨moves, u, q, hmoves, hrun, hq, hgot⟩ := h
  refine ⟨.step a :: moves, u, q, fun m hm => ?_, ?_, hq, hgot⟩
  · rcases List.mem_cons.1 hm with rfl | hm
    · exact ⟨a, rfl⟩
    · exact hmoves m hm
  · have hperform : s.perform? (.step a) = some t := by rw [perform?, ha, Option.bind_some, hstep]
    rw [run?, hperform]
    exact hrun

theorem get?_place_self (s : SingleFlight K V E) (c : Caller K) (p : Phase V E) :
    (s.place c p).callers.get? c = some p := by
  rw [place_callers, Table.get?_set, if_pos rfl]

theorem canGet_of_resolving {c : Caller K} {n : Nat} {o : Except E V}
    (hc : s.callers.get? c = some (.resolving n o)) : s.CanGet c o := by
  cases o with
  | ok v => exact .of_step hc rfl (canGet_of_got (get?_place_self ..) rfl)
  | error e => exact .of_step hc rfl (canGet_of_got (get?_place_self ..) rfl)

theorem canGet_of_publishing {c : Caller K} {n : Nat} {o : Except E V}
    (hc : s.callers.get? c = some (.publishing n o)) : s.CanGet c o :=
  .of_step hc rfl (canGet_of_resolving (get?_place_self ..))

theorem canGet_of_storing {c : Caller K} {n : Nat} {o : Except E V}
    (hc : s.callers.get? c = some (.storing n o)) : s.CanGet c o :=
  .of_step hc rfl (canGet_of_publishing (get?_place_self ..))

theorem canGet_of_published {c : Caller K} {n : Nat} {o : Except E V}
    (hc : s.callers.get? c = some (.waiting n)) (hchannel : s.channel n = .published o) :
    s.CanGet c o := by
  refine .of_step hc ?_ (canGet_of_resolving (get?_place_self s c (.resolving n o)))
  rw [step?, hchannel]

/-- Who waits gets the outcome as soon as the runner has published it. -/
theorem canGet_of_runner_publishing {a c : Caller K} {n : Nat} {o : Except E V}
    (hn : n < s.channels.length) (ha : s.callers.get? a = some (.publishing n o))
    (hc : s.callers.get? c = some (.waiting n)) : s.CanGet c o := by
  have hne : c ≠ a := by
    rintro rfl
    nomatch ha.symm.trans hc
  refine .of_step ha rfl (canGet_of_published (n := n) ?_ ?_)
  · rw [place_callers, Table.get?_set, if_neg hne]
    exact hc
  · change (s.channels.set n (.published o)).getD n .closed = _
    rw [List.getD_eq_getElem?_getD, List.getElem?_set_self hn]
    rfl

theorem canGet_of_runner_storing {a c : Caller K} {n : Nat} {o : Except E V}
    (hn : n < s.channels.length) (ha : s.callers.get? a = some (.storing n o))
    (hc : s.callers.get? c = some (.waiting n)) : s.CanGet c o := by
  have hne : c ≠ a := by
    rintro rfl
    nomatch ha.symm.trans hc
  refine .of_step ha rfl (canGet_of_runner_publishing ?_ (get?_place_self ..) ?_)
  · rw [place_channels, store_channels]
    exact hn
  · rw [place_callers, store_callers, Table.get?_set, if_neg hne]
    exact hc

/-- Who waits for a lookup that is done can get its outcome: it has been published, or the runner
    is about to publish it. -/
theorem canGet_of_waiting {c : Caller K} {n : Nat} {o : Except E V} (reached : s.Reachable)
    (hc : s.callers.get? c = some (.waiting n)) (hfinished : .finished n c.key o ∈ s.log) :
    s.CanGet c o := by
  obtain ⟨book, hrecorded⟩ := reached.recorded
  obtain ⟨st, hrec, ho, -⟩ := hrecorded.exists_of_finished hfinished
  have hn := reached.counted.started c _ n hc rfl
  cases st with
  | published o' =>
    obtain rfl := Option.some.inj ho
    exact canGet_of_published hc (hrecorded.channel_eq hrec)
  | stored a o' =>
    obtain rfl := Option.some.inj ho
    exact canGet_of_runner_publishing hn (hrecorded.publishing_of_stored hrec) hc
  | done a o' =>
    obtain rfl := Option.some.inj ho
    exact canGet_of_runner_storing hn (hrecorded.storing_of_done hrec) hc
  | flying | givenUp | removed | closed => nomatch ho

/-- Who heeds the outcome of a lookup can get it. -/
theorem canGet_of_heeds {c : Caller K} {n : Nat} {o : Except E V} {q : Phase V E}
    (reached : s.Reachable) (hq : s.callers.get? c = some q) (hheeds : q.Heeds n o)
    (hfinished : .finished n c.key o ∈ s.log) : s.CanGet c o := by
  cases q with
  | storing m o' =>
    obtain ⟨rfl, rfl⟩ := hheeds
    exact canGet_of_storing hq
  | publishing m o' =>
    obtain ⟨rfl, rfl⟩ := hheeds
    exact canGet_of_publishing hq
  | resolving m o' =>
    obtain ⟨rfl, rfl⟩ := hheeds
    exact canGet_of_resolving hq
  | waiting m =>
    obtain rfl : m = n := hheeds
    exact canGet_of_waiting reached hq hfinished
  | holding m v => exact canGet_of_got hq hheeds.2
  | ended ending =>
    refine canGet_of_got hq ?_
    cases ending with
    | failed e => exact hheeds
    | dropped => exact hheeds
    | cancelled | panicked => exact hheeds.elim
  | _ => exact hheeds.elim

/-- At any time at most one lookup of a key is in flight; none starts while one of the same key is
    live; and whoever had a lease on a lookup that is done by now, and has not been cancelled, heeds
    its outcome, and can get it by steps of callers alone, whatever has happened meanwhile. -/
theorem outcome_shared (reached : s.Reachable) :
    (∀ key n n', s.InFlight key n → s.InFlight key n' → n = n') ∧
      (∀ m t key n, s.perform? m = some t → .started n key ∉ s.log → .started n key ∈ t.log →
        ∀ n', ¬ s.Live key n') ∧
      ∀ c p n moves t o, s.callers.get? c = some p → p.lease? = some n → p.isLeaving = false →
        .cancel c ∉ moves → s.run? moves = some t → .finished n c.key o ∈ t.log →
        ∃ q, t.callers.get? c = some q ∧ q.Heeds n o ∧ t.CanGet c o := by
  refine ⟨fun key n n' h h' => eq_of_live reached (.inl h) (.inl h'),
    fun m t key n possible hold hnew => ?_,
    fun c p n moves t o hc hp hstay hmoves hrun hfinished => ?_⟩
  · exact not_live_of_started reached (step_of_perform? possible) hold hnew
  · have reached' := reachable_of_run? reached hrun
    obtain ⟨book, hrecorded⟩ := reached'.recorded
    have hattends : s.Attends c n := .inr ⟨p, hc, .inl ⟨hp, hstay⟩⟩
    obtain ⟨q, hq, hheeds⟩ := (hattends.run reached hmoves hrun).heeds hrecorded hfinished
    exact ⟨q, hq, hheeds, canGet_of_heeds reached' hq hheeds hfinished⟩

/-- A caller starts a lookup, another one waits for it, and a third is about to ask for another
    key. -/
def waitingMoves : List (Move Nat Nat Nat) :=
  [.call ⟨7, 0⟩, .call ⟨7, 1⟩, .step ⟨7, 0⟩, .step ⟨7, 1⟩, .call ⟨8, 0⟩]

/-- The table after these moves. -/
def waitingTable : SingleFlight Nat Nat Nat := (start.run? waitingMoves).getD start

/-- The lookup is done, and its caller holds the value and drops it, before the one that waits
    wakes. -/
def lateMoves : List (Move Nat Nat Nat) :=
  [.finish ⟨7, 0⟩ (.ok 5), .step ⟨7, 0⟩, .step ⟨7, 0⟩, .step ⟨7, 0⟩, .drop ⟨7, 0⟩]

/-- The table after these moves as well. -/
def lateTable : SingleFlight Nat Nat Nat := (waitingTable.run? lateMoves).getD start

/-- One lookup is in flight, one of another key may start, and the caller that wakes late gets the
    value. -/
theorem outcome_of_lateTable :
    waitingTable.Reachable ∧ (∀ n, waitingTable.InFlight 7 n → n = 0) ∧
      (∀ n, ¬ waitingTable.Live 8 n) ∧
      ∃ q, lateTable.callers.get? ⟨7, 1⟩ = some q ∧ q.Heeds 0 (.ok 5) ∧
        lateTable.CanGet ⟨7, 1⟩ (.ok 5) := by
  have reached : waitingTable.Reachable :=
    reachable_of_run? .start (show start.run? waitingMoves = some waitingTable from rfl)
  have hlog : waitingTable.log = [.started 0 7] := rfl
  have hlate : lateTable.log = [.started 0 7, .finished 0 7 (.ok 5)] := rfl
  have hflight : waitingTable.InFlight 7 0 := by
    refine ⟨?_, fun o h => ?_, fun h => ?_⟩
    · rw [hlog]
      exact List.mem_singleton_self _
    · rw [hlog] at h
      nomatch List.mem_singleton.1 h
    · rw [hlog] at h
      nomatch List.mem_singleton.1 h
  obtain ⟨hunique, hstart, hshared⟩ := outcome_shared reached
  refine ⟨reached, fun n h => hunique 7 n 0 h hflight, ?_, ?_⟩
  · refine hstart (.step ⟨8, 0⟩) ((waitingTable.perform? (.step ⟨8, 0⟩)).getD start) 8 1 rfl ?_ ?_
    · rw [hlog]
      exact fun h => nomatch List.mem_singleton.1 h
    · exact List.mem_append_right _ (List.mem_singleton_self _)
  · refine hshared ⟨7, 1⟩ (.waiting 0) 0 lateMoves lateTable (.ok 5) rfl rfl rfl ?_ rfl ?_
    · exact fun h => by simp [lateMoves] at h
    · rw [hlate]
      exact .tail _ (.head _)

end SingleFlight

end FrameRpc
