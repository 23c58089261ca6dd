import FrameRpc.Proofs.LookupSteps

/-!
# The book of lookups

A history of a table of lookups: for every lookup that has started, in order, its key, how far it
has come and who runs it (`Record`). A lookup is done, its outcome is stored in the entry and then
published on the channel; or it is given up, its entry is removed and then the channel closed
(`Stage.Next`). Everything that callers, entries, channels and the log know of a lookup agrees with
its stage (`Recorded`), and whatever happens, there is such a book (`Reachable.recorded`).
-/

namespace FrameRpc

namespace SingleFlight

variable {K V E : Type}

/-! ## Stages -/

/-- How far a lookup has come, and the caller that runs it. -/
inductive Stage (K V E : Type) where
  /-- It goes on. -/
  | flying (runner : Caller K)
  /-- It is done. -/
  | done (runner : Caller K) (outcome : Except E V)
  /-- Its outcome is in the entry. -/
  | stored (runner : Caller K) (outcome : Except E V)
  /-- Its outcome is on the channel. -/
  | published (outcome : Except E V)
  /-- It has been given up. -/
  | givenUp (runner : Caller K)
  /-- Its entry has been removed. -/
  | removed (runner : Caller K)
  /-- Its channel has been closed. -/
  | closed

namespace Stage

/-- The caller that runs the lookup. -/
def runner? : Stage K V E → Option (Caller K)
  | .flying c | .done c _ | .stored c _ | .givenUp c | .removed c => some c
  | .published _ | .closed => none

/-- The outcome of a lookup that is done. -/
def outcome? : Stage K V E → Option (Except E V)
  | .done _ o | .stored _ o | .published o => some o
  | _ => none

/-- The lookup has been given up. -/
def isGivenUp : Stage K V E → Bool
  | .givenUp _ | .removed _ | .closed => true
  | _ => false

/-- The channel of the lookup. -/
def channel : Stage K V E → Channel V E
  | .published o => .published o
  | .closed => .closed
  | _ => .silent

/-- What an entry of the lookup holds, if there may be one. -/
def held? : Stage K V E → Option (Option (Except E V))
  | .flying _ | .done _ _ | .givenUp _ => some none
  | .stored _ o | .published o => some (some o)
  | .removed _ | .closed => none

/-- A caller that has a lease on the lookup can be at a phase. -/
def Fits (st : Stage K V E) (c : Caller K) : Phase V E → Prop
  | .looking _ => st = .flying c
  | .storing _ o => st = .done c o
  | .publishing _ o => st = .stored c o
  | .abandoning _ _ => st = .givenUp c
  | .closing _ _ => st = .removed c
  | .resolving _ o => st.outcome? = some o
  | .holding _ v => st.outcome? = some (.ok v)
  | .retrying _ => st = .closed
  | .leaving _ ending => st = .closed ∨ ending = .cancelled
  | .waiting _ | .joining | .ended _ => True

/-- What the caller that runs a lookup does with it. -/
inductive Next : Stage K V E → Caller K → Stage K V E → Prop where
  | finish (c : Caller K) (o : Except E V) : Next (.flying c) c (.done c o)
  | store (c : Caller K) (o : Except E V) : Next (.done c o) c (.stored c o)
  | publish (c : Caller K) (o : Except E V) : Next (.stored c o) c (.published o)
  | giveUp (c : Caller K) : Next (.flying c) c (.givenUp c)
  | remove (c : Caller K) : Next (.givenUp c) c (.removed c)
  | close (c : Caller K) : Next (.removed c) c .closed

variable {st st' : Stage K V E} {c c' : Caller K}

theorem Next.runner?_eq (h : st.Next c st') : st'.runner? = some c ∨ st'.runner? = none := by
  cases h
  case publish => exact .inr rfl
  case close => exact .inr rfl
  all_goals exact .inl rfl

theorem Next.outcome?_mono (h : st.Next c st') {o : Except E V} (ho : st.outcome? = some o) :
    st'.outcome? = some o := by
  cases h with
  | finish | giveUp | remove | close => nomatch ho
  | store | publish => exact ho

theorem outcome?_of_held? {o : Except E V} (h : st.held? = some (some o)) :
    st.outcome? = some o := by
  cases st with
  | stored | published => exact Option.some.inj h
  | _ => nomatch h

/-- Where other callers are does not depend on what the runner does. -/
theorem Next.fits (h : st.Next c st') (hne : c' ≠ c) {p : Phase V E} (hfits : st.Fits c' p) :
    st'.Fits c' p := by
  have hrunner : st.runner? = some c := by cases h <;> rfl
  cases p with
  | looking n | storing n o | publishing n o | abandoning n ending | closing n ending =>
    -- This is the runner itself.
    rw [show st = _ from hfits] at hrunner
    exact absurd (Option.some.inj hrunner) hne
  | resolving n o => exact h.outcome?_mono hfits
  | holding n v => exact h.outcome?_mono hfits
  | retrying n =>
    rw [show st = _ from hfits] at hrunner
    nomatch hrunner
  | leaving n ending =>
    rcases hfits with rfl | hcancelled
    · nomatch hrunner
    · exact .inr hcancelled
  | waiting | joining | ended => trivial

end Stage

/-! ## Books -/

/-- What the book has on a lookup. -/
structure Record (K V E : Type) where
  key : K
  stage : Stage K V E

/-- The event is the release of an evicted entry, of which the book says nothing. -/
def Event.isRelease : Event K V E → Bool
  | .released .. => true
  | _ => false

/-- The book tells of an event. -/
def Tells (book : List (Record K V E)) : Event K V E → Prop
  | .started n key => ∃ st, book[n]? = some ⟨key, st⟩
  | .finished n key o => ∃ st, book[n]? = some ⟨key, st⟩ ∧ st.outcome? = some o
  | .abandoned n key => ∃ st, book[n]? = some ⟨key, st⟩ ∧ st.isGivenUp = true
  | .released .. => False

/-- What is logged when a lookup comes to a stage. -/
def Stage.news (n : Nat) (key : K) : Stage K V E → List (Event K V E)
  | .done _ o => [.finished n key o]
  | .givenUp _ => [.abandoned n key]
  | _ => []

section

variable {book : List (Record K V E)} {c : Caller K} {st st' : Stage K V E} {n : Nat} {key : K}

theorem getElem?_concat_iff {r r' : Record K V E} {m : Nat} :
    (book ++ [r])[m]? = some r' ↔ book[m]? = some r' ∨ m = book.length ∧ r' = r := by
  rcases Nat.lt_trichotomy m book.length with hlt | rfl | hgt
  · rw [List.getElem?_append_left hlt]
    simp [Nat.ne_of_lt hlt]
  · simp [eq_comm]
  · rw [List.getElem?_eq_none (by simp; omega), List.getElem?_eq_none (by omega)]
    simp [Nat.ne_of_gt hgt]

theorem getElem?_set_iff {r₀ r r' : Record K V E} {m : Nat} (hrec : book[n]? = some r₀) :
    (book.set n r)[m]? = some r' ↔ m = n ∧ r' = r ∨ m ≠ n ∧ book[m]? = some r' := by
  have hlt := (List.getElem?_eq_some_iff.1 hrec).1
  by_cases hm : m = n
  · subst hm
    rw [List.getElem?_set_self hlt]
    simp [eq_comm]
  · rw [List.getElem?_set_ne (Ne.symm hm)]
    simp [hm]

theorem tells_concat (e : Event K V E) :
    Tells (book ++ [⟨key, .flying c⟩]) e ↔ Tells book e ∨ e = .started book.length key := by
  cases e with
  | started m k =>
    simp only [Tells, getElem?_concat_iff, Record.mk.injEq, exists_or, Event.started.injEq]
    refine or_congr_right ⟨fun ⟨_, hm, hk, _⟩ => ⟨hm, hk⟩, fun ⟨hm, hk⟩ => ⟨_, hm, hk, rfl⟩⟩
  | finished m k o =>
    simp only [Tells, getElem?_concat_iff, Record.mk.injEq, reduceCtorEq, or_false]
    constructor
    · rintro ⟨_, hrec | ⟨_, _, rfl⟩, ho⟩
      · exact ⟨_, hrec, ho⟩
      · nomatch ho
    · rintro ⟨_, hrec, ho⟩
      exact ⟨_, .inl hrec, ho⟩
  | abandoned m k =>
    simp only [Tells, getElem?_concat_iff, Record.mk.injEq, reduceCtorEq, or_false]
    constructor
    · rintro ⟨_, hrec | ⟨_, _, rfl⟩, ho⟩
      · exact ⟨_, hrec, ho⟩
      · nomatch ho
    · rintro ⟨_, hrec, ho⟩
      exact ⟨_, .inl hrec, ho⟩
  | released => simp [Tells]

theorem tells_started_iff (hrec : book[n]? = some ⟨key, st⟩) {k : K} :
    Tells book (.started n k) ↔ k = key := by
  simp only [Tells, hrec, Option.some.injEq, Record.mk.injEq]
  exact ⟨fun ⟨_, hk, _⟩ => hk.symm, fun hk => ⟨st, hk.symm, rfl⟩⟩

theorem tells_finished_iff (hrec : book[n]? = some ⟨key, st⟩) {k : K} {o : Except E V} :
    Tells book (.finished n k o) ↔ k = key ∧ st.outcome? = some o := by
  simp only [Tells, hrec, Option.some.injEq, Record.mk.injEq]
  exact ⟨fun ⟨_, ⟨hk, hst⟩, ho⟩ => ⟨hk.symm, hst ▸ ho⟩, fun ⟨hk, ho⟩ => ⟨st, ⟨hk.symm, rfl⟩, ho⟩⟩

theorem tells_abandoned_iff (hrec : book[n]? = some ⟨key, st⟩) {k : K} :
    Tells book (.abandoned n k) ↔ k = key ∧ st.isGivenUp = true := by
  simp only [Tells, hrec, Option.some.injEq, Record.mk.injEq]
  exact ⟨fun ⟨_, ⟨hk, hst⟩, ho⟩ => ⟨hk.symm, hst ▸ ho⟩, fun ⟨hk, ho⟩ => ⟨st, ⟨hk.symm, rfl⟩, ho⟩⟩

/-- When a lookup goes on to its next stage, the book tells of what is logged then, and of nothing
    else that it did not tell of before. -/
theorem tells_next (h : st.Next c st') (hrec : book[n]? = some ⟨key, st⟩) (e : Event K V E) :
    Tells (book.set n ⟨key, st'⟩) e ↔ Tells book e ∨ e ∈ st'.news n key := by
  have hlt := (List.getElem?_eq_some_iff.1 hrec).1
  have hrec' : (book.set n ⟨key, st'⟩)[n]? = some ⟨key, st'⟩ := List.getElem?_set_self hlt
  cases e with
  | released => cases h <;> simp [Tells, Stage.news]
  | started m k =>
    by_cases hm : m = n
    · subst hm
      rw [tells_started_iff hrec, tells_started_iff hrec']
      cases h <;> simp [Stage.news]
    · cases h <;> simp [Tells, getElem?_set_iff hrec, Stage.news, hm]
  | finished m k o =>
    by_cases hm : m = n
    · subst hm
      rw [tells_finished_iff hrec, tells_finished_iff hrec']
      cases h <;> simp [Stage.news, Stage.outcome?, eq_comm]
    · cases h <;> simp [Tells, getElem?_set_iff hrec, Stage.news, hm]
  | abandoned m k =>
    by_cases hm : m = n
    · subst hm
      rw [tells_abandoned_iff hrec, tells_abandoned_iff hrec']
      cases h <;> simp [Stage.news, Stage.isGivenUp]
    · cases h <;> simp [Tells, getElem?_set_iff hrec, Stage.news, hm]

end

/-- The caller runs a lookup, or is about to end one. -/
def Phase.isRunning : Phase V E → Bool
  | .looking _ | .storing _ _ | .publishing _ _ | .abandoning _ _ | .closing _ _ => true
  | _ => false

variable [DecidableEq K]

/-- The table agrees with a book. -/
structure Recorded (s : SingleFlight K V E) (book : List (Record K V E)) : Prop where
  channels : s.channels = book.map fun r => r.stage.channel
  log : ∀ e : Event K V E, e.isRelease = false → (e ∈ s.log ↔ Tells book e)
  /-- Whoever has a lease on a lookup is where the stage of the lookup lets it be. -/
  callers : ∀ c p n, s.callers.get? c = some p → p.lease? = some n →
    ∃ st, book[n]? = some ⟨c.key, st⟩ ∧ st.Fits c p
  /-- Whoever runs a lookup is there. -/
  runners : ∀ n r c, book[n]? = some r → r.stage.runner? = some c →
    ∃ p, s.callers.get? c = some p ∧ p.lease? = some n ∧ p.isRunning = true
  entries : ∀ key e, s.entries.get? key = some e →
    ∃ st, book[e.lookup]? = some ⟨key, st⟩ ∧ st.held? = some e.outcome

section

variable {s t : SingleFlight K V E} {book : List (Record K V E)} {c : Caller K} {p' : Phase V E}

theorem recorded_start : Recorded (start : SingleFlight K V E) [] where
  channels := rfl
  log := fun e _ => by
    refine ⟨fun h => absurd h List.not_mem_nil, fun h => ?_⟩
    cases e <;> simp [Tells] at h
  callers := fun _ _ _ h => nomatch h
  runners := fun _ _ _ h => nomatch h
  entries := fun _ _ h => nomatch h

theorem Recorded.length_eq (h : s.Recorded book) : s.channels.length = book.length := by
  rw [h.channels, List.length_map]

theorem Recorded.channel_eq (h : s.Recorded book) {n : Nat} {r : Record K V E}
    (hrec : book[n]? = some r) : s.channel n = r.stage.channel := by
  rw [channel, h.channels, List.getD_eq_getElem?_getD, List.getElem?_map, hrec]
  rfl

/-- A caller that has a lease on a lookup in the book asks for its key, and is where the stage lets it
    be. -/
theorem Recorded.fits (h : s.Recorded book) {n : Nat} {key : K} {st : Stage K V E}
    (hrec : book[n]? = some ⟨key, st⟩) {p : Phase V E} (hc : s.callers.get? c = some p)
    (hlease : p.lease? = some n) : key = c.key ∧ st.Fits c p := by
  obtain ⟨st', hrec', hfits⟩ := h.callers c p n hc hlease
  obtain ⟨hkey, rfl⟩ := Record.mk.inj (Option.some.inj (hrec.symm.trans hrec'))
  exact ⟨hkey, hfits⟩

/-- The caller that runs a lookup asks for its key, and is where the stage lets it be. -/
theorem Recorded.exists_runner (h : s.Recorded book) {n : Nat} {r : Record K V E}
    (hrec : book[n]? = some r) (hrunner : r.stage.runner? = some c) :
    ∃ p, s.callers.get? c = some p ∧ p.lease? = some n ∧ p.isRunning = true ∧ r.key = c.key ∧
      r.stage.Fits c p := by
  obtain ⟨p, hp, hlease, hrunning⟩ := h.runners n r c hrec hrunner
  exact ⟨p, hp, hlease, hrunning, h.fits hrec hp hlease⟩

/-- Where a caller stands that runs no lookup, before and after, is no matter of the book. -/
theorem Recorded.move (h : s.Recorded book) (hchannels : t.channels = s.channels)
    (hlog : ∀ e : Event K V E, e.isRelease = false → (e ∈ t.log ↔ e ∈ s.log))
    (hcallers : t.callers = s.callers.set c p')
    (hidle : ∀ p, s.callers.get? c = some p → p.isRunning = false)
    (hfits : ∀ n, p'.lease? = some n → ∃ st, book[n]? = some ⟨c.key, st⟩ ∧ st.Fits c p')
    (hentries : ∀ key e', t.entries.get? key = some e' → ∃ e, s.entries.get? key = some e ∧
      e'.lookup = e.lookup ∧ e'.outcome = e.outcome) : t.Recorded book where
  channels := hchannels.trans h.channels
  log := fun e he => (hlog e he).trans (h.log e he)
  callers := fun c₁ p n hc hn => by
    rw [hcallers, Table.get?_set] at hc
    split at hc
    · rename_i hc₁
      obtain rfl := Option.some.inj hc
      exact hc₁ ▸ hfits n hn
    · exact h.callers c₁ p n hc hn
  runners := fun n r c₁ hrec hrunner => by
    obtain ⟨p, hp, hlease, hrunning⟩ := h.runners n r c₁ hrec hrunner
    have hne : c₁ ≠ c := by
      rintro rfl
      rw [hidle p hp] at hrunning
      cases hrunning
    refine ⟨p, ?_, hlease, hrunning⟩
    rw [hcallers, Table.get?_set, if_neg hne]
    exact hp
  entries := fun key e' he' => by
    obtain ⟨e, he, hlookup, houtcome⟩ := hentries key e' he'
    rw [hlookup, houtcome]
    exact h.entries key e he

/-- The caller that runs a lookup brings it to the next stage. -/
theorem Recorded.next (h : s.Recorded book) {p : Phase V E} {n : Nat} {st st' : Stage K V E}
    (hnext : st.Next c st') (hrec : book[n]? = some ⟨c.key, st⟩)
    (hc : s.callers.get? c = some p) (hp : p.lease? = some n) (hp' : p'.lease? = some n)
    (hchannels : t.channels = s.channels.set n st'.channel)
    (hlog : ∀ e : Event K V E, e ∈ t.log ↔ e ∈ s.log ∨ e ∈ st'.news n c.key)
    (hcallers : t.callers = s.callers.set c p') (hfits : st'.Fits c p')
    (hrunning : st'.runner? = some c → p'.isRunning = true)
    (hentries : ∀ key e', t.entries.get? key = some e' →
      (∃ e, s.entries.get? key = some e ∧ e'.lookup = e.lookup ∧ e'.outcome = e.outcome ∧
          (e.lookup = n → st'.held? = st.held?)) ∨
        key = c.key ∧ e'.lookup = n ∧ st'.held? = some e'.outcome) :
    t.Recorded (book.set n ⟨c.key, st'⟩) where
  channels := by
    rw [hchannels, h.channels, List.map_set]
  log := fun e he => by
    rw [hlog, tells_next hnext hrec, h.log e he]
  callers := fun c₁ p₁ m hc₁ hm => by
    rw [hcallers, Table.get?_set] at hc₁
    split at hc₁
    · rename_i heq
      obtain rfl := Option.some.inj hc₁
      obtain rfl := Option.some.inj (hp'.symm.trans hm)
      rw [heq]
      exact ⟨st', (getElem?_set_iff hrec).2 (.inl ⟨rfl, rfl⟩), hfits⟩
    · rename_i hne
      obtain ⟨st₁, hrec₁, hfits₁⟩ := h.callers c₁ p₁ m hc₁ hm
      by_cases hmn : m = n
      · -- Another caller has a lease on the same lookup; what the runner does leaves it in place.
        subst hmn
        obtain ⟨hkey, rfl⟩ := Record.mk.inj (Option.some.inj (hrec.symm.trans hrec₁))
        rw [← hkey]
        exact ⟨st', (getElem?_set_iff hrec).2 (.inl ⟨rfl, rfl⟩), hnext.fits hne hfits₁⟩
      · exact ⟨st₁, (getElem?_set_iff hrec).2 (.inr ⟨hmn, hrec₁⟩), hfits₁⟩
  runners := fun m r c₁ hrec₁ hrunner => by
    rcases (getElem?_set_iff hrec).1 hrec₁ with ⟨rfl, rfl⟩ | ⟨hmn, hrec₁⟩
    · rcases hnext.runner?_eq with hsame | hnone
      · obtain rfl := Option.some.inj (hsame.symm.trans hrunner)
        refine ⟨p', ?_, hp', hrunning hsame⟩
        rw [hcallers, Table.get?_set, if_pos rfl]
      · cases hnone.symm.trans hrunner
    · -- The caller that moves runs this lookup, so it runs no other one.
      obtain ⟨p₁, hp₁, hlease, hrunning₁⟩ := h.runners m r c₁ hrec₁ hrunner
      have hne : c₁ ≠ c := by
        rintro rfl
        obtain rfl := Option.some.inj (hc.symm.trans hp₁)
        exact hmn (Option.some.inj (hlease.symm.trans hp))
      refine ⟨p₁, ?_, hlease, hrunning₁⟩
      rw [hcallers, Table.get?_set, if_neg hne]
      exact hp₁
  entries := fun key e' he' => by
    rcases hentries key e' he' with ⟨e, he, hlookup, houtcome, hheld⟩ | ⟨rfl, rfl, hheld⟩
    · obtain ⟨st₁, hrec₁, hheld₁⟩ := h.entries key e he
      rw [hlookup, houtcome]
      by_cases hn : e.lookup = n
      · rw [hn] at hrec₁ ⊢
        obtain ⟨hkey, rfl⟩ := Record.mk.inj (Option.some.inj (hrec.symm.trans hrec₁))
        rw [← hkey, ← hheld₁, ← hheld hn]
        exact ⟨st', (getElem?_set_iff hrec).2 (.inl ⟨rfl, rfl⟩), rfl⟩
      · exact ⟨st₁, (getElem?_set_iff hrec).2 (.inr ⟨hn, hrec₁⟩), hheld₁⟩
    · exact ⟨st', (getElem?_set_iff hrec).2 (.inl ⟨rfl, rfl⟩), hheld⟩

/-- A lookup that starts is the last one in the book. -/
theorem Recorded.begin (h : s.Recorded book) (hc : s.callers.get? c = some .joining)
    (hentries : t.entries = s.entries.set c.key ⟨s.channels.length, 1, none⟩)
    (hchannels : t.channels = s.channels ++ [.silent])
    (hcallers : t.callers = s.callers.set c (.looking s.channels.length))
    (hlog : t.log = s.log ++ [.started s.channels.length c.key]) :
    t.Recorded (book ++ [⟨c.key, .flying c⟩]) where
  channels := by
    rw [hchannels, h.channels, List.map_append]
    rfl
  log := fun e he => by
    rw [hlog, List.mem_append, List.mem_singleton, tells_concat, h.log e he, h.length_eq]
  callers := fun c₁ p n hc₁ hn => by
    rw [hcallers, Table.get?_set] at hc₁
    split at hc₁
    · rename_i heq
      obtain rfl := Option.some.inj hc₁
      obtain rfl := Option.some.inj hn
      rw [heq]
      exact ⟨_, getElem?_concat_iff.2 (.inr ⟨h.length_eq, rfl⟩), rfl⟩
    · obtain ⟨st, hrec, hfits⟩ := h.callers c₁ p n hc₁ hn
      exact ⟨st, getElem?_concat_iff.2 (.inl hrec), hfits⟩
  runners := fun n r c₁ hrec hrunner => by
    rcases getElem?_concat_iff.1 hrec with hrec | ⟨rfl, rfl⟩
    · obtain ⟨p, hp, hlease, hrunning⟩ := h.runners n r c₁ hrec hrunner
      have hne : c₁ ≠ c := by
        rintro rfl
        obtain rfl := Option.some.inj (hc.symm.trans hp)
        cases hlease
      refine ⟨p, ?_, hlease, hrunning⟩
      rw [hcallers, Table.get?_set, if_neg hne]
      exact hp
    · obtain rfl := Option.some.inj hrunner
      refine ⟨.looking s.channels.length, ?_, congrArg some h.length_eq, rfl⟩
      rw [hcallers, Table.get?_set, if_pos rfl]
  entries := fun key e he => by
    rw [hentries, Table.get?_set] at he
    split at he
    · rename_i hkey
      obtain rfl := Option.some.inj he
      rw [hkey]
      exact ⟨_, getElem?_concat_iff.2 (.inr ⟨h.length_eq, rfl⟩), rfl⟩
    · obtain ⟨st, hrec, hheld⟩ := h.entries key e he
      exact ⟨st, getElem?_concat_iff.2 (.inl hrec), hheld⟩

/-- The channel of a stage that the channel shows already. -/
theorem Recorded.channels_eq_set (h : s.Recorded book) {n : Nat} {r : Record K V E}
    {st' : Stage K V E} (hrec : book[n]? = some r) (hsame : st'.channel = r.stage.channel) :
    s.channels = s.channels.set n st'.channel := by
  have hget : s.channels[n]? = some st'.channel := by
    rw [h.channels, List.getElem?_map, hrec, hsame]
    rfl
  obtain ⟨hlt, hn⟩ := List.getElem?_eq_some_iff.1 hget
  rw [← hn, List.set_getElem_self]

theorem mem_release_log {e : Event K V E} (he : e.isRelease = false) (key : K) (n : Nat) :
    e ∈ (s.release key n).log ↔ e ∈ s.log := by
  rw [release]
  split
  · split
    · split
      · change e ∈ s.log ++ [_] ↔ _
        rw [List.mem_append, List.mem_singleton, or_iff_left]
        rintro rfl
        cases he
      · rfl
    · rfl
  · rfl

/-- Of an entry that is live, the outcome is known or its lookup runs. -/
theorem Recorded.get?_eq_none (h : s.Recorded book) {key : K} (hnone : s.liveEntry? key = none) :
    s.entries.get? key = none := by
  unfold liveEntry? at hnone
  rw [Option.filter_eq_none_iff] at hnone
  cases he : s.entries.get? key with
  | none => rfl
  | some e =>
    obtain ⟨st, hrec, hheld⟩ := h.entries key e he
    refine absurd ?_ (hnone e he)
    rw [h.channel_eq hrec]
    -- The channel is closed only after the entry is removed.
    cases st with
    | removed _ | closed => nomatch hheld
    | flying _ | done _ _ | givenUp _ =>
      rw [← Option.some.inj hheld]
      rfl
    | stored _ _ | published _ => rw [← Option.some.inj hheld]

/-- Who joins an entry is where the stage of the lookup lets it be. -/
theorem Recorded.fits_joined (h : s.Recorded book) {e : Entry V E}
    (he : s.entries.get? c.key = some e) :
    ∃ st, book[e.lookup]? = some ⟨c.key, st⟩ ∧ st.Fits c e.joined := by
  obtain ⟨st, hrec, hheld⟩ := h.entries c.key e he
  refine ⟨st, hrec, ?_⟩
  rw [Entry.joined]
  split
  · rename_i o ho
    rw [ho] at hheld
    exact Stage.outcome?_of_held? hheld
  · trivial

/-- So is who takes a turn. -/
theorem Recorded.fits_turn (h : s.Recorded book) {p : Phase V E} {m : Move K V E} {n : Nat}
    (hc : s.callers.get? c = some p) (hturn : s.Turn c n p m p') :
    ∃ st, book[n]? = some ⟨c.key, st⟩ ∧ st.Fits c p' := by
  obtain ⟨st, hrec, hfits⟩ := h.callers c p n hc hturn.lease?_eq.1
  refine ⟨st, hrec, ?_⟩
  cases hturn with
  | wake o hchannel =>
    rw [h.channel_eq hrec] at hchannel
    cases st with
    | published o' => exact congrArg some (Channel.published.inj hchannel)
    | _ => nomatch hchannel
  | gone hchannel =>
    rw [h.channel_eq hrec] at hchannel
    cases st with
    | closed => rfl
    | _ => nomatch hchannel
  | hold v => exact hfits
  | cancel => exact .inr rfl

/-- An entry whose lookup is in the book is under the key that the book has. -/
theorem Recorded.entry_eq (h : s.Recorded book) {key k : K} {e : Entry V E} {st : Stage K V E}
    (hrec : book[e.lookup]? = some ⟨key, st⟩) (he : s.entries.get? k = some e) :
    k = key ∧ st.held? = some e.outcome := by
  obtain ⟨st', hrec', hheld⟩ := h.entries k e he
  obtain ⟨hkey, rfl⟩ := Record.mk.inj (Option.some.inj (hrec.symm.trans hrec'))
  exact ⟨hkey.symm, hheld⟩

/-- A caller that runs no lookup retains an entry and goes on. -/
theorem Recorded.retain (h : s.Recorded book) {n : Nat}
    (hidle : ∀ p, s.callers.get? c = some p → p.isRunning = false)
    (hfits : ∀ m, p'.lease? = some m → ∃ st, book[m]? = some ⟨c.key, st⟩ ∧ st.Fits c p') :
    ((s.retain c.key n).place c p').Recorded book := by
  refine h.move (retain_channels ..) (fun e _ => ?_) (place_callers_of (retain_callers ..) ..)
    hidle hfits fun _ _ => exists_of_get?_retain
  rw [place_log, retain_log]

/-- A caller that runs no lookup gives up its lease. -/
theorem Recorded.part (h : s.Recorded book) {n : Nat} {p : Phase V E} {m : Move K V E}
    (hc : s.callers.get? c = some p) (hpart : Parting c n p m p') :
    ((s.release c.key n).place c p').Recorded book := by
  refine h.move (release_channels ..) (fun e he => mem_release_log he c.key n)
    (place_callers_of (release_callers ..) ..) (fun p hp => ?_) (fun n hn => ?_)
    fun _ _ => exists_of_get?_release
  · rw [← Option.some.inj (hc.symm.trans hp)]
    cases hpart <;> rfl
  · nomatch hpart.lease?_eq.2.symm.trans hn

/-- The runner of a lookup stores its outcome. -/
theorem Recorded.store (h : s.Recorded book) {n : Nat} {o : Except E V}
    (hc : s.callers.get? c = some (.storing n o)) :
    ∃ book', ((s.store c.key n o).place c (.publishing n o)).Recorded book' := by
  obtain ⟨_, hrec, rfl⟩ := h.callers c _ n hc rfl
  refine ⟨_, h.next (.store c o) hrec hc rfl rfl ?_ (fun e => ?_)
    (place_callers_of (store_callers ..) ..) rfl (fun _ => rfl) fun key e' he' => ?_⟩
  · exact (store_channels ..).trans (h.channels_eq_set hrec rfl)
  · rw [place_log, store_log]
    exact (or_iff_left List.not_mem_nil).symm
  · obtain ⟨e, he, ⟨rfl, rfl, hf⟩ | ⟨hne, rfl⟩⟩ := (amends_store s c.key n o).exists_of_get? he'
    · obtain rfl := Option.some.inj hf
      exact .inr ⟨rfl, rfl, rfl⟩
    · exact .inl ⟨e', he, rfl, rfl, fun hn => absurd ⟨(h.entry_eq (hn ▸ hrec) he).1, hn⟩ hne⟩

/-- Who has given up a lookup removes its entry. -/
theorem Recorded.abandon (h : s.Recorded book) {n : Nat} {ending : Ending E}
    (hc : s.callers.get? c = some (.abandoning n ending)) :
    ∃ book', ((s.abandon c.key n).place c (.closing n ending)).Recorded book' := by
  obtain ⟨_, hrec, rfl⟩ := h.callers c _ n hc rfl
  refine ⟨_, h.next (.remove c) hrec hc rfl rfl ?_ (fun e => ?_)
    (place_callers_of (abandon_callers ..) ..) rfl (fun _ => rfl) fun key e' he' => ?_⟩
  · exact (abandon_channels ..).trans (h.channels_eq_set hrec rfl)
  · rw [place_log, abandon_log]
    exact (or_iff_left List.not_mem_nil).symm
  · obtain ⟨e, he, ⟨rfl, rfl, hf⟩ | ⟨hne, rfl⟩⟩ := (amends_abandon s c.key n).exists_of_get? he'
    · -- The entry of the lookup holds no outcome yet, so it has been removed.
      rw [← Option.some.inj (h.entry_eq hrec he).2] at hf
      nomatch hf
    · exact .inl ⟨e', he, rfl, rfl, fun hn => absurd ⟨(h.entry_eq (hn ▸ hrec) he).1, hn⟩ hne⟩

/-- Every step can be entered in the book. -/
theorem Recorded.step (h : s.Recorded book) {m : Move K V E} (hstep : s.Step m t) :
    ∃ book', t.Recorded book' := by
  have hsame : ∀ key e', s.entries.get? key = some e' → ∃ e, s.entries.get? key = some e ∧
      e'.lookup = e.lookup ∧ e'.outcome = e.outcome := fun _ e' he' => ⟨e', he', rfl, rfl⟩
  -- Of a stage that holds the same, the entries need not be looked at.
  have hkeep : ∀ {n : Nat} {st st' : Stage K V E} {key₀ : K}, st'.held? = st.held? →
      ∀ key e', s.entries.get? key = some e' →
      (∃ e, s.entries.get? key = some e ∧ e'.lookup = e.lookup ∧ e'.outcome = e.outcome ∧
          (e.lookup = n → st'.held? = st.held?)) ∨
        key = key₀ ∧ e'.lookup = n ∧ st'.held? = some e'.outcome :=
    fun hheld _ e' he' => .inl ⟨e', he', rfl, rfl, fun _ => hheld⟩
  cases hstep with
  | call hc =>
    refine ⟨book, h.move rfl (fun _ _ => .rfl) rfl (fun p hp => ?_) (fun n hn => ?_) hsame⟩
    · nomatch hc.symm.trans hp
    · nomatch hn
  | withdraw hc =>
    refine ⟨book, h.move rfl (fun _ _ => .rfl) rfl (fun p hp => ?_) (fun n hn => ?_) hsame⟩
    · rw [← Option.some.inj (hc.symm.trans hp)]
      rfl
    · nomatch hn
  | @join c e hc hlive =>
    refine ⟨book, h.retain (fun p hp => ?_) fun n hn => ?_⟩
    · rw [← Option.some.inj (hc.symm.trans hp)]
      rfl
    · obtain rfl := Option.some.inj ((Entry.lease?_joined e).symm.trans hn)
      exact h.fits_joined (get?_of_live hlive)
  | begin hc hnone => exact ⟨_, h.begin hc rfl rfl rfl rfl⟩
  | @finish c n o hc =>
    obtain ⟨_, hrec, rfl⟩ := h.callers c _ n hc rfl
    refine ⟨_, h.next (.finish c o) hrec hc rfl rfl (h.channels_eq_set hrec rfl) (fun e => ?_) rfl
      rfl (fun _ => rfl) (hkeep rfl)⟩
    exact List.mem_append
  | @giveUp c n m ending hm hc =>
    obtain ⟨_, hrec, rfl⟩ := h.callers c _ n hc rfl
    refine ⟨_, h.next (.giveUp c) hrec hc rfl rfl (h.channels_eq_set hrec rfl) (fun e => ?_) rfl
      rfl (fun _ => rfl) (hkeep rfl)⟩
    exact List.mem_append
  | store hc => exact h.store hc
  | @publish c n o hc =>
    obtain ⟨_, hrec, rfl⟩ := h.callers c _ n hc rfl
    exact ⟨_, h.next (.publish c o) hrec hc rfl rfl rfl
      (fun e => (or_iff_left List.not_mem_nil).symm) rfl rfl (fun h => nomatch h) (hkeep rfl)⟩
  | abandon hc => exact h.abandon hc
  | @close c n ending hc =>
    obtain ⟨_, hrec, rfl⟩ := h.callers c _ n hc rfl
    exact ⟨_, h.next (.close c) hrec hc rfl rfl rfl
      (fun e => (or_iff_left List.not_mem_nil).symm) rfl (.inl rfl) (fun h => nomatch h)
      (hkeep rfl)⟩
  | turn hc hturn =>
    refine ⟨book, h.move rfl (fun _ _ => .rfl) rfl (fun p hp => ?_) (fun n hn => ?_) hsame⟩
    · rw [← Option.some.inj (hc.symm.trans hp)]
      cases hturn <;> rfl
    · obtain rfl := Option.some.inj (hturn.lease?_eq.2.symm.trans hn)
      exact h.fits_turn hc hturn
  | part hc hpart => exact ⟨book, h.part hc hpart⟩
  | @clone c number n v hc hfree =>
    refine ⟨book, h.retain (c := ⟨c.key, number⟩) (fun p hp => ?_) fun m hm => ?_⟩
    · nomatch hfree.symm.trans hp
    · -- The clone is where the caller is from whom it has its lease.
      obtain rfl := Option.some.inj hm
      exact h.callers c _ n hc rfl

/-- The book has one outcome of a lookup that is done, which was not given up. -/
theorem Recorded.exists_of_finished (h : s.Recorded book) {key : K} {n : Nat} {o : Except E V}
    (hfinished : .finished n key o ∈ s.log) :
    ∃ st, book[n]? = some ⟨key, st⟩ ∧ st.outcome? = some o ∧ .abandoned n key ∉ s.log := by
  obtain ⟨st, hrec, ho⟩ := (h.log _ rfl).1 hfinished
  refine ⟨st, hrec, ho, fun hgivenUp => ?_⟩
  obtain ⟨-, hst⟩ := (tells_abandoned_iff hrec).1 ((h.log _ rfl).1 hgivenUp)
  cases st with
  | done | stored | published => nomatch hst
  | flying | givenUp | removed | closed => nomatch ho

/-- The runner of a lookup that is done is about to store its outcome. -/
theorem Recorded.storing_of_done (h : s.Recorded book) {n : Nat} {key : K} {o : Except E V}
    (hrec : book[n]? = some ⟨key, .done c o⟩) : s.callers.get? c = some (.storing n o) := by
  obtain ⟨p, hp, hlease, hrunning, -, hfits⟩ := h.exists_runner hrec rfl
  cases p with
  | storing m o' =>
    obtain rfl := Option.some.inj hlease
    obtain ⟨-, rfl⟩ := Stage.done.inj hfits
    exact hp
  | looking | publishing | abandoning | closing => nomatch hfits
  | _ => nomatch hrunning

/-- The runner of a lookup whose outcome is stored is about to publish it. -/
theorem Recorded.publishing_of_stored (h : s.Recorded book) {n : Nat} {key : K} {o : Except E V}
    (hrec : book[n]? = some ⟨key, .stored c o⟩) : s.callers.get? c = some (.publishing n o) := by
  obtain ⟨p, hp, hlease, hrunning, -, hfits⟩ := h.exists_runner hrec rfl
  cases p with
  | publishing m o' =>
    obtain rfl := Option.some.inj hlease
    obtain ⟨-, rfl⟩ := Stage.stored.inj hfits
    exact hp
  | looking | storing | abandoning | closing => nomatch hfits
  | _ => nomatch hrunning

/-- There is a book for every state that can be reached. -/
theorem Reachable.recorded (reached : s.Reachable) : ∃ book, s.Recorded book := by
  induction reached with
  | start => exact ⟨[], recorded_start⟩
  | move m _ possible ih =>
    obtain ⟨book, h⟩ := ih
    exact h.step (step_of_perform? possible)

end

end SingleFlight

end FrameRpc
