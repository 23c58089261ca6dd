import FrameRpc.SingleFlight.Basic

/-!
# Steps of single-flight lookups

What a move can do to a table of lookups, case by case (`Step`): who moves, from which phase to
which, and what becomes of the entries, the channels and the log. Every move that is possible is
one of these steps (`step_of_perform?`), so that an invariant is checked once for each of them.

Two kinds of steps change nothing but the phase of the caller, or its phase and the count of its
entry: a caller that takes a `Turn` keeps its lease, and one that takes a `Parting` gives it up.
-/

namespace FrameRpc

namespace SingleFlight

variable {K V E : Type}

/-- The phase of a caller that joins an entry. -/
def Entry.joined (e : Entry V E) : Phase V E :=
  match e.outcome with
  | some o => .resolving e.lookup o
  | none => .waiting e.lookup

theorem Entry.lease?_joined (e : Entry V E) : e.joined.lease? = some e.lookup := by
  rw [joined]
  split <;> rfl

/-- How a caller gives up its lease on a lookup. -/
inductive Parting (c : Caller K) (n : Nat) : Phase V E → Move K V E → Phase V E → Prop where
  | fail (e : E) : Parting c n (.resolving n (.error e)) (.step c) (.ended (.failed e))
  | retry : Parting c n (.retrying n) (.step c) .joining
  | leave (ending : Ending E) : Parting c n (.leaving n ending) (.step c) (.ended ending)
  | drop (v : V) : Parting c n (.holding n v) (.drop c) (.ended .dropped)

theorem Parting.lease?_eq {c : Caller K} {n : Nat} {p p' : Phase V E} {m : Move K V E}
    (h : Parting c n p m p') : p.lease? = some n ∧ p'.lease? = none := by
  cases h <;> exact ⟨rfl, rfl⟩

theorem Parting.caller_eq {c : Caller K} {n : Nat} {p p' : Phase V E} {m : Move K V E}
    (h : Parting c n p m p') : m.caller = c := by
  cases h <;> rfl

/-- How a caller that runs no lookup goes on and keeps its lease. -/
inductive Turn (s : SingleFlight K V E) (c : Caller K) (n : Nat) :
    Phase V E → Move K V E → Phase V E → Prop where
  | wake (o : Except E V) (h : s.channel n = .published o) :
    Turn s c n (.waiting n) (.step c) (.resolving n o)
  | gone (h : s.channel n = .closed) : Turn s c n (.waiting n) (.step c) (.retrying n)
  | hold (v : V) : Turn s c n (.resolving n (.ok v)) (.step c) (.holding n v)
  | cancel : Turn s c n (.waiting n) (.cancel c) (.leaving n .cancelled)

theorem Turn.lease?_eq {s : SingleFlight K V E} {c : Caller K} {n : Nat} {p p' : Phase V E}
    {m : Move K V E} (h : Turn s c n p m p') : p.lease? = some n ∧ p'.lease? = some n := by
  cases h <;> exact ⟨rfl, rfl⟩

variable [DecidableEq K]

/-- What a move can do. -/
inductive Step (s : SingleFlight K V E) : Move K V E → SingleFlight K V E → Prop where
  | call {c : Caller K} (h : s.callers.get? c = none) : Step s (.call c) (s.place c .joining)
  | withdraw {c : Caller K} (h : s.callers.get? c = some .joining) :
    Step s (.cancel c) (s.place c (.ended .cancelled))
  | join {c : Caller K} {e : Entry V E} (h : s.callers.get? c = some .joining)
    (hlive : s.liveEntry? c.key = some e) :
    Step s (.step c) ((s.retain c.key e.lookup).place c e.joined)
  | begin {c : Caller K} (h : s.callers.get? c = some .joining)
    (hnone : s.liveEntry? c.key = none) :
    Step s (.step c)
      { entries := s.entries.set c.key ⟨s.channels.length, 1, none⟩
        channels := s.channels ++ [.silent]
        callers := s.callers.set c (.looking s.channels.length)
        log := s.log ++ [.started s.channels.length c.key] }
  | finish {c : Caller K} {n : Nat} (o : Except E V) (h : s.callers.get? c = some (.looking n)) :
    Step s (.finish c o) ((s.tell (.finished n c.key o)).place c (.storing n o))
  | giveUp {c : Caller K} {n : Nat} {m : Move K V E} (ending : Ending E) (hm : m.caller = c)
    (h : s.callers.get? c = some (.looking n)) :
    Step s m ((s.tell (.abandoned n c.key)).place c (.abandoning n ending))
  | store {c : Caller K} {n : Nat} {o : Except E V} (h : s.callers.get? c = some (.storing n o)) :
    Step s (.step c) ((s.store c.key n o).place c (.publishing n o))
  | publish {c : Caller K} {n : Nat} {o : Except E V}
    (h : s.callers.get? c = some (.publishing n o)) :
    Step s (.step c)
      ({ s with channels := s.channels.set n (.published o) }.place c (.resolving n o))
  | abandon {c : Caller K} {n : Nat} {ending : Ending E}
    (h : s.callers.get? c = some (.abandoning n ending)) :
    Step s (.step c) ((s.abandon c.key n).place c (.closing n ending))
  | close {c : Caller K} {n : Nat} {ending : Ending E}
    (h : s.callers.get? c = some (.closing n ending)) :
    Step s (.step c) ({ s with channels := s.channels.set n .closed }.place c (.leaving n ending))
  | turn {c : Caller K} {n : Nat} {p p' : Phase V E} {m : Move K V E}
    (h : s.callers.get? c = some p) (hturn : Turn s c n p m p') : Step s m (s.place c p')
  | part {c : Caller K} {n : Nat} {p p' : Phase V E} {m : Move K V E}
    (h : s.callers.get? c = some p) (hpart : Parting c n p m p') :
    Step s m ((s.release c.key n).place c p')
  | clone {c : Caller K} {number n : Nat} {v : V} (h : s.callers.get? c = some (.holding n v))
    (hfree : s.callers.get? ⟨c.key, number⟩ = none) :
    Step s (.clone c number) ((s.retain c.key n).place ⟨c.key, number⟩ (.holding n v))

variable {s t : SingleFlight K V E}

/-! ## What the operations do -/

theorem entryOf?_eq_some_iff {key : K} {n : Nat} {e : Entry V E} :
    s.entryOf? key n = some e ↔ s.entries.get? key = some e ∧ e.lookup = n := by
  rw [entryOf?, Option.filter_eq_some_iff, decide_eq_true_eq]

theorem entryOf?_eq_none_iff {key : K} {n : Nat} :
    s.entryOf? key n = none ↔ ∀ e, s.entries.get? key = some e → e.lookup ≠ n := by
  rw [entryOf?, Option.filter_eq_none_iff]
  simp

theorem get?_of_live {key : K} {e : Entry V E} (h : s.liveEntry? key = some e) :
    s.entries.get? key = some e := (Option.filter_eq_some_iff.1 h).1

theorem place_callers (s : SingleFlight K V E) (c : Caller K) (p : Phase V E) :
    (s.place c p).callers = s.callers.set c p := rfl

/-- Placing a caller after an operation that leaves the callers alone. -/
theorem place_callers_of {u : SingleFlight K V E} (h : u.callers = s.callers) (c : Caller K)
    (p : Phase V E) : (u.place c p).callers = s.callers.set c p := by
  rw [place_callers, h]

theorem place_channels (s : SingleFlight K V E) (c : Caller K) (p : Phase V E) :
    (s.place c p).channels = s.channels := rfl

theorem place_log (s : SingleFlight K V E) (c : Caller K) (p : Phase V E) :
    (s.place c p).log = s.log := rfl

theorem place_entries (s : SingleFlight K V E) (c : Caller K) (p : Phase V E) :
    (s.place c p).entries = s.entries := rfl

/-- From `s` to `t` the entry of a lookup becomes what `f` makes of it, or is removed, and all
    others stay. -/
def Amends (s t : SingleFlight K V E) (key : K) (n : Nat) (f : Entry V E → Option (Entry V E)) :
    Prop :=
  ∀ k, t.entries.get? k = (s.entries.get? k).bind fun e =>
    if k = key ∧ e.lookup = n then f e else some e

theorem amends_of {key : K} {n : Nat} {f : Entry V E → Option (Entry V E)}
    (hnone : s.entryOf? key n = none → t = s)
    (hsome : ∀ e, s.entryOf? key n = some e →
      ∀ k, t.entries.get? k = if k = key then f e else s.entries.get? k) : s.Amends t key n f := by
  intro k
  cases h : s.entryOf? key n with
  | none =>
    rw [hnone h]
    cases hk : s.entries.get? k with
    | none => rfl
    | some e =>
      rw [Option.bind_some, if_neg]
      rintro ⟨rfl, hn⟩
      exact entryOf?_eq_none_iff.1 h e hk hn
  | some e =>
    -- The entry of the lookup is under `key` and nowhere else.
    obtain ⟨hkey, hn⟩ := entryOf?_eq_some_iff.1 h
    rw [hsome e h k]
    by_cases hk : k = key
    · subst hk
      rw [if_pos rfl, hkey, Option.bind_some, if_pos ⟨rfl, hn⟩]
    · rw [if_neg hk]
      cases s.entries.get? k with
      | none => rfl
      | some e' => rw [Option.bind_some, if_neg fun h => hk h.1]

/-- Every entry comes from one before. -/
theorem Amends.exists_of_get? {key : K} {n : Nat} {f : Entry V E → Option (Entry V E)}
    (h : s.Amends t key n f) {k : K} {e' : Entry V E} (ht : t.entries.get? k = some e') :
    ∃ e, s.entries.get? k = some e ∧ (k = key ∧ e.lookup = n ∧ f e = some e' ∨
      ¬ (k = key ∧ e.lookup = n) ∧ e' = e) := by
  rw [h k] at ht
  obtain ⟨e, he, hf⟩ := Option.bind_eq_some_iff.1 ht
  refine ⟨e, he, ?_⟩
  split at hf
  · rename_i hkn
    exact .inl ⟨hkn.1, hkn.2, hf⟩
  · rename_i hkn
    exact .inr ⟨hkn, (Option.some.inj hf).symm⟩

/-- Every entry is related to the one that it comes from, if those that are changed are. -/
theorem Amends.exists_related {key : K} {n : Nat} {f : Entry V E → Option (Entry V E)}
    (h : s.Amends t key n f) (R : Entry V E → Entry V E → Prop) (refl : ∀ e, R e e)
    (hf : ∀ e e', f e = some e' → R e e') {k : K} {e' : Entry V E}
    (ht : t.entries.get? k = some e') : ∃ e, s.entries.get? k = some e ∧ R e e' := by
  obtain ⟨e, he, ⟨-, -, hfe⟩ | ⟨-, rfl⟩⟩ := h.exists_of_get? ht
  · exact ⟨e, he, hf e e' hfe⟩
  · exact ⟨e', he, refl e'⟩

/-- Other keys keep their entries. -/
theorem Amends.get?_eq_of_ne {key k : K} {n : Nat} {f : Entry V E → Option (Entry V E)}
    (h : s.Amends t k n f) (hne : key ≠ k) : t.entries.get? key = s.entries.get? key := by
  rw [h key]
  cases s.entries.get? key with
  | none => rfl
  | some e => rw [Option.bind_some, if_neg fun hkn => hne hkn.1]

@[simp]
theorem retain_callers (key : K) (n : Nat) : (s.retain key n).callers = s.callers := by
  rw [retain]
  split <;> rfl

@[simp]
theorem retain_channels (key : K) (n : Nat) : (s.retain key n).channels = s.channels := by
  rw [retain]
  split <;> rfl

@[simp]
theorem retain_log (key : K) (n : Nat) : (s.retain key n).log = s.log := by
  rw [retain]
  split <;> rfl

theorem retain_of_none {key : K} {n : Nat} (h : s.entryOf? key n = none) : s.retain key n = s := by
  rw [retain, h]

theorem amends_retain (s : SingleFlight K V E) (key : K) (n : Nat) :
    s.Amends (s.retain key n) key n fun e => some { e with owners := e.owners + 1 } := by
  refine amends_of retain_of_none fun e h k => ?_
  rw [retain, h]
  exact Table.get?_set ..

theorem exists_of_get?_retain {key k : K} {n : Nat} {e' : Entry V E}
    (he' : (s.retain k n).entries.get? key = some e') :
    ∃ e, s.entries.get? key = some e ∧ e'.lookup = e.lookup ∧ e'.outcome = e.outcome := by
  refine (amends_retain s k n).exists_related
    (fun e e' => e'.lookup = e.lookup ∧ e'.outcome = e.outcome) (fun _ => ⟨rfl, rfl⟩)
    (fun e e' hf => ?_) he'
  obtain rfl := Option.some.inj hf
  exact ⟨rfl, rfl⟩

@[simp]
theorem store_callers (key : K) (n : Nat) (o : Except E V) :
    (s.store key n o).callers = s.callers := by
  rw [store]
  split <;> rfl

@[simp]
theorem store_channels (key : K) (n : Nat) (o : Except E V) :
    (s.store key n o).channels = s.channels := by
  rw [store]
  split <;> rfl

@[simp]
theorem store_log (key : K) (n : Nat) (o : Except E V) : (s.store key n o).log = s.log := by
  rw [store]
  split <;> rfl

theorem store_of_none {key : K} {n : Nat} (o : Except E V) (h : s.entryOf? key n = none) :
    s.store key n o = s := by
  rw [store, h]

theorem amends_store (s : SingleFlight K V E) (key : K) (n : Nat) (o : Except E V) :
    s.Amends (s.store key n o) key n fun e => some { e with outcome := some o } := by
  refine amends_of (store_of_none o) fun e h k => ?_
  rw [store, h]
  exact Table.get?_set ..

@[simp]
theorem abandon_callers (key : K) (n : Nat) : (s.abandon key n).callers = s.callers := by
  rw [abandon]
  split
  · split <;> rfl
  · rfl

@[simp]
theorem abandon_channels (key : K) (n : Nat) : (s.abandon key n).channels = s.channels := by
  rw [abandon]
  split
  · split <;> rfl
  · rfl

@[simp]
theorem abandon_log (key : K) (n : Nat) : (s.abandon key n).log = s.log := by
  rw [abandon]
  split
  · split <;> rfl
  · rfl

theorem abandon_of_none {key : K} {n : Nat} (h : s.entryOf? key n = none) :
    s.abandon key n = s := by
  rw [abandon, h]

theorem amends_abandon (s : SingleFlight K V E) (key : K) (n : Nat) :
    s.Amends (s.abandon key n) key n fun e => if e.outcome.isNone then none else some e := by
  refine amends_of abandon_of_none fun e h k => ?_
  simp only [abandon, h]
  split
  · exact Table.get?_erase ..
  · -- The entry stays as it is.
    split
    · rename_i hk
      rw [hk]
      exact (entryOf?_eq_some_iff.1 h).1
    · rfl

theorem exists_of_get?_abandon {key k : K} {n : Nat} {e' : Entry V E}
    (he' : (s.abandon k n).entries.get? key = some e') :
    ∃ e, s.entries.get? key = some e ∧ e'.lookup = e.lookup ∧ e'.outcome = e.outcome := by
  refine (amends_abandon s k n).exists_related
    (fun e e' => e'.lookup = e.lookup ∧ e'.outcome = e.outcome) (fun _ => ⟨rfl, rfl⟩)
    (fun e e' hf => ?_) he'
  split at hf
  · nomatch hf
  · obtain rfl := Option.some.inj hf
    exact ⟨rfl, rfl⟩

@[simp]
theorem release_callers (key : K) (n : Nat) : (s.release key n).callers = s.callers := by
  rw [release]
  split
  · split
    · split <;> rfl
    · rfl
  · rfl

@[simp]
theorem release_channels (key : K) (n : Nat) : (s.release key n).channels = s.channels := by
  rw [release]
  split
  · split
    · split <;> rfl
    · rfl
  · rfl

theorem release_log_mono (key : K) (n : Nat) {e : Event K V E} (he : e ∈ s.log) :
    e ∈ (s.release key n).log := by
  rw [release]
  split
  · split
    · split
      · exact List.mem_append_left _ he
      · exact he
    · exact he
  · exact he

theorem release_of_none {key : K} {n : Nat} (h : s.entryOf? key n = none) :
    s.release key n = s := by
  rw [release, h]

theorem amends_release (s : SingleFlight K V E) (key : K) (n : Nat) :
    s.Amends (s.release key n) key n fun e =>
      if e.owners ≤ 1 then none else some { e with owners := e.owners - 1 } := by
  refine amends_of release_of_none fun e h k => ?_
  simp only [release, h]
  split
  · split <;> exact Table.get?_erase ..
  · exact Table.get?_set ..

theorem exists_of_get?_release {key k : K} {n : Nat} {e' : Entry V E}
    (he' : (s.release k n).entries.get? key = some e') :
    ∃ e, s.entries.get? key = some e ∧ e'.lookup = e.lookup ∧ e'.outcome = e.outcome := by
  refine (amends_release s k n).exists_related
    (fun e e' => e'.lookup = e.lookup ∧ e'.outcome = e.outcome) (fun _ => ⟨rfl, rfl⟩)
    (fun e e' hf => ?_) he'
  split at hf
  · nomatch hf
  · obtain rfl := Option.some.inj hf
    exact ⟨rfl, rfl⟩

/-! ## Every move is a step -/

/-- Joining an entry is retaining it. -/
theorem join_of_live {c : Caller K} {e : Entry V E} (hlive : s.liveEntry? c.key = some e) :
    s.join c = (s.retain c.key e.lookup).place c e.joined := by
  -- A live entry is that of its own lookup, so retaining that lookup is adding an owner to it.
  rw [join, hlive, retain, entryOf?_eq_some_iff.2 ⟨get?_of_live hlive, rfl⟩]
  obtain ⟨n, owners, outcome⟩ := e
  cases outcome <;> rfl

/-- Without a live entry a lookup starts. -/
theorem join_of_none {c : Caller K} (hnone : s.liveEntry? c.key = none) :
    s.join c =
      { entries := s.entries.set c.key ⟨s.channels.length, 1, none⟩
        channels := s.channels ++ [.silent]
        callers := s.callers.set c (.looking s.channels.length)
        log := s.log ++ [.started s.channels.length c.key] } := by
  rw [join, hnone]

theorem step_join {c : Caller K} (h : s.callers.get? c = some .joining) :
    s.Step (.step c) (s.join c) := by
  cases hlive : s.liveEntry? c.key with
  | none => exact join_of_none hlive ▸ .begin h hlive
  | some e => exact join_of_live hlive ▸ .join h hlive

theorem step_of_step? {c : Caller K} {p : Phase V E} (h : s.callers.get? c = some p)
    (hstep : s.step? c p = some t) : s.Step (.step c) t := by
  cases p with
  | joining => exact Option.some.inj hstep ▸ step_join h
  | storing n o => exact Option.some.inj hstep ▸ .store h
  | publishing n o => exact Option.some.inj hstep ▸ .publish h
  | waiting n =>
    rw [step?] at hstep
    cases hchannel : s.channel n with
    | silent =>
      rw [hchannel] at hstep
      nomatch hstep
    | published o =>
      rw [hchannel] at hstep
      exact Option.some.inj hstep ▸ .turn h (.wake o hchannel)
    | closed =>
      rw [hchannel] at hstep
      exact Option.some.inj hstep ▸ .turn h (.gone hchannel)
  | resolving n o =>
    cases o with
    | ok v => exact Option.some.inj hstep ▸ .turn h (.hold v)
    | error e => exact Option.some.inj hstep ▸ .part h (.fail e)
  | retrying n => exact Option.some.inj hstep ▸ .part h .retry
  | abandoning n ending => exact Option.some.inj hstep ▸ .abandon h
  | closing n ending => exact Option.some.inj hstep ▸ .close h
  | leaving n ending => exact Option.some.inj hstep ▸ .part h (.leave ending)
  | looking _ | holding _ _ | ended _ => nomatch hstep

theorem step_of_perform? {m : Move K V E} (h : s.perform? m = some t) : s.Step m t := by
  cases m with
  | call c =>
    rw [perform?] at h
    split at h
    · rename_i hc
      exact Option.some.inj h ▸ .call hc
    · nomatch h
  | step c =>
    obtain ⟨p, hp, hstep⟩ := Option.bind_eq_some_iff.1 h
    exact step_of_step? hp hstep
  | finish c o =>
    rw [perform?] at h
    split at h
    · rename_i n hc
      exact Option.some.inj h ▸ .finish o hc
    · nomatch h
  | panic c =>
    rw [perform?] at h
    split at h
    · rename_i n hc
      exact Option.some.inj h ▸ .giveUp .panicked rfl hc
    · nomatch h
  | cancel c =>
    rw [perform?] at h
    split at h
    · rename_i hc
      exact Option.some.inj h ▸ .withdraw hc
    · rename_i n hc
      exact Option.some.inj h ▸ .turn hc .cancel
    · rename_i n hc
      exact Option.some.inj h ▸ .giveUp .cancelled rfl hc
    · nomatch h
  | clone c number =>
    rw [perform?] at h
    split at h
    · rename_i n v hc hfree
      exact Option.some.inj h ▸ .clone hc hfree
    · nomatch h
  | drop c =>
    rw [perform?] at h
    split at h
    · rename_i n v hc
      exact Option.some.inj h ▸ .part hc (.drop v)
    · nomatch h

theorem Step.log_mono {m : Move K V E} (h : s.Step m t) {e : Event K V E} (he : e ∈ s.log) :
    e ∈ t.log := by
  cases h with
  | call | withdraw | publish | close | turn => exact he
  | begin | finish | giveUp => exact List.mem_append_left _ he
  | join | clone => rwa [place_log, retain_log]
  | store => rwa [place_log, store_log]
  | abandon => rwa [place_log, abandon_log]
  | part => exact release_log_mono _ _ he

/-- A move places one caller, of the key of the one that it is about. -/
theorem Step.callers_eq {m : Move K V E} (h : s.Step m t) :
    ∃ c p, c.key = m.caller.key ∧ t.callers = s.callers.set c p := by
  cases h with
  | call | withdraw | begin | finish | publish | close => exact ⟨_, _, rfl, rfl⟩
  | giveUp _ hm => exact ⟨_, _, hm ▸ rfl, rfl⟩
  | join => exact ⟨_, _, rfl, place_callers_of (retain_callers ..) ..⟩
  | store => exact ⟨_, _, rfl, place_callers_of (store_callers ..) ..⟩
  | abandon => exact ⟨_, _, rfl, place_callers_of (abandon_callers ..) ..⟩
  | turn _ hturn =>
    refine ⟨_, _, ?_, rfl⟩
    cases hturn <;> rfl
  | part _ hpart => exact ⟨_, _, hpart.caller_eq ▸ rfl, place_callers_of (release_callers ..) ..⟩
  | @clone c number => exact ⟨⟨c.key, number⟩, _, rfl, place_callers_of (retain_callers ..) ..⟩

/-- A move leaves the entries of other keys alone. -/
theorem Step.get?_eq_of_ne {m : Move K V E} {key : K} (h : s.Step m t) (hne : key ≠ m.caller.key) :
    t.entries.get? key = s.entries.get? key := by
  cases h with
  | call | withdraw | finish | giveUp | publish | close | turn => rfl
  | join => exact (amends_retain s _ _).get?_eq_of_ne hne
  | begin => exact (Table.get?_set ..).trans (if_neg hne)
  | store => exact (amends_store s _ _ _).get?_eq_of_ne hne
  | abandon => exact (amends_abandon s _ _).get?_eq_of_ne hne
  | part _ hpart => exact (amends_release s _ _).get?_eq_of_ne (hpart.caller_eq ▸ hne)
  | clone => exact (amends_retain s _ _).get?_eq_of_ne hne

theorem reachable_of_run? {moves : List (Move K V E)} (reached : s.Reachable)
    (h : s.run? moves = some t) : t.Reachable := by
  induction moves generalizing s with
  | nil => exact Option.some.inj h ▸ reached
  | cons m rest ih =>
    obtain ⟨u, hu, hrest⟩ := Option.bind_eq_some_iff.1 h
    exact ih (reached.move m hu) hrest

end SingleFlight

end FrameRpc
