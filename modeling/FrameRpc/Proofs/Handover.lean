import FrameRpc.Proofs.Settling

/-!
# The handover of a lookup

When the caller that runs a lookup goes away, its pending entry is removed, the channel is closed,
and those who wait for it wake and join again: the first of them starts a lookup, for which the
others wait. All the while, who asked for the key when the runner went away still seeks it and
nobody else does, no outcome is in the table, and one lookup at most has started (`Handover`). This
holds as long as the callers of the key only take steps, whatever happens about other keys
(`Handover.run`).
-/

namespace FrameRpc

namespace SingleFlight

variable {K V E : Type}

/-- A caller at the phase asks for its key: it has no outcome, and runs no lookup. -/
def Phase.asks : Phase V E → Bool
  | .joining | .waiting _ | .retrying _ => true
  | _ => false

/-- A caller at the phase still seeks its key, or runs a lookup of it by now. -/
def Phase.seeks : Phase V E → Bool
  | .joining | .waiting _ | .retrying _ | .looking _ => true
  | _ => false

/-- A caller at the phase runs a lookup that goes on. -/
def Phase.isLooking : Phase V E → Bool
  | .looking _ => true
  | _ => false

/-- A caller at the phase goes away, or has ended. -/
def Phase.goes : Phase V E → Bool
  | .abandoning _ _ | .closing _ _ | .leaving _ _ | .ended _ => true
  | _ => false

variable [DecidableEq K]

/-- The lookup of the key that starts, if the event is a start of one. -/
def Event.start? (key : K) : Event K V E → Option Nat
  | .started n k => if k = key then some n else none
  | _ => none

/-- The lookups of the key that have started, in order. -/
def startsOf (s : SingleFlight K V E) (key : K) : List Nat := s.log.filterMap (Event.start? key)

/-- The caller asks for its key. -/
def Asks (s : SingleFlight K V E) (c : Caller K) : Prop :=
  ∃ p, s.callers.get? c = some p ∧ p.asks = true

/-- The number of callers that ask for the key. -/
def asking (s : SingleFlight K V E) (key : K) : Nat :=
  s.callers.count fun c p => c.key = key ∧ p.asks

variable {s t u v : SingleFlight K V E} {key : K}

theorem seeks_of_asks {p : Phase V E} (h : p.asks = true) : p.seeks = true := by
  cases p with
  | joining | waiting | retrying => rfl
  | _ => cases h

theorem isLooking_of_seeks_eq_false {p : Phase V E} (h : p.seeks = false) :
    p.isLooking = false := by
  cases p with
  | looking => cases h
  | _ => rfl

theorem isLooking_of_goes {p : Phase V E} (h : p.goes = true) : p.isLooking = false := by
  cases p with
  | looking => cases h
  | _ => rfl

/-! ## What moves about other keys leave as it is -/

theorem startsOf_of_log (h : t.log = s.log) (key : K) : t.startsOf key = s.startsOf key := by
  rw [startsOf, startsOf, h]

theorem startsOf_concat {e : Event K V E} (h : t.log = s.log ++ [e]) (key : K) :
    t.startsOf key = s.startsOf key ++ (Event.start? key e).toList := by
  rw [startsOf, h, List.filterMap_append]
  cases he : Event.start? key e with
  | none => simp [he, startsOf]
  | some n => simp [he, startsOf]

theorem startsOf_release (key k : K) (n : Nat) :
    (s.release k n).startsOf key = s.startsOf key := by
  rw [release]
  split
  · split
    · split
      · exact (startsOf_concat rfl key).trans (List.append_nil _)
      · rfl
    · rfl
  · rfl

/-- A move starts no lookup of another key. -/
theorem Step.startsOf_eq_of_ne {m : Move K V E} (h : s.Step m t) (hne : key ≠ m.caller.key) :
    t.startsOf key = s.startsOf key := by
  cases h with
  | call | withdraw | publish | close | turn => rfl
  | finish | giveUp => exact (startsOf_concat rfl key).trans (List.append_nil _)
  | join | clone => exact startsOf_of_log (retain_log ..) key
  | begin =>
    refine (startsOf_concat rfl key).trans ?_
    rw [Event.start?, if_neg fun hkey => hne hkey.symm]
    exact List.append_nil _
  | store => exact startsOf_of_log (store_log ..) key
  | abandon => exact startsOf_of_log (abandon_log ..) key
  | part => exact startsOf_release key ..

/-! ## The handover -/

/-- Since the runner of a lookup has gone away in a state, who asked for the key there seeks it and
    nobody else does; no outcome is in the table; and the lookups that have started are those from
    before, unless one of the callers runs another one by now. -/
structure Handover (s : SingleFlight K V E) (key : K) (u : SingleFlight K V E) : Prop where
  seeking : ∀ c, c.key = key → s.Asks c → ∃ q, u.callers.get? c = some q ∧ q.seeks = true
  going : ∀ c q, c.key = key → u.callers.get? c = some q → ¬ s.Asks c → q.goes = true
  pending : ∀ e, u.entries.get? key = some e → e.outcome = none
  starts : u.startsOf key = s.startsOf key ∧
      (∀ c n, c.key = key → u.callers.get? c ≠ some (.looking n)) ∨
    ∃ c n, c.key = key ∧ u.callers.get? c = some (.looking n) ∧
      u.startsOf key = s.startsOf key ++ [n]

/-- What is not about the key does not matter. -/
theorem Handover.frame (h : s.Handover key u)
    (hcallers : ∀ c, c.key = key → v.callers.get? c = u.callers.get? c)
    (hentries : v.entries.get? key = u.entries.get? key)
    (hstarts : v.startsOf key = u.startsOf key) : s.Handover key v where
  seeking c hkey hasks := by
    rw [hcallers c hkey]
    exact h.seeking c hkey hasks
  going c q hkey hq := by
    rw [hcallers c hkey] at hq
    exact h.going c q hkey hq
  pending e he := h.pending e (hentries ▸ he)
  starts := by
    rw [hstarts]
    rcases h.starts with ⟨hnone, hnobody⟩ | ⟨c, n, hkey, hc, hone⟩
    · refine .inl ⟨hnone, fun c n hkey => ?_⟩
      rw [hcallers c hkey]
      exact hnobody c n hkey
    · refine .inr ⟨c, n, hkey, ?_, hone⟩
      rw [hcallers c hkey]
      exact hc

/-- A caller of the key goes on as it should, and starts no lookup. -/
theorem Handover.move (h : s.Handover key u) {c : Caller K} {q q' : Phase V E}
    (hc : u.callers.get? c = some q) (hcallers : v.callers = u.callers.set c q')
    (hseeks : s.Asks c → q'.seeks = true) (hgoes : ¬ s.Asks c → q'.goes = true)
    (hlooking : q.isLooking = false) (hlooking' : q'.isLooking = false)
    (hentries : ∀ e', v.entries.get? key = some e' →
      ∃ e, u.entries.get? key = some e ∧ e'.lookup = e.lookup ∧ e'.outcome = e.outcome)
    (hstarts : v.startsOf key = u.startsOf key) : s.Handover key v where
  seeking c₁ hkey hasks := by
    rw [hcallers, Table.get?_set]
    split
    · rename_i heq
      exact ⟨q', rfl, hseeks (heq ▸ hasks)⟩
    · exact h.seeking c₁ hkey hasks
  going c₁ q₁ hkey hq₁ hasks := by
    rw [hcallers, Table.get?_set] at hq₁
    split at hq₁
    · rename_i heq
      exact Option.some.inj hq₁ ▸ hgoes (heq ▸ hasks)
    · exact h.going c₁ q₁ hkey hq₁ hasks
  pending e' he' := by
    obtain ⟨e, he, -, houtcome⟩ := hentries e' he'
    exact houtcome.trans (h.pending e he)
  starts := by
    rw [hstarts, hcallers]
    rcases h.starts with ⟨hnone, hnobody⟩ | ⟨c₁, n, hkey, hc₁, hone⟩
    · refine .inl ⟨hnone, fun c₁ n hkey hc₁ => ?_⟩
      rw [Table.get?_set] at hc₁
      split at hc₁
      · obtain rfl := Option.some.inj hc₁
        cases hlooking'
      · exact hnobody c₁ n hkey hc₁
    · have hne : c₁ ≠ c := by
        rintro rfl
        obtain rfl := Option.some.inj (hc.symm.trans hc₁)
        cases hlooking
      refine .inr ⟨c₁, n, hkey, ?_, hone⟩
      rw [Table.get?_set, if_neg hne]
      exact hc₁

theorem Handover.asks_of_goes_eq_false (h : s.Handover key u) {c : Caller K} {q : Phase V E}
    (hkey : c.key = key) (hc : u.callers.get? c = some q) (hq : q.goes = false) : s.Asks c := by
  refine Classical.byContradiction fun hasks => ?_
  rw [h.going c q hkey hc hasks] at hq
  cases hq

theorem Handover.not_asks_of_seeks_eq_false (h : s.Handover key u) {c : Caller K} {q : Phase V E}
    (hkey : c.key = key) (hc : u.callers.get? c = some q) (hq : q.seeks = false) :
    ¬ s.Asks c := by
  intro hasks
  obtain ⟨q', hq', hseeks⟩ := h.seeking c hkey hasks
  obtain rfl := Option.some.inj (hc.symm.trans hq')
  rw [hseeks] at hq
  cases hq

/-- Who asked for the key goes on seeking it. -/
theorem Handover.seek (h : s.Handover key u) {c : Caller K} {q q' : Phase V E}
    (hkey : c.key = key) (hc : u.callers.get? c = some q) (hq : q.goes = false)
    (hq' : q'.seeks = true) (hlooking : q.isLooking = false) (hlooking' : q'.isLooking = false)
    (hcallers : v.callers = u.callers.set c q')
    (hentries : ∀ e', v.entries.get? key = some e' →
      ∃ e, u.entries.get? key = some e ∧ e'.lookup = e.lookup ∧ e'.outcome = e.outcome)
    (hstarts : v.startsOf key = u.startsOf key) : s.Handover key v :=
  h.move hc hcallers (fun _ => hq') (absurd (h.asks_of_goes_eq_false hkey hc hq)) hlooking hlooking'
    hentries hstarts

/-- Who did not ask for it goes on going away. -/
theorem Handover.go (h : s.Handover key u) {c : Caller K} {q q' : Phase V E}
    (hkey : c.key = key) (hc : u.callers.get? c = some q) (hq : q.seeks = false)
    (hq' : q'.goes = true) (hcallers : v.callers = u.callers.set c q')
    (hentries : ∀ e', v.entries.get? key = some e' →
      ∃ e, u.entries.get? key = some e ∧ e'.lookup = e.lookup ∧ e'.outcome = e.outcome)
    (hstarts : v.startsOf key = u.startsOf key) : s.Handover key v :=
  h.move hc hcallers (fun hasks => absurd hasks (h.not_asks_of_seeks_eq_false hkey hc hq))
    (fun _ => hq') (isLooking_of_seeks_eq_false hq) (isLooking_of_goes hq') hentries hstarts

/-- A caller that finds no live entry starts a lookup, while nobody runs one. -/
theorem Handover.begin (h : s.Handover key u) (reached : u.Reachable) {c : Caller K}
    (hkey : c.key = key) (hc : u.callers.get? c = some .joining)
    (hnone : u.liveEntry? c.key = none) : s.Handover key (u.join c) := by
  rw [join_of_none hnone]
  obtain ⟨book, hrecorded⟩ := reached.recorded
  have hfree := hrecorded.get?_eq_none hnone
  have hstarts : u.startsOf key = s.startsOf key := by
    rcases h.starts with ⟨hnone, -⟩ | ⟨c', n, hkey', hc', -⟩
    · exact hnone
    · -- The entry of a lookup that somebody runs would be live.
      obtain ⟨e, he, -, -⟩ := exists_entry_of_looking reached hc'
      rw [hkey', ← hkey] at he
      cases hfree.symm.trans he
  have hasks := h.asks_of_goes_eq_false hkey hc rfl
  refine ⟨fun c₁ hkey₁ hasks₁ => ?_, fun c₁ q₁ hkey₁ hq₁ hasks₁ => ?_, fun e he => ?_,
    .inr ⟨c, u.channels.length, hkey, ?_, ?_⟩⟩
  · rw [Table.get?_set]
    split
    · exact ⟨_, rfl, rfl⟩
    · exact h.seeking c₁ hkey₁ hasks₁
  · rw [Table.get?_set] at hq₁
    split at hq₁
    · rename_i heq
      exact absurd (heq ▸ hasks) hasks₁
    · exact h.going c₁ q₁ hkey₁ hq₁ hasks₁
  · rw [Table.get?_set, if_pos hkey.symm] at he
    exact Option.some.inj he ▸ rfl
  · rw [Table.get?_set, if_pos rfl]
  · rw [← hstarts]
    refine (startsOf_concat rfl key).trans ?_
    rw [Event.start?, if_pos hkey]
    rfl

/-- Who waits does not wait for a lookup that is done: its entry would be in the table, with the
    outcome. -/
theorem Handover.channel_ne_published (h : s.Handover key u) (reached : u.Reachable) {c : Caller K}
    {n : Nat} (hkey : c.key = key) (hc : u.callers.get? c = some (.waiting n)) (o : Except E V) :
    u.channel n ≠ .published o := by
  intro hchannel
  obtain ⟨book, hrecorded⟩ := reached.recorded
  obtain ⟨st, hrec, -⟩ := hrecorded.callers c _ n hc rfl
  rw [hrecorded.channel_eq hrec] at hchannel
  obtain ⟨o', rfl⟩ : ∃ o', st = .published o' := by
    cases st with
    | published o' => exact ⟨o', rfl⟩
    | _ => cases hchannel
  have hlive : u.Live c.key n := hrecorded.live_of_outcome hrec rfl hc rfl
  obtain ⟨e, he⟩ := Option.ne_none_iff_exists'.1 (hlive.entryOf?_ne_none hrecorded reached.kept)
  obtain ⟨hget, rfl⟩ := entryOf?_eq_some_iff.1 he
  have hheld := (hrecorded.entry_eq hrec hget).2
  rw [h.pending e (hkey ▸ hget)] at hheld
  cases hheld

/-- A caller that joins waits for the lookup of the entry, or starts one. -/
theorem Handover.join (h : s.Handover key u) (reached : u.Reachable) {c : Caller K}
    (hkey : c.key = key) (hc : u.callers.get? c = some .joining) : s.Handover key (u.join c) := by
  cases hlive : u.liveEntry? c.key with
  | none => exact h.begin reached hkey hc hlive
  | some e =>
    -- Nobody has got an outcome, so the entry is pending.
    have hpending := h.pending e (hkey ▸ get?_of_live hlive)
    have hjoined : e.joined = .waiting e.lookup := by rw [Entry.joined, hpending]
    rw [join_of_live hlive, hjoined]
    exact h.seek hkey hc rfl rfl rfl rfl (place_callers_of (retain_callers ..) ..)
      (fun _ => exists_of_get?_retain) (startsOf_of_log (retain_log ..) key)

/-- A caller that waits goes on if the lookup was given up. -/
theorem Handover.wake (h : s.Handover key u) (reached : u.Reachable) {c : Caller K} {n : Nat}
    (hkey : c.key = key) (hc : u.callers.get? c = some (.waiting n))
    (hstep : u.step? c (.waiting n) = some v) : s.Handover key v := by
  rw [step?] at hstep
  cases hchannel : u.channel n with
  | silent =>
    rw [hchannel] at hstep
    cases hstep
  | published o => exact absurd hchannel (h.channel_ne_published reached hkey hc o)
  | closed =>
    rw [hchannel] at hstep
    obtain rfl := Option.some.inj hstep
    exact h.seek hkey hc rfl rfl rfl rfl rfl (fun e he => ⟨e, he, rfl, rfl⟩) rfl

/-- A caller of the key takes a step. -/
theorem Handover.step (h : s.Handover key u) (reached : u.Reachable) {c : Caller K}
    {q : Phase V E} (hkey : c.key = key) (hc : u.callers.get? c = some q)
    (hstep : u.step? c q = some v) : s.Handover key v := by
  cases q with
  | joining => exact Option.some.inj hstep ▸ h.join reached hkey hc
  | waiting n => exact h.wake reached hkey hc hstep
  | retrying n =>
    obtain rfl := Option.some.inj hstep
    exact h.seek hkey hc rfl rfl rfl rfl (place_callers_of (release_callers ..) ..)
      (fun _ => exists_of_get?_release) (startsOf_release key ..)
  | abandoning n ending =>
    obtain rfl := Option.some.inj hstep
    exact h.go hkey hc rfl rfl (place_callers_of (abandon_callers ..) ..)
      (fun _ => exists_of_get?_abandon) (startsOf_of_log (abandon_log ..) key)
  | closing n ending =>
    obtain rfl := Option.some.inj hstep
    exact h.go hkey hc rfl rfl rfl (fun e he => ⟨e, he, rfl, rfl⟩) rfl
  | leaving n ending =>
    obtain rfl := Option.some.inj hstep
    exact h.go hkey hc rfl rfl (place_callers_of (release_callers ..) ..)
      (fun _ => exists_of_get?_release) (startsOf_release key ..)
  | storing | publishing | resolving =>
    -- Nobody has got an outcome.
    exact absurd (h.asks_of_goes_eq_false hkey hc rfl) (h.not_asks_of_seeks_eq_false hkey hc rfl)
  | looking | holding | ended => cases hstep

/-- The callers of the key take steps, and those of other keys do anything. -/
theorem Handover.run (h : s.Handover key u) (reached : u.Reachable) {moves : List (Move K V E)}
    (hmoves : ∀ m ∈ moves, m.caller.key = key → m = .step m.caller)
    (hrun : u.run? moves = some v) : s.Handover key v := by
  induction moves generalizing u with
  | nil => exact Option.some.inj hrun ▸ h
  | cons m rest ih =>
    obtain ⟨w, hw, hrest⟩ := Option.bind_eq_some_iff.1 hrun
    refine ih ?_ (reached.move m hw) (fun m hm => hmoves m (List.mem_cons_of_mem _ hm)) hrest
    by_cases hkey : m.caller.key = key
    · rw [hmoves m List.mem_cons_self hkey] at hw
      obtain ⟨q, hq, hstep⟩ := Option.bind_eq_some_iff.1 hw
      exact h.step reached hkey hq hstep
    · -- A move about another key touches neither the callers of this one nor its entry.
      have hstep := step_of_perform? hw
      obtain ⟨c, p, hc, hcallers⟩ := hstep.callers_eq
      refine h.frame (fun c' hc' => ?_) (hstep.get?_eq_of_ne (Ne.symm hkey))
        (hstep.startsOf_eq_of_ne (Ne.symm hkey))
      have hne : c' ≠ c := by
        rintro rfl
        exact hkey (hc.symm.trans hc')
      rw [hcallers, Table.get?_set, if_neg hne]

end SingleFlight

end FrameRpc
