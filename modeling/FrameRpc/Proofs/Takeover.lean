import FrameRpc.Proofs.Handover
import FrameRpc.Proofs.Progress

/-!
# Nobody is stranded

When the caller that runs a lookup goes away, a handover begins (`handover_giveUp`). When the key is
settled again, one of those who asked for it runs a new lookup, and all of them own its entry; or
nobody asked for it, and the key is gone (`Handover.exists_runner`, `Handover.owners_eq`,
`Handover.gone`). Together with what holds whenever a key is settled, this is the main result
(`no_waiter_stranded`).
-/

namespace FrameRpc

namespace SingleFlight

variable {K V E : Type} [DecidableEq K] {s u : SingleFlight K V E} {key : K}

theorem asking_pos_iff : 0 < s.asking key ↔ ∃ c, c.key = key ∧ s.Asks c := by
  rw [asking, Table.count, List.countP_pos_iff]
  constructor
  · rintro ⟨e, he, hasks⟩
    rw [decide_eq_true_eq] at hasks
    exact ⟨e.1, hasks.1, e.2, Table.mem_entries_iff.1 he, hasks.2⟩
  · rintro ⟨c, hkey, p, hp, hasks⟩
    exact ⟨(c, p), Table.mem_entries_iff.2 hp, decide_eq_true ⟨hkey, hasks⟩⟩

/-- Whether a key is settled can be checked. -/
theorem settledAt_iff : s.SettledAt key ↔
    ∀ e ∈ s.callers.entries, e.1.key = key → (s.step? e.1 e.2).isNone = true := by
  constructor
  · intro h e he hkey
    have hstep := h e.1 hkey
    rw [perform?, Table.mem_entries_iff.1 he, Option.bind_some] at hstep
    rw [hstep]
    rfl
  · intro h c hkey
    refine Option.bind_eq_none_iff.2 fun p hp => ?_
    exact Option.isNone_iff_eq_none.1 (h (c, p) (Table.mem_entries_iff.2 hp) hkey)

/-! ## Where it begins and ends -/

/-- While a lookup of the key runs, nobody has a lease on one that is done: it would be live. -/
theorem Recorded.outcome?_eq_none_of_looking {book : List (Record K V E)} (h : s.Recorded book)
    (reached : s.Reachable) {r c : Caller K} {n m : Nat} {p : Phase V E} {st : Stage K V E}
    (hr : s.callers.get? r = some (.looking n)) (hkey : c.key = r.key)
    (hc : s.callers.get? c = some p) (hlease : p.lease? = some m)
    (hrec : book[m]? = some ⟨c.key, st⟩) : st.outcome? = none := by
  cases ho : st.outcome? with
  | none => rfl
  | some o =>
    have hflying := h.flying_of_looking hr
    obtain rfl : n = m := eq_of_live reached (.inl (h.inFlight_of_flying hflying))
      (hkey ▸ h.live_of_outcome hrec ho hc hlease)
    obtain ⟨-, rfl⟩ := Record.mk.inj (Option.some.inj (hflying.symm.trans hrec))
    cases ho

/-- While a lookup of the key runs, nobody else runs one or has got an outcome. -/
theorem goes_of_looking (reached : s.Reachable) {r : Caller K} {n : Nat}
    (hr : s.callers.get? r = some (.looking n)) {c : Caller K} {p : Phase V E}
    (hkey : c.key = r.key) (hne : c ≠ r) (hc : s.callers.get? c = some p)
    (hasks : p.asks = false) : p.goes = true := by
  obtain ⟨book, h⟩ := reached.recorded
  have hstage {m : Nat} (hlease : p.lease? = some m) :
      ∃ st : Stage K V E, st.Fits c p ∧ st.outcome? = none := by
    obtain ⟨st, hrec, hfits⟩ := h.callers c p m hc hlease
    exact ⟨st, hfits, h.outcome?_eq_none_of_looking reached hr hkey hc hlease hrec⟩
  cases p with
  | joining | waiting | retrying => cases hasks
  | looking m => exact absurd (looking_unique reached hkey hc hr).1 hne
  | storing m o | publishing m o =>
    obtain ⟨st, rfl, hnone⟩ := hstage rfl
    cases hnone
  | resolving m o | holding m w =>
    obtain ⟨st, hfits, hnone⟩ := hstage rfl
    cases hnone.symm.trans hfits
  | abandoning | closing | leaving | ended => rfl

/-- The caller that runs a lookup goes away. -/
theorem handover_giveUp (reached : s.Reachable) {r : Caller K} {n : Nat}
    (hr : s.callers.get? r = some (.looking n)) (ending : Ending E) :
    s.Handover r.key ((s.tell (.abandoned n r.key)).place r (.abandoning n ending)) := by
  have hrunner {c : Caller K} {p : Phase V E} (hc : s.callers.get? c = some p)
      (hasks : p.asks = true) : c ≠ r := by
    rintro rfl
    obtain rfl := Option.some.inj (hr.symm.trans hc)
    cases hasks
  have hget (c : Caller K) : ((s.tell (.abandoned n r.key)).place r
      (.abandoning n ending)).callers.get? c
        = if c = r then some (.abandoning n ending) else s.callers.get? c := Table.get?_set ..
  refine ⟨fun c hkey hasks => ?_, fun c q hkey hq hasks => ?_, fun e he => ?_,
    .inl ⟨?_, fun c m hkey hc => ?_⟩⟩
  · obtain ⟨p, hp, hasks⟩ := hasks
    refine ⟨p, ?_, seeks_of_asks hasks⟩
    rw [hget, if_neg (hrunner hp hasks)]
    exact hp
  · rw [hget] at hq
    split at hq
    · exact Option.some.inj hq ▸ rfl
    · rename_i hne
      refine goes_of_looking reached hr hkey hne hq ?_
      exact Bool.eq_false_iff.2 fun hp => hasks ⟨q, hq, hp⟩
  · obtain ⟨e', he', -, hpending⟩ := exists_entry_of_looking reached hr
    obtain rfl := Option.some.inj (he.symm.trans he')
    exact hpending
  · exact (startsOf_concat rfl r.key).trans (List.append_nil _)
  · rw [hget] at hc
    split at hc
    · cases hc
    · rename_i hne
      exact hne (looking_unique reached hkey hc hr).1

section

variable (h : s.Handover key u) (reached : u.Reachable) (hsettled : u.SettledAt key)
include h reached hsettled

/-- A lookup of the key runs as soon as somebody seeks it, and nobody else runs it. -/
theorem Handover.exists_runner {c : Caller K} (hkey : c.key = key) (hasks : s.Asks c) :
    ∃ r n, r.key = key ∧ s.Asks r ∧ u.callers.get? r = some (.looking n) ∧
      u.startsOf key = s.startsOf key ++ [n] := by
  -- Who seeks the key and rests runs a lookup, or waits for one that runs.
  obtain ⟨r, n, hr, hlooking⟩ : ∃ r n, r.key = key ∧ u.callers.get? r = some (.looking n) := by
    obtain ⟨q, hq, hseeks⟩ := h.seeking c hkey hasks
    have hrests := hsettled.rests hkey hq
    cases q with
    | looking n => exact ⟨c, n, hkey, hq⟩
    | waiting n =>
      obtain ⟨r, hr, hlooking⟩ := exists_runner_of_waiting reached hsettled hkey hq
      exact ⟨r, n, hr, hlooking⟩
    | joining | retrying => exact hrests.elim
    | _ => cases hseeks
  refine ⟨r, n, hr, h.asks_of_goes_eq_false hr hlooking rfl, hlooking, ?_⟩
  rcases h.starts with ⟨-, hnobody⟩ | ⟨r', n', hr', hlooking', hone⟩
  · exact absurd hlooking (hnobody r n hr)
  · obtain ⟨-, rfl⟩ := looking_unique reached (hr.trans hr'.symm) hlooking hlooking'
    exact hone

/-- The owners of the entry are those who asked for the key. -/
theorem Handover.owners_eq {r : Caller K} {n : Nat} (hr : r.key = key)
    (hlooking : u.callers.get? r = some (.looking n)) : u.owners key = s.asking key := by
  obtain ⟨e, he, rfl, -⟩ := exists_entry_of_looking reached hlooking
  rw [hr] at he
  have howners : u.owners key = u.leases key e.lookup := by
    rw [owners, he, ← reached.counted.owners_eq key e he]
    rfl
  rw [howners]
  refine Table.count_eq_of_iff fun c => ?_
  constructor
  · rintro ⟨q, hq, hlease⟩
    obtain ⟨hkey, hlease⟩ := of_decide_eq_true hlease
    -- Who did not ask has gone away, and rests only without a lease.
    obtain ⟨p, hp, hasks⟩ : s.Asks c := by
      refine Classical.byContradiction fun hasks => ?_
      have hgoes := h.going c q hkey hq hasks
      have hrests := hsettled.rests hkey hq
      cases q with
      | ended => cases hlease
      | abandoning | closing | leaving => exact hrests
      | _ => cases hgoes
    exact ⟨p, hp, decide_eq_true ⟨hkey, hasks⟩⟩
  · rintro ⟨p, hp, hasks⟩
    obtain ⟨hkey, hasks⟩ := of_decide_eq_true hasks
    obtain ⟨q, hq, hseeks⟩ := h.seeking c hkey ⟨p, hp, hasks⟩
    have hrests := hsettled.rests hkey hq
    refine ⟨q, hq, decide_eq_true ⟨hkey, ?_⟩⟩
    -- Who seeks the key runs the lookup or waits for it, as there is no other.
    cases q with
    | looking m => exact congrArg some (looking_unique reached (hkey.trans hr.symm) hq hlooking).2
    | waiting m =>
      obtain ⟨r', hr', hlooking'⟩ := exists_runner_of_waiting reached hsettled hkey hq
      exact congrArg some (looking_unique reached (hr'.trans hr.symm) hlooking' hlooking).2
    | joining | retrying => exact hrests.elim
    | _ => cases hseeks

/-- If nobody asked for the key, it is gone, and no lookup has started. -/
theorem Handover.gone (hnobody : s.asking key = 0) :
    u.contains key = false ∧ u.startsOf key = s.startsOf key := by
  have hlooking (r : Caller K) (n : Nat) (hr : r.key = key) :
      u.callers.get? r ≠ some (.looking n) := fun hlooking =>
    Nat.ne_of_gt (asking_pos_iff.2 ⟨r, hr, h.asks_of_goes_eq_false hr hlooking rfl⟩) hnobody
  constructor
  · rw [contains, Table.contains]
    refine Bool.eq_false_iff.2 fun hsome => ?_
    obtain ⟨e, he⟩ := Option.isSome_iff_exists.1 hsome
    obtain ⟨r, hr, hrunning⟩ := exists_runner_of_pending reached hsettled he (h.pending e he)
    exact hlooking r _ hr hrunning
  · rcases h.starts with ⟨hnone, -⟩ | ⟨r, n, hr, hrunning, -⟩
    · exact hnone
    · exact absurd hrunning (hlooking r n hr)

end

/-- Of a settled key whose lookup runs, those who ask wait for it. -/
theorem asking_eq_waiters (reached : s.Reachable) (hsettled : s.SettledAt key) {r : Caller K}
    {n : Nat} (hr : r.key = key) (hlooking : s.callers.get? r = some (.looking n)) :
    s.asking key = s.waiters key n := by
  refine Table.count_eq_of_iff fun c => exists_congr fun p => and_congr_right fun hp => ?_
  rw [decide_eq_true_eq, decide_eq_true_eq]
  refine and_congr_right fun hkey => ?_
  have hrests := hsettled.rests hkey hp
  cases p with
  | joining | retrying => exact hrests.elim
  | waiting m =>
    obtain ⟨r', hr', hlooking'⟩ := exists_runner_of_waiting reached hsettled hkey hp
    obtain ⟨-, rfl⟩ := looking_unique reached (hr'.trans hr.symm) hlooking' hlooking
    simp [Phase.asks, Phase.waits]
  | _ => simp [Phase.asks, Phase.waits]

/-- Nobody waits in vain. When a key is settled, whoever waits is attached to the pending entry of
    the key, the lookup of a pending entry is run by a caller, and its owners are this caller and
    those who wait; no failure is in the table.

    When the caller that runs a lookup is cancelled, or the lookup panics, the callers of the key
    can settle it; and whenever they have, whatever happened about other keys, the key is gone if
    nobody asked for it, and otherwise one lookup has started, it is run by one of those who asked,
    and they are its owners. -/
theorem no_waiter_stranded (reached : s.Reachable) (key : K) :
    (s.SettledAt key →
      (∀ c n, c.key = key → s.callers.get? c = some (.waiting n) →
        ∃ e r, s.entries.get? key = some e ∧ e.lookup = n ∧ e.outcome = none ∧
          r.key = key ∧ s.callers.get? r = some (.looking n)) ∧
      (∀ e, s.entries.get? key = some e → e.outcome = none →
        (∃ r, r.key = key ∧ s.callers.get? r = some (.looking e.lookup)) ∧
          e.owners = s.waiters key e.lookup + 1) ∧
      ∀ e x, s.entries.get? key = some e → e.outcome ≠ some (.error x)) ∧
    ∀ r n m t, r.key = key → s.callers.get? r = some (.looking n) →
      m = .cancel r ∨ m = .panic r → s.perform? m = some t →
      (s.SettledAt key → s.asking key = s.waiters key n) ∧
      (∃ moves u, (∀ m ∈ moves, ∃ c, c.key = key ∧ m = Move.step c) ∧ t.run? moves = some u ∧
        u.SettledAt key) ∧
      ∀ moves u, (∀ m ∈ moves, m.caller.key = key → m = .step m.caller) →
        t.run? moves = some u → u.SettledAt key →
        (s.asking key = 0 → u.contains key = false ∧ u.startsOf key = s.startsOf key) ∧
        (0 < s.asking key → ∃ r' n', r'.key = key ∧ s.Asks r' ∧
          u.callers.get? r' = some (.looking n') ∧ u.startsOf key = s.startsOf key ++ [n'] ∧
          u.owners key = s.asking key) := by
  refine ⟨fun hsettled => ⟨fun c n hkey hc => ?_, fun e he hpending => ?_, fun e x he => ?_⟩,
    fun r n m t hr hlooking hm possible => ?_⟩
  · -- The lookup that the caller waits for runs, so its entry is there.
    obtain ⟨r, hr, hlooking⟩ := exists_runner_of_waiting reached hsettled hkey hc
    obtain ⟨e, he, hlookup, hpending⟩ := exists_entry_of_looking reached hlooking
    exact ⟨e, r, hr ▸ he, hlookup, hpending, hr, hlooking⟩
  · exact ⟨exists_runner_of_pending reached hsettled he hpending,
      owners_of_pending reached hsettled he hpending⟩
  · exact outcome_ne_error reached hsettled he x
  · have hhandover : s.Handover key t := by
      rw [← hr]
      rcases hm with rfl | rfl
      · rw [perform?, hlooking] at possible
        exact Option.some.inj possible ▸ handover_giveUp reached hlooking .cancelled
      · rw [perform?, hlooking] at possible
        exact Option.some.inj possible ▸ handover_giveUp reached hlooking .panicked
    have reached' := reached.move m possible
    refine ⟨fun hsettled => asking_eq_waiters reached hsettled hr hlooking,
      exists_settled reached' key, fun moves u hmoves hrun hsettled => ?_⟩
    have hend := hhandover.run reached' hmoves hrun
    have reached'' := reachable_of_run? reached' hrun
    refine ⟨hend.gone reached'' hsettled, fun hpos => ?_⟩
    obtain ⟨c, hkey, hasks⟩ := asking_pos_iff.1 hpos
    obtain ⟨r', n', hr', hasks', hlooking', hstarts⟩ :=
      hend.exists_runner reached'' hsettled hkey hasks
    exact ⟨r', n', hr', hasks', hlooking', hstarts,
      hend.owners_eq reached'' hsettled hr' hlooking'⟩

/-- A caller runs a lookup, and two others wait for it. -/
def crowdMoves : List (Move Nat Nat Nat) :=
  [.call ⟨7, 0⟩, .call ⟨7, 1⟩, .call ⟨7, 2⟩, .step ⟨7, 0⟩, .step ⟨7, 1⟩, .step ⟨7, 2⟩]

/-- The table after these moves. -/
def crowdTable : SingleFlight Nat Nat Nat := (start.run? crowdMoves).getD start

/-- The runner has been cancelled. -/
def orphanTable : SingleFlight Nat Nat Nat := (crowdTable.perform? (.cancel ⟨7, 0⟩)).getD start

/-- All of them go on, and the third is the first one to join again. -/
def takeoverMoves : List (Move Nat Nat Nat) :=
  [⟨7, 0⟩, ⟨7, 0⟩, ⟨7, 1⟩, ⟨7, 2⟩, ⟨7, 0⟩, ⟨7, 2⟩, ⟨7, 2⟩, ⟨7, 1⟩, ⟨7, 1⟩].map Move.step

/-- The table after these moves as well. -/
def takeoverTable : SingleFlight Nat Nat Nat := (orphanTable.run? takeoverMoves).getD start

/-- One of the two runs a lookup that they both own. -/
theorem owners_of_takeoverTable :
    crowdTable.Reachable ∧ crowdTable.SettledAt 7 ∧ crowdTable.waiters 7 0 = 2 ∧
      takeoverTable.SettledAt 7 ∧
      ∃ r n, r.key = 7 ∧ crowdTable.Asks r ∧ takeoverTable.callers.get? r = some (.looking n) ∧
        takeoverTable.startsOf 7 = crowdTable.startsOf 7 ++ [n] ∧ takeoverTable.owners 7 = 2 := by
  have reached : crowdTable.Reachable :=
    reachable_of_run? .start (show start.run? crowdMoves = some crowdTable from rfl)
  have hsettled : crowdTable.SettledAt 7 := settledAt_iff.2 (by decide)
  have hsettled' : takeoverTable.SettledAt 7 := settledAt_iff.2 (by decide)
  obtain ⟨hwaiters, -, htakeover⟩ := (no_waiter_stranded reached 7).2 ⟨7, 0⟩ 0 (.cancel ⟨7, 0⟩)
    orphanTable rfl rfl (.inl rfl) rfl
  have hmoves : ∀ m ∈ takeoverMoves, m.caller.key = 7 → m = .step m.caller := by
    intro m hm _
    obtain ⟨c, -, rfl⟩ := List.mem_map.1 hm
    rfl
  obtain ⟨r, n, hr, hasks, hlooking, hstarts, howners⟩ :=
    (htakeover takeoverMoves takeoverTable hmoves rfl hsettled').2 (by decide)
  exact ⟨reached, hsettled, (hwaiters hsettled).symm.trans rfl, hsettled', r, n, hr, hasks,
    hlooking, hstarts, howners.trans rfl⟩

end SingleFlight

end FrameRpc
