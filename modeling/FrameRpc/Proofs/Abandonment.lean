import FrameRpc.Proofs.RunControl

/-!
# Stops that are given up

Whoever stops a service has the lock while the service is pending. A start has it too while it makes
the service pending and then ready, but it waits for nothing in between: its own pending lies inside
its one step, is published there, and is never seen between two moves.

A stop that is given up while the finalizer runs, because its caller drops it or because the
finalizer panics, hands the lock on and leaves the service pending, and so does a start whose
factory panics. Nothing else does: apart from these the service is found pending, between two moves,
only while somebody stops it (`Service.pending_iff`). And nothing mends it: later starts find the
service not stopped, and later stops find it not ready, so it is pending for good.
-/

namespace FrameRpc

namespace Service

/-! ## Giving up -/

/-- The finalizer runs. -/
def Stopping.isFinalizing : Stopping → Bool
  | .finalizing _ => true
  | .arriving | .queued | .cancelling | .unlocking | .unwinding | .done | .panicked => false

/-- The move gives up a start or a stop halfway: the factory or the finalizer panics, or the caller
    of a stop drops it while the finalizer runs. -/
def abandons (s : Service) : Move → Bool
  | .panic _ => true
  | .drop i => (s.stopping? (.call i)).any Stopping.isFinalizing
  | .start | .stop | .step _ | .notice _ | .finish _ _ | .finalize _ => false

/-- One of the moves does. -/
def abandoned (s : Service) : List Move → Bool
  | [] => false
  | m :: rest => s.abandons m || (s.perform? m).any fun t => t.abandoned rest

variable {s t u : Service} {x : Task} {g : Hold} {given : Bool}

/-! ## Who stops the service -/

/-- Somebody has the lock and stops the service. -/
def Stops (s : Service) : Prop := ∃ x, s.hold x = .stops

/-- A task that does not stop the service, before or after its turn, leaves it to the others. -/
theorem Turned.stops_iff (h : Turned s t x g) (hs : s.hold x ≠ .stops) (hg : g ≠ .stops) :
    t.Stops ↔ s.Stops := by
  constructor
  · rintro ⟨y, hy⟩
    refine ⟨y, (h.others y ?_).symm.trans hy⟩
    rintro rfl
    exact hg (h.own.symm.trans hy)
  · rintro ⟨y, hy⟩
    refine ⟨y, (h.others y ?_).trans hy⟩
    rintro rfl
    exact hs hy

theorem Guarded.holder_of_stops (h : s.Guarded) (hstops : s.hold x = .stops) :
    s.lock.holder = some x :=
  h.lock x (by rw [hstops]; decide)

/-- A start call does not stop the service. -/
theorem Starting.hold_ne_stops (p : Starting) : p.hold ≠ .stops := by
  cases p <;> simp [Starting.hold]

/-- When the task that has the lock does not stop the service after its turn, nobody does. -/
theorem Guarded.not_stops (hguarded : s.Guarded) (h : Turned s t x g)
    (hlock : s.lock.holder = some x) (hg : g ≠ .stops) : ¬ t.Stops := by
  rintro ⟨y, hy⟩
  have hne : y ≠ x := by
    rintro rfl
    exact hg (h.own.symm.trans hy)
  have hstops := (h.others y hne).symm.trans hy
  exact hne (Option.some.inj ((hguarded.holder_of_stops hstops).symm.trans hlock))

/-! ## The invariant -/

/-- Between two moves the service is pending as long as somebody stops it, or if a start or a stop
    was given up, and then nobody stops it. -/
structure Settled (given : Bool) (s : Service) : Prop where
  guarded : s.Guarded
  pending_iff : s.status = .pending ↔ s.Stops ∨ given = true
  lost : given = true → ¬ s.Stops

namespace Settled

/-- The turn of a task that does not stop the service and leaves the status alone. -/
theorem keep (h : Settled given s) (ht : t.Guarded) (hturned : Turned s t x g)
    (hs : s.hold x ≠ .stops) (hg : g ≠ .stops) (hstatus : t.status = s.status) :
    Settled given t := by
  have hiff := hturned.stops_iff hs hg
  refine ⟨ht, ?_, fun hgiven => ?_⟩
  · rw [hstatus, hiff]
    exact h.pending_iff
  · rw [hiff]
    exact h.lost hgiven

/-- Nothing was given up if the service is not pending. -/
theorem given_eq_false (h : Settled given s) (hstatus : s.status ≠ .pending) : given = false := by
  cases hgiven : given with
  | false => rfl
  | true => exact absurd (h.pending_iff.2 (.inr hgiven)) hstatus

/-- The turn of the task that has the lock, after which it does not stop the service. -/
theorem done (h : Settled given s) (ht : t.Guarded) (hturned : Turned s t x g)
    (hlock : s.lock.holder = some x) (hg : g ≠ .stops) (hnot : given = false)
    (hstatus : t.status ≠ .pending) : Settled given t := by
  have hnone := h.guarded.not_stops hturned hlock hg
  refine ⟨ht, iff_of_false hstatus ?_, fun _ => hnone⟩
  rintro (hstops | hgiven)
  · exact hnone hstops
  · rw [hnot] at hgiven
    cases hgiven

/-- The turn of the task that has the lock, which gives up. -/
theorem giveUp (h : Settled given s) (ht : t.Guarded) (hturned : Turned s t x g)
    (hlock : s.lock.holder = some x) (hg : g ≠ .stops) (hstatus : t.status = .pending) :
    Settled true t :=
  ⟨ht, iff_of_true hstatus (.inr rfl), fun _ => h.guarded.not_stops hturned hlock hg⟩

/-- The turn of the task that has the lock, which goes on to stop the service. -/
theorem goOn (ht : t.Guarded) (hturned : Turned s t x .stops) (hnot : given = false)
    (hstatus : t.status = .pending) : Settled given t := by
  refine ⟨ht, iff_of_true hstatus (.inl ⟨x, hturned.own⟩), fun hgiven => ?_⟩
  rw [hnot] at hgiven
  cases hgiven

theorem startTurn (h : Settled given s) {i : Nat} {m : Move} {p p' : Starting}
    (hcall : s.calls[i]? = some (.start p)) (turn : StartTurn s i m p u p') :
    Settled (given || s.abandons m) (u.placeCall i (.start p')) := by
  have ht := h.guarded.startTurn hcall turn
  have hturned := turn.turned hcall
  have hhold : s.hold (.call i) ≠ .stops := (hold_call hcall).symm ▸ Starting.hold_ne_stops p
  cases turn with
  | launch hlock hstatus =>
    rw [abandons, Bool.or_false]
    have hready : Status.ready ≠ .pending := by decide
    exact h.done ht hturned hlock (Starting.hold_ne_stops _)
      (h.given_eq_false (by rw [hstatus]; decide)) hready
  | crash hlock hstatus =>
    rw [abandons, Bool.or_true]
    exact h.giveUp ht hturned hlock (Starting.hold_ne_stops _) rfl
  | ask | skip | await | leave | unwind | join | joinPanicked =>
    rw [abandons, Bool.or_false]
    exact h.keep ht hturned hhold (Starting.hold_ne_stops _) rfl

theorem stopTurn (h : Settled given s) {m : Move} {p p' : Stopping}
    (hstop : s.stopping? x = some p) (turn : StopTurn s x m p u p') :
    Settled (given || s.abandons m) (u.placeStopping p' x) := by
  have ht := h.guarded.stopTurn hstop turn
  have hturned := turn.turned hstop
  have hhold := hold_of_stopping? hstop
  have hstatus : (u.placeStopping p' x).status = u.status :=
    congrArg Control.status (control_placeStopping u p' x)
  cases turn with
  | finalize hlock hready | close hlock hready =>
    rw [abandons, Bool.or_false]
    exact goOn ht hturned (h.given_eq_false (by rw [hready]; decide)) hstatus
  | finalized n =>
    rw [abandons, Bool.or_false]
    have hstops : s.Stops := ⟨x, hhold⟩
    have hpending := h.pending_iff.2 (.inl hstops)
    exact goOn ht hturned (Bool.eq_false_iff.2 fun hgiven => h.lost hgiven hstops)
      (hstatus.trans hpending)
  | panic n =>
    rw [abandons, Bool.or_true]
    have hpending := h.pending_iff.2 (.inl ⟨x, hhold⟩)
    exact h.giveUp ht hturned (h.guarded.holder_of_stops hhold) (by decide)
      (hstatus.trans hpending)
  | cancel =>
    rw [abandons, Bool.or_false]
    have hstopped : s.cancelToken.status = .stopped := by
      rw [cancelToken]
      rfl
    exact h.done ht hturned (h.guarded.holder_of_stops hhold) (by decide)
      (Bool.eq_false_iff.2 fun hgiven => h.lost hgiven ⟨x, hhold⟩)
      (by rw [hstatus, hstopped]; decide)
  | ask | pass | leave | unwind =>
    rw [abandons, Bool.or_false]
    exact h.keep ht hturned (by rw [hhold]; decide) (by decide) hstatus

theorem step (h : Settled given s) {m : Move} (hstep : s.Step m t) :
    Settled (given || s.abandons m) t := by
  have ht := h.guarded.step hstep
  cases hstep with
  | start | stop =>
    rw [abandons, Bool.or_false]
    have hnone : s.hold (.call s.calls.length) = .none := by
      rw [hold, List.getElem?_eq_none (Nat.le_refl _)]
      rfl
    exact h.keep ht (turned_come rfl) (by rw [hnone]; decide) (by decide) rfl
  | startTurn hcall turn => exact h.startTurn hcall turn
  | stopTurn hstop turn => exact h.stopTurn hstop turn
  | runTurn hrun turn =>
    have hm : s.abandons m = false := by
      cases turn with
      | notice hm => rcases hm with rfl | ⟨rfl, -⟩ <;> rfl
      | spawn | interrupt | close | start | drop | finish => rfl
    rw [hm, Bool.or_false]
    exact h.keep ht (turn.turned hrun) (by rw [hold]; decide) (by decide) rfl
  | @dropIdle i c hcall hidle =>
    have hhold := hold_call hcall
    have hm : s.abandons (.drop i) = false := by
      rw [abandons, stopping?, hcall]
      cases hidle <;> rfl
    rw [hm, Bool.or_false]
    refine h.keep ht (turned_drop hcall rfl rfl) ?_ (by decide) rfl
    rw [hhold]
    cases hidle <;> simp [Call.hold, Starting.hold, Stopping.hold]
  | @dropWaiting i c hcall hwaits =>
    have hhold := hold_call hcall
    have hm : s.abandons (.drop i) = false := by
      rw [abandons, stopping?, hcall]
      cases hwaits <;> rfl
    rw [hm, Bool.or_false]
    refine h.keep ht (turned_drop hcall rfl rfl) ?_ (by decide) rfl
    rw [hhold]
    cases hwaits <;> decide
  | @dropFinalizing i n hcall =>
    have hhold := hold_call hcall
    have hm : s.abandons (.drop i) = true := by
      rw [abandons, stopping?, hcall]
      rfl
    rw [hm, Bool.or_true]
    exact h.giveUp ht (turned_drop hcall rfl rfl) (h.guarded.holder_of_stops hhold) (by decide)
      (h.pending_iff.2 (.inl ⟨.call i, hhold⟩))

theorem run (h : Settled given s) {moves : List Move} (hrun : s.run? moves = some t) :
    Settled (given || s.abandoned moves) t := by
  induction moves generalizing s given with
  | nil =>
    obtain rfl := Option.some.inj hrun
    rwa [abandoned, Bool.or_false]
  | cons m rest ih =>
    obtain ⟨u, hu, hrest⟩ := Option.bind_eq_some_iff.1 hrun
    have hfinal := ih (h.step (step_of_perform? hu)) hrest
    rwa [abandoned, hu, Option.any_some, ← Bool.or_assoc]

end Settled

theorem settled_new (finalizes : Bool) : Settled false (new finalizes) where
  guarded := guarded_new finalizes
  pending_iff := by
    refine iff_of_false nofun ?_
    rintro (⟨x, hx⟩ | hgiven)
    · cases x <;> nomatch hx
    · nomatch hgiven
  lost := nofun

/-! ## Pending for good -/

/-- **Pending.** After any moves the service is pending exactly if somebody has the lock and stops
    it, or a start or a stop was given up. The pending of a start that succeeds lies inside its one
    step and is never seen between two moves. So if none was given up, the service is stopped or
    ready whenever the lock is free. If one was, it is pending for good, whatever is done. -/
theorem pending_iff (finalizes : Bool) {moves : List Move}
    (hrun : (new finalizes).run? moves = some t) :
    (t.status = .pending ↔ (∃ x, t.lock.holder = some x ∧ t.hold x = .stops) ∨
        (new finalizes).abandoned moves = true) ∧
      ((new finalizes).abandoned moves = false → t.lock.holder = none →
        t.status = .stopped ∨ t.status = .ready) ∧
      ((new finalizes).abandoned moves = true →
        ∀ later u, t.run? later = some u → u.status = .pending) := by
  have h := (settled_new finalizes).run hrun
  rw [Bool.false_or] at h
  have hiff : t.status = .pending ↔ (∃ x, t.lock.holder = some x ∧ t.hold x = .stops) ∨
      (new finalizes).abandoned moves = true := by
    rw [h.pending_iff]
    refine or_congr_left ⟨?_, ?_⟩
    · rintro ⟨x, hx⟩
      exact ⟨x, h.guarded.holder_of_stops hx, hx⟩
    · rintro ⟨x, -, hx⟩
      exact ⟨x, hx⟩
  refine ⟨hiff, fun hnot hfree => ?_, fun hgiven later u hlater => ?_⟩
  · cases hstatus : t.status with
    | stopped => exact .inl rfl
    | ready => exact .inr rfl
    | pending =>
      rcases hiff.1 hstatus with ⟨x, hx, -⟩ | hgiven
      · nomatch hfree.symm.trans hx
      · nomatch hnot.symm.trans hgiven
  · have hu := (h.run hlater).pending_iff
    exact hu.2 (.inr (by rw [hgiven, Bool.true_or]))

/-- A run is stopped, and the caller of the stop drops it while the finalizer takes its time. -/
def droppedMoves : List Move :=
  [.start, .step (.call 0), .step (.call 0), .step (.call 0), .step (.supervisor 0), .step (.run 0),
    .stop, .step (.call 1), .step (.call 1), .drop 1]

/-- The service after that. -/
def leftPending : Service := ((new true).run? droppedMoves).getD (new true)

theorem pending_iff_leftPending :
    (new true).run? droppedMoves = some leftPending ∧
      ∀ later u, leftPending.run? later = some u → u.status = .pending := by
  have hrun : (new true).run? droppedMoves = some leftPending := rfl
  exact ⟨hrun, (pending_iff true hrun).2.2 rfl⟩

/-- Nobody has the lock or waits for it, and the service is pending all the same. -/
theorem leftPending_of_drop :
    ((new true).run? droppedMoves).map (fun s => (s.status, s.lock.line)) = some (.pending, []) :=
  rfl

end Service

end FrameRpc
