import FrameRpc.Proofs.LateStops
import Mathlib.Data.List.Nodup

/-!
# The line at the lock

Who has asked for the lock and has not handed it on stands in its line, once, and nobody else does
(`Lined`). So whoever waits for the lock waits for somebody who can take a step, or who runs the
finalizer (`Lined.exists_step`). While the service is ready nobody runs the finalizer: if the task
of its run is over, the supervisor of the run can take a step, or waits for the lock behind somebody
who can (`step_of_over`).
-/

namespace FrameRpc

namespace Service

/-- The stop has asked for the lock, and not handed it on. -/
def Stopping.lined : Stopping → Bool
  | .queued | .finalizing _ | .cancelling | .unlocking | .unwinding => true
  | .arriving | .done | .panicked => false

/-- The start has asked for the lock, and not handed it on. -/
def Starting.lined : Starting → Bool
  | .queued | .launching _ | .skipping | .unwinding => true
  | .arriving | .awaiting _ | .returned _ | .panicked => false

/-- A task at the place has asked for the lock, and not handed it on. -/
def Place.lined : Place → Bool
  | .call (.start p) => p.lined
  | .call (.stop p) | .watch (.closing _ p) => p.lined
  | .call .dropped | .watch .fresh | .watch .watching | .watch .interrupting => false

/-- The task has asked for the lock, and not handed it on. -/
def lined (s : Service) (x : Task) : Bool := ((s.place? x).map Place.lined).getD false

variable {s t u : Service} {x y : Task} {w : Place} {r : Nat} {run : Run} {p : Stopping} {m : Move}

theorem lined_of_place? (h : s.place? x = some w) : s.lined x = w.lined := by
  rw [lined, h, Option.map_some, Option.getD_some]

theorem Place.lined_of_stopping? (h : w.stopping? = some p) : w.lined = p.lined := by
  cases w with
  | call c =>
    cases c with
    | stop q => exact congrArg Stopping.lined (Option.some.inj h)
    | start | dropped => cases h
  | watch w =>
    cases w with
    | closing o q => exact congrArg Stopping.lined (Option.some.inj h)
    | fresh | watching | interrupting => cases h

theorem lined_of_stopping? (h : s.stopping? x = some p) : s.lined x = p.lined := by
  rw [stopping?_eq_place] at h
  obtain ⟨w, hw, hp⟩ := Option.bind_eq_some_iff.1 h
  rw [lined_of_place? hw, Place.lined_of_stopping? hp]

theorem Shifts.lined_others (h : Shifts s t x w) (hy : y ≠ x) : t.lined y = s.lined y := by
  rw [lined, lined]
  rcases h.others y hy with hsame | ⟨hnone, hfresh⟩
  · rw [hsame]
  · rw [hnone, hfresh]
    rfl

/-- Who stands in line is who has asked for the lock and has not handed it on. -/
structure Lined (s : Service) : Prop where
  nodup : s.lock.line.Nodup
  mem_iff : ∀ x, x ∈ s.lock.line ↔ s.lined x = true

theorem lined_new (finalizes : Bool) : (new finalizes).Lined where
  nodup := .nil
  mem_iff x := by cases x <;> exact ⟨nofun, nofun⟩

namespace Lined

/-- A step after which the line is as before. -/
theorem keep (h : s.Lined) (hshifts : Shifts s t x w) (hlock : t.lock = s.lock)
    (hsame : w.lined = s.lined x) : t.Lined := by
  refine ⟨hlock ▸ h.nodup, fun y => ?_⟩
  rw [hlock, h.mem_iff]
  by_cases hy : y = x
  · subst hy
    rw [lined_of_place? hshifts.own, hsame]
  · rw [hshifts.lined_others hy]

/-- Somebody asks for the lock. -/
theorem ask (h : s.Lined) (hshifts : Shifts s t x w) (hlock : t.lock = s.lock.ask x)
    (hnew : s.lined x = false) (hlined : w.lined = true) : t.Lined := by
  have hnot : x ∉ s.lock.line := fun hx => by
    rw [h.mem_iff, hnew] at hx
    cases hx
  have hline : t.lock.line = s.lock.line ++ [x] := by rw [hlock, Lock.ask]
  refine ⟨?_, fun y => ?_⟩
  · rw [hline, List.nodup_append]
    exact ⟨h.nodup, List.nodup_singleton x, by grind⟩
  · rw [hline, List.mem_append, List.mem_singleton, h.mem_iff]
    by_cases hy : y = x
    · subst hy
      rw [lined_of_place? hshifts.own, hlined]
      exact iff_of_true (.inr rfl) rfl
    · rw [hshifts.lined_others hy]
      exact or_iff_left hy

/-- Somebody no longer wants the lock. -/
theorem withdraw (h : s.Lined) (hshifts : Shifts s t x w) (hlock : t.lock = s.lock.withdraw x)
    (hlined : w.lined = false) : t.Lined := by
  have hline : t.lock.line = s.lock.line.erase x := by rw [hlock, Lock.withdraw]
  refine ⟨hline ▸ h.nodup.erase x, fun y => ?_⟩
  rw [hline, h.nodup.mem_erase_iff, h.mem_iff]
  by_cases hy : y = x
  · subst hy
    rw [lined_of_place? hshifts.own, hlined]
    exact iff_of_false (fun h => h.1 rfl) Bool.false_ne_true
  · rw [hshifts.lined_others hy]
    exact and_iff_right hy

/-- The task that has the lock hands it on. -/
theorem release (h : s.Lined) (hg : s.Guarded) (hshifts : Shifts s t x w)
    (hhas : s.hold x ≠ .none) (hlock : t.lock = s.lock.release) (hlined : w.lined = false) :
    t.Lined :=
  h.withdraw hshifts (hlock.trans (Lock.withdraw_of_holder (hg.lock x hhas)).symm) hlined

theorem startTurn (h : s.Lined) (hg : s.Guarded) {i : Nat} {p p' : Starting}
    (hcall : s.calls[i]? = some (.start p)) (turn : StartTurn s i m p u p') :
    (u.placeCall i (.start p')).Lined := by
  have hshifts := turn.shifts hcall
  have hlined : s.lined (.call i) = p.lined := lined_of_place? (place?_call hcall)
  have hhold := hold_call hcall
  cases turn with
  | ask => exact h.ask hshifts rfl hlined rfl
  | launch | crash | skip | join | joinPanicked => exact h.keep hshifts rfl hlined.symm
  | await | leave | unwind => exact h.release hg hshifts (by rw [hhold]; nofun) rfl rfl

theorem stopTurn (h : s.Lined) (hg : s.Guarded) {p' : Stopping} (hstop : s.stopping? x = some p)
    (turn : StopTurn s x m p u p') : (u.placeStopping p' x).Lined := by
  obtain ⟨w, hw, hshifts⟩ := turn.shifts hstop
  have hlock := lock_placeStopping u p' x
  have hlined := lined_of_stopping? hstop
  have hhold := hold_of_stopping? hstop
  have hw := Place.lined_of_stopping? hw
  cases turn with
  | ask => exact h.ask hshifts hlock hlined hw
  | finalize | close | pass | finalized | panic =>
    exact h.keep hshifts hlock (hw.trans hlined.symm)
  | cancel =>
    exact h.keep hshifts (hlock.trans (lock_cancelToken s)) (hw.trans hlined.symm)
  | leave | unwind => exact h.release hg hshifts (by rw [hhold]; nofun) hlock hw

theorem step (h : s.Lined) (hg : s.Guarded) (hstep : s.Step m t) : t.Lined := by
  cases hstep with
  | start | stop =>
    refine h.keep (shifts_come s _) rfl ?_
    rw [lined, place?, List.getElem?_eq_none (Nat.le_refl _)]
    rfl
  | startTurn hcall turn => exact h.startTurn hg hcall turn
  | stopTurn hstop turn => exact h.stopTurn hg hstop turn
  | runTurn hrun turn =>
    refine h.keep (turn.shifts hrun) rfl ?_
    rw [lined_of_place? (place?_supervisor hrun)]
    cases turn <;> rfl
  | dropIdle hcall hidle =>
    refine h.keep (shifts_set hcall rfl rfl) rfl ?_
    rw [lined_of_place? (place?_call hcall)]
    cases hidle <;> rfl
  | dropWaiting hcall => exact h.withdraw (shifts_set hcall rfl rfl) rfl rfl
  | dropFinalizing hcall =>
    refine h.release hg (shifts_set hcall rfl rfl) (fun hnone => ?_) rfl rfl
    rw [hold_call hcall] at hnone
    cases hnone

end Lined

/-! ## Who has the lock can take a step -/

theorem isSome_stopStep? (hlock : s.lock.holder = some x) (only : Option Nat)
    (hlined : p.lined = true) (hfinalizing : ∀ n, p ≠ .finalizing n) :
    (s.stopStep? x only p).isSome = true := by
  cases p with
  | queued =>
    rw [stopStep?, if_pos hlock]
    rfl
  | finalizing n => exact absurd rfl (hfinalizing n)
  | cancelling | unlocking | unwinding => rfl
  | arriving | done | panicked => cases hlined

theorem isSome_startStep? {i : Nat} {p : Starting} (hlock : s.lock.holder = some (.call i))
    (hlined : p.lined = true) : (s.startStep? i p).isSome = true := by
  cases p with
  | queued =>
    rw [startStep?, if_pos hlock]
    rfl
  | launching | skipping | unwinding => rfl
  | arriving | awaiting | returned | panicked => cases hlined

theorem isSome_step?_of_holder (hlock : s.lock.holder = some x) (hlined : s.lined x = true)
    (hfinalizing : ∀ n, s.stopping? x ≠ some (.finalizing n)) : (s.step? x).isSome = true := by
  cases hplace : s.place? x with
  | none =>
    rw [lined, hplace] at hlined
    cases hlined
  | some w =>
    rw [lined_of_place? hplace] at hlined
    rw [stopping?_eq_place, hplace, Option.bind_some] at hfinalizing
    cases x with
    | call i =>
      obtain ⟨c, hcall, rfl⟩ := Option.map_eq_some_iff.1 hplace
      rw [step?, callStep?, hcall]
      cases c with
      | start p => exact isSome_startStep? hlock hlined
      | stop p =>
        rw [Option.isSome_map]
        exact isSome_stopStep? hlock none hlined fun n hp => hfinalizing n (congrArg some hp)
      | dropped => cases hlined
    | supervisor r =>
      obtain ⟨run, hrun, rfl⟩ := Option.map_eq_some_iff.1 hplace
      rw [step?, watchStep?, hrun]
      cases hwatch : run.watch with
      | closing o p =>
        rw [hwatch] at hlined hfinalizing
        simp only [Option.bind_eq_bind, Option.bind_some, hwatch, Option.isSome_map]
        exact isSome_stopStep? hlock _ hlined fun n hp => hfinalizing n (congrArg some hp)
      | fresh | watching | interrupting =>
        rw [hwatch] at hlined
        cases hlined
    | run r => cases hplace

/-- Somebody waits for the lock of a service that is ready: who has it can take a step. -/
theorem Lined.exists_step (h : s.Lined) (hg : s.Guarded) (hready : s.status = .ready)
    (hwaits : s.lined x = true) :
    ∃ y, s.lock.holder = some y ∧ (s.step? y).isSome = true := by
  have hmem := (h.mem_iff x).2 hwaits
  cases hline : s.lock.line with
  | nil =>
    rw [hline] at hmem
    cases hmem
  | cons y rest =>
    have hholder : s.lock.holder = some y := by rw [Lock.holder, hline, List.head?_cons]
    have hlined : s.lined y = true := (h.mem_iff y).1 (hline ▸ List.mem_cons_self)
    refine ⟨y, hholder, isSome_step?_of_holder hholder hlined fun n hn => ?_⟩
    -- Whoever runs the finalizer has made the service pending.
    have hpending := hg.stops y (hold_of_stopping? hn)
    have hn := cycle_eq_ready_iff.1 (hg.status_eq ▸ hready)
    omega

/-! ## When the task of the current run is over -/

/-- The task of the run has ended by itself, or it was dropped. -/
def Run.over (run : Run) : Bool :=
  match run.progress with
  | .ended _ | .dropped => true
  | .created | .spawned | .running => false

/-- A run is interrupted only once its token is cancelled, and dropped only once it is
    interrupted. -/
structure Run.Heeds (run : Run) : Prop where
  interrupted : run.interrupted = true → run.cancelled = true
  dropped : run.progress = .dropped → run.interrupted = true

/-- A task that is over without having been cancelled has ended by itself. -/
theorem Run.Heeds.exists_ended (h : run.Heeds) (halive : run.cancelled = false)
    (hover : run.over = true) : ∃ e, run.progress = .ended e := by
  cases hprogress : run.progress with
  | ended e => exact ⟨e, rfl⟩
  | dropped =>
    -- It would have been interrupted.
    have hcancelled := h.interrupted (h.dropped hprogress)
    rw [halive] at hcancelled
    cases hcancelled
  | created | spawned | running =>
    rw [Run.over, hprogress] at hover
    cases hover

theorem RunTurn.heeds {run' : Run} {events : List Event} (h : run.Heeds)
    (turn : RunTurn r m run run' events) : run'.Heeds := by
  obtain ⟨hinterrupted, hdropped⟩ := h
  cases turn with
  | spawn | start | finish => exact ⟨hinterrupted, nofun⟩
  | interrupt => exact ⟨fun _ => rfl, fun _ => rfl⟩
  | notice | close => exact ⟨hinterrupted, hdropped⟩
  | drop => exact ⟨hinterrupted, fun _ => rfl⟩

theorem Step.heeds (hstep : s.Step m t) (h : ∀ run ∈ s.runs, run.Heeds) :
    ∀ run ∈ t.runs, run.Heeds :=
  hstep.forall_runs (fun _ => ⟨nofun, nofun⟩) (fun _ hrun => ⟨fun _ => rfl, hrun.dropped⟩)
    (fun _ _ _ _ _ hrun => ⟨hrun.interrupted, hrun.dropped⟩)
    (fun _ _ _ _ _ turn hrun => turn.heeds hrun) h

/-- What is known of a service that was new once. -/
theorem lined_of_run? {finalizes : Bool} {moves : List Move}
    (hrun : (new finalizes).run? moves = some t) : t.Lined ∧ ∀ run ∈ t.runs, run.Heeds := by
  have h := of_run? (P := fun s => s.Guarded ∧ s.Lined ∧ ∀ run ∈ s.runs, run.Heeds)
    (fun hstep h => ⟨h.1.step hstep, h.2.1.step h.1 hstep, hstep.heeds h.2.2⟩)
    ⟨guarded_new finalizes, lined_new finalizes, fun _ hmem => nomatch hmem⟩ hrun
  exact h.2

/-- The run of a service that is ready has not been cancelled. -/
theorem Guarded.cancelled_eq_false (h : s.Guarded) (hready : s.status = .ready)
    (hrun : s.runs[r]? = some run) (hcurrent : run.generation = s.generation) :
    run.cancelled = false := by
  have hlength := (h.current_iff hrun).1 ⟨hready, hcurrent⟩
  obtain ⟨-, hc⟩ := Prod.mk.inj (ticket_of_control h.control hrun)
  rw [hc, tokenAfter_of_le (by omega), show s.published.length / 4 = r by omega]
  exact decide_eq_false (not_not_intro rfl)

/-- The service is ready, and the task of its run is over: the supervisor of the run has not
    finished, and it can take a step, or waits for the lock behind somebody who can. -/
theorem step_of_over (h : s.Timely) (hg : s.Guarded) (hlined : s.Lined)
    (hheeds : ∀ run ∈ s.runs, run.Heeds) (hready : s.status = .ready)
    (hrun : s.runs[r]? = some run) (hcurrent : run.generation = s.generation)
    (hover : run.over = true) :
    run.closed = false ∧ ((s.step? (.supervisor r)).isSome = true ∨
      s.stopping? (.supervisor r) = some .queued ∧
        ∃ y, s.lock.holder = some y ∧ (s.step? y).isSome = true) := by
  have hclosed : run.closed = false := Bool.eq_false_iff.2 fun hclosed =>
    h.not_current hg hrun hclosed [] rfl ⟨hready, hcurrent.symm⟩
  refine ⟨hclosed, ?_⟩
  have halive := hg.cancelled_eq_false hready hrun hcurrent
  obtain ⟨e, hended⟩ := (hheeds run (List.mem_of_getElem? hrun)).exists_ended halive hover
  cases hwatch : run.watch with
  | fresh =>
    left
    simp [step?, watchStep?, hrun, hwatch]
  | watching =>
    left
    simp [step?, watchStep?, hrun, hwatch, halive, hended]
  | interrupting =>
    left
    simp [step?, watchStep?, hrun, hwatch, hended]
  | closing o p =>
    have hstop := stopping?_of_supervisor hrun hwatch
    cases hentered : p.entered with
    | true =>
      have hpast := h.entered r p hstop hentered
      have hlength := (hg.current_iff hrun).1 ⟨hready, hcurrent⟩
      omega
    | false =>
      cases p with
      | arriving =>
        left
        simp [step?, watchStep?, hrun, hwatch, stopStep?]
      | queued => exact .inr ⟨hstop, hlined.exists_step hg hready (lined_of_stopping? hstop)⟩
      | finalizing | cancelling | unlocking | unwinding | done | panicked => cases hentered

end Service

end FrameRpc
