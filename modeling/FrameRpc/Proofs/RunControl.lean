import FrameRpc.Proofs.Standing

/-!
# Run control

The status of a service goes round: it is stopped, pending, ready, pending, and stopped again
(`cycle`). More than that, how often it has changed tells all that the lock guards, and which tokens
are cancelled (`Control.after`): the statuses that were published, the generation, the token that
is kept, and for each run its generation and whether its token is cancelled.

This is an invariant because whoever changes the status has the lock, and no two tasks have it
(`Guarded`). A start call changes it twice in one step, so that it is pending after an odd number of
changes only while a stop is in progress, or for good: the factory panicked, or a stop was given up.
-/

namespace FrameRpc

namespace Lock

variable {τ : Type} {l : Lock τ} {x y : τ}

theorem holder_ask_of_some (h : l.holder = some y) : (l.ask x).holder = some y := by
  rw [holder_ask, h]
  rfl

/-- Who waits for the lock can leave the line, and the holder keeps it. -/
theorem holder_withdraw_of_ne [DecidableEq τ] (hne : y ≠ x) (h : l.holder = some y) :
    (l.withdraw x).holder = some y := by
  obtain ⟨line⟩ := l
  cases line with
  | nil => nomatch h
  | cons a rest =>
    obtain rfl := Option.some.inj h
    rw [withdraw, List.erase_cons_tail (by simpa using hne)]
    rfl

end Lock

namespace Service

/-! ## What is controlled -/

/-- The status after `n` changes of it. -/
def cycle (n : Nat) : Status :=
  if n % 4 = 0 then .stopped else if n % 4 = 2 then .ready else .pending

theorem cycle_eq_stopped_iff {n : Nat} : cycle n = .stopped ↔ n % 4 = 0 := by
  grind [cycle]

theorem cycle_eq_ready_iff {n : Nat} : cycle n = .ready ↔ n % 4 = 2 := by
  grind [cycle]

theorem cycle_eq_pending_iff {n : Nat} : cycle n = .pending ↔ n % 2 = 1 := by
  grind [cycle]

/-- The generation of a run, and whether its token is cancelled. -/
def Run.ticket (run : Run) : Nat × Bool := (run.generation, run.cancelled)

/-- What the lock guards, and what became of the tokens. -/
@[ext]
structure Control where
  /-- What the service is doing. -/
  status : Status
  /-- The statuses that were published. -/
  published : List Status
  /-- The number of starts. -/
  generation : Nat
  /-- The run whose token is kept. -/
  token : Option Nat
  /-- The generation of each run, and whether its token is cancelled. -/
  tickets : List (Nat × Bool)

/-- The control of a service. -/
def control (s : Service) : Control :=
  ⟨s.status, s.published, s.generation, s.token, s.runs.map Run.ticket⟩

/-- The token that is kept after `n` changes of status. -/
def tokenAfter (n : Nat) : Option Nat := if n % 4 < 2 then none else some (n / 4)

theorem tokenAfter_of_lt {n : Nat} (h : n % 4 < 2) : tokenAfter n = none := if_pos h

theorem tokenAfter_of_le {n : Nat} (h : 2 ≤ n % 4) : tokenAfter n = some (n / 4) :=
  if_neg (Nat.not_lt.2 h)

/-- A change of status to pending leaves the token alone. -/
theorem tokenAfter_succ {n : Nat} (h : n % 2 = 0) : tokenAfter (n + 1) = tokenAfter n := by
  by_cases hn : n % 4 < 2
  · rw [tokenAfter_of_lt hn, tokenAfter_of_lt (by omega)]
  · rw [tokenAfter_of_le (Nat.not_lt.1 hn), tokenAfter_of_le (by omega),
      show (n + 1) / 4 = n / 4 by omega]

/-- The control after `n` changes of status. The generations are the numbers of the runs, from one,
    and the token that is kept is the only one that is not cancelled. -/
def Control.after (n : Nat) : Control where
  status := cycle n
  published := (List.range n).map fun k => cycle (k + 1)
  generation := (n + 3) / 4
  token := tokenAfter n
  tickets := (List.range ((n + 2) / 4)).map fun r => (r + 1, decide (tokenAfter n ≠ some r))

theorem Control.after_published_succ (n : Nat) :
    (after (n + 1)).published = (after n).published ++ [cycle (n + 1)] := by
  rw [after, after, List.range_succ, List.map_append]
  rfl

variable {s t u : Service} {n : Nat}

theorem control_placeStopping (s : Service) (p : Stopping) (x : Task) :
    (s.placeStopping p x).control = s.control := by
  cases x with
  | call i => rfl
  | supervisor r =>
    have hticket : (s.placeStopping p (.supervisor r)).runs.map Run.ticket =
        s.runs.map Run.ticket := by
      refine map_modifyRun (fun run => ?_) s r
      split <;> rfl
    exact Control.ext rfl rfl rfl rfl hticket
  | run r => rfl

theorem lock_placeStopping (s : Service) (p : Stopping) (x : Task) :
    (s.placeStopping p x).lock = s.lock := by
  cases x <;> rfl

theorem published_placeStopping (s : Service) (p : Stopping) (x : Task) :
    (s.placeStopping p x).published = s.published := by
  cases x <;> rfl

theorem lock_cancelToken (s : Service) : s.cancelToken.lock = s.lock := by
  rw [cancelToken]
  cases s.token <;> rfl

/-- A step publishes at most two statuses. -/
theorem Step.published_le {m : Move} (h : s.Step m t) :
    s.published.length ≤ t.published.length ∧ t.published.length ≤ s.published.length + 2 := by
  cases h with
  | start | stop | runTurn | dropIdle | dropWaiting | dropFinalizing =>
    exact ⟨Nat.le_refl _, Nat.le_add_right _ _⟩
  | startTurn hcall turn =>
    cases turn with
    | launch | crash => simp [launch, publish, placeCall]
    | ask | skip | await | leave | unwind | join | joinPanicked =>
      exact ⟨Nat.le_refl _, Nat.le_add_right _ _⟩
  | stopTurn hstop turn =>
    rw [published_placeStopping]
    cases turn with
    | cancel =>
      rw [cancelToken]
      cases s.token <;> simp [publish, modifyRun]
    | finalize | close => simp [publish, tell]
    | ask | pass | finalized | panic | leave | unwind =>
      exact ⟨Nat.le_refl _, Nat.le_add_right _ _⟩

/-! ## From one control to the next -/

theorem published_of_control (h : s.control = .after n) :
    s.published = (List.range n).map fun k => cycle (k + 1) := congrArg Control.published h

theorem length_of_control (h : s.control = .after n) : s.published.length = n := by
  rw [published_of_control h, List.length_map, List.length_range]

theorem generation_of_control (h : s.control = .after n) : s.generation = (n + 3) / 4 :=
  congrArg Control.generation h

theorem token_of_control (h : s.control = .after n) : s.token = tokenAfter n :=
  congrArg Control.token h

theorem tickets_of_control (h : s.control = .after n) : s.runs.map Run.ticket =
    (List.range ((n + 2) / 4)).map fun r => (r + 1, decide (tokenAfter n ≠ some r)) :=
  congrArg Control.tickets h

theorem runs_of_control (h : s.control = .after n) : s.runs.length = (n + 2) / 4 := by
  have hlength := congrArg List.length (tickets_of_control h)
  rwa [List.length_map, List.length_map, List.length_range] at hlength

/-- The ticket of a run, by its number. -/
theorem ticket_of_control (h : s.control = .after n) {r : Nat} {run : Run}
    (hrun : s.runs[r]? = some run) : run.ticket = (r + 1, decide (tokenAfter n ≠ some r)) := by
  have hr : r < (n + 2) / 4 := runs_of_control h ▸ (List.getElem?_eq_some_iff.1 hrun).1
  have hticket := congrArg (fun tickets => tickets[r]?) (tickets_of_control h)
  rw [List.getElem?_map, List.getElem?_map, hrun, List.getElem?_range hr] at hticket
  exact Option.some.inj hticket

/-- A run is launched. -/
theorem control_launch (h : s.control = .after n) (hn : n % 4 = 0) (i : Nat) :
    (s.launch i).control = .after (n + 2) := by
  have hgeneration := generation_of_control h
  have hruns := runs_of_control h
  have htoken : tokenAfter (n + 2) = some s.runs.length := by
    rw [tokenAfter_of_le (by omega), hruns]
  apply Control.ext
  · exact (cycle_eq_ready_iff.2 (by omega)).symm
  · rw [Control.after_published_succ, Control.after_published_succ,
      cycle_eq_pending_iff.2 (by omega), cycle_eq_ready_iff.2 (by omega), ← h, List.append_assoc]
    rfl
  · show s.generation + 1 = (n + 2 + 3) / 4
    omega
  · exact htoken.symm
  · have hold : s.runs.map Run.ticket =
        (List.range s.runs.length).map fun r => (r + 1, decide (tokenAfter (n + 2) ≠ some r)) := by
      rw [tickets_of_control h, hruns]
      refine List.map_congr_left fun r hr => ?_
      have hne : s.runs.length ≠ r := by
        have hlt := List.mem_range.1 hr
        omega
      rw [htoken, tokenAfter_of_lt (by omega)]
      simp [hne]
    show (s.runs ++ [_]).map Run.ticket = (List.range ((n + 2 + 2) / 4)).map _
    rw [List.map_append, hold, show (n + 2 + 2) / 4 = s.runs.length + 1 by omega,
      List.range_succ, List.map_append, htoken]
    simp [Run.ticket]
    omega

/-- The service becomes pending: a start or a stop begins. -/
theorem control_pending (h : s.control = .after n) (hn : n % 2 = 0) {g : Nat}
    (hg : g = (n + 1 + 3) / 4) :
    control { s.publish .pending with generation := g } = .after (n + 1) := by
  apply Control.ext
  · exact (cycle_eq_pending_iff.2 (by omega)).symm
  · rw [Control.after_published_succ, cycle_eq_pending_iff.2 (by omega), ← h]
    rfl
  · exact hg
  · exact (token_of_control h).trans (tokenAfter_succ hn).symm
  · show s.runs.map Run.ticket = (Control.after (n + 1)).tickets
    rw [tickets_of_control h, Control.after, tokenAfter_succ hn,
      show (n + 1 + 2) / 4 = (n + 2) / 4 by omega]

/-- A stop cancels the only token that was not cancelled. -/
theorem control_cancelToken (h : s.control = .after n) (hn : n % 4 = 3) :
    s.cancelToken.control = .after (n + 1) := by
  have hgeneration := generation_of_control h
  have hkept := tokenAfter_of_le (n := n) (by omega)
  have hnone := tokenAfter_of_lt (n := n + 1) (by omega)
  rw [cancelToken, token_of_control h, hkept]
  apply Control.ext
  · exact (cycle_eq_stopped_iff.2 (by omega)).symm
  · rw [Control.after_published_succ, cycle_eq_stopped_iff.2 (by omega), ← h]
    rfl
  · show s.generation = (n + 1 + 3) / 4
    omega
  · exact hnone.symm
  · show (s.runs.modify (n / 4) fun run => { run with cancelled := true }).map Run.ticket =
      (List.range ((n + 1 + 2) / 4)).map fun r => (r + 1, decide (tokenAfter (n + 1) ≠ some r))
    rw [hnone, show (n + 1 + 2) / 4 = s.runs.length by have := runs_of_control h; omega]
    refine List.ext_getElem (by simp) fun r hr _ => ?_
    rw [List.length_map, List.length_modify] at hr
    obtain ⟨hg, hc⟩ := Prod.mk.inj (ticket_of_control h (List.getElem?_eq_getElem hr))
    rw [List.getElem_map, List.getElem_modify, List.getElem_map, List.getElem_range]
    split
    · simp [Run.ticket, hg]
    · rename_i hne
      rw [hkept] at hc
      simp [Run.ticket, hg, hc, hne]

/-! ## Who has the lock -/

/-- What a task does with the lock. -/
inductive Hold where
  /-- It does not have it. -/
  | none
  /-- It has it and stops the service. -/
  | stops
  /-- It has it and is about to hand it on. -/
  | passes
  deriving DecidableEq

/-- What a stop does with the lock. -/
def Stopping.hold : Stopping → Hold
  | .finalizing _ | .cancelling => .stops
  | .unlocking | .unwinding => .passes
  | .arriving | .queued | .done | .panicked => .none

/-- What a start call does with the lock. -/
def Starting.hold : Starting → Hold
  | .launching _ | .skipping | .unwinding => .passes
  | .arriving | .queued | .awaiting _ | .returned _ | .panicked => .none

/-- What a call does with the lock. -/
def Call.hold : Call → Hold
  | .start p => p.hold
  | .stop p => p.hold
  | .dropped => .none

/-- What a supervisor does with the lock. -/
def Watch.hold : Watch → Hold
  | .closing _ p => p.hold
  | .fresh | .watching | .interrupting => .none

/-- What a task does with the lock, if it exists. -/
def hold (s : Service) : Task → Hold
  | .call i => (s.calls[i]?.map Call.hold).getD .none
  | .supervisor r => ((s.runs.map Run.watch)[r]?.map Watch.hold).getD .none
  | .run _ => .none

/-- What a task at a place does with the lock. -/
def Place.hold : Place → Hold
  | .call c => c.hold
  | .watch w => w.hold

theorem Place.hold_of_stopping? {w : Place} {p : Stopping} (h : w.stopping? = some p) :
    w.hold = p.hold := by
  cases w with
  | call c =>
    cases c with
    | stop q => exact congrArg Stopping.hold (Option.some.inj h)
    | start | dropped => cases h
  | watch w =>
    cases w with
    | closing o q => exact congrArg Stopping.hold (Option.some.inj h)
    | fresh | watching | interrupting => cases h

theorem hold_eq_place (s : Service) (x : Task) :
    s.hold x = ((s.place? x).map Place.hold).getD .none := by
  cases x with
  | call i =>
    rw [hold, place?, Option.map_map]
    rfl
  | supervisor r =>
    rw [hold, place?, List.getElem?_map, Option.map_map, Option.map_map]
    rfl
  | run r => rfl

theorem hold_of_place? {x : Task} {w : Place} (h : s.place? x = some w) : s.hold x = w.hold := by
  rw [hold_eq_place, h, Option.map_some, Option.getD_some]

theorem hold_call {i : Nat} {c : Call} (h : s.calls[i]? = some c) : s.hold (.call i) = c.hold :=
  hold_of_place? (place?_call h)

theorem hold_of_stopping? {x : Task} {p : Stopping} (h : s.stopping? x = some p) :
    s.hold x = p.hold := by
  rw [stopping?_eq_place] at h
  obtain ⟨w, hw, hp⟩ := Option.bind_eq_some_iff.1 h
  rw [hold_of_place? hw, Place.hold_of_stopping? hp]

/-- From `s` to `t` only one task changes what it does with the lock. -/
structure Turned (s t : Service) (x : Task) (h : Hold) : Prop where
  own : t.hold x = h
  others : ∀ y, y ≠ x → t.hold y = s.hold y

theorem Shifts.turned {x : Task} {w : Place} (h : Shifts s t x w) : Turned s t x w.hold where
  own := hold_of_place? h.own
  others y hy := by
    rw [hold_eq_place, hold_eq_place]
    rcases h.others y hy with hsame | ⟨hnone, hfresh⟩
    · rw [hsame]
    · rw [hnone, hfresh]
      rfl

theorem StopTurn.turned {x : Task} {m : Move} {p p' : Stopping} (hstop : s.stopping? x = some p)
    (h : StopTurn s x m p u p') : Turned s (u.placeStopping p' x) x p'.hold := by
  obtain ⟨w, hw, hshifts⟩ := h.shifts hstop
  exact Place.hold_of_stopping? hw ▸ hshifts.turned

theorem StartTurn.turned {i : Nat} {m : Move} {p p' : Starting}
    (hcall : s.calls[i]? = some (.start p)) (h : StartTurn s i m p u p') :
    Turned s (u.placeCall i (.start p')) (.call i) p'.hold :=
  (h.shifts hcall).turned

/-- Where its supervisor has the lock already, it keeps it. -/
theorem RunTurn.hold_eq {r : Nat} {m : Move} {run run' : Run} {events : List Event}
    (h : RunTurn r m run run' events) : run'.watch.hold = run.watch.hold := by
  cases h <;> rfl

theorem RunTurn.turned {r : Nat} {m : Move} {run run' : Run} {events : List Event}
    (hrun : s.runs[r]? = some run) (h : RunTurn r m run run' events) :
    Turned s { s with runs := s.runs.set r run', log := s.log ++ events } (.run r) .none := by
  have hturned := (h.shifts hrun).turned
  refine ⟨rfl, fun y _ => ?_⟩
  by_cases hy : y = .supervisor r
  · subst hy
    rw [hturned.own, hold_of_place? (place?_supervisor hrun)]
    exact h.hold_eq
  · exact hturned.others y hy

theorem turned_come {c : Call} (hc : c.hold = .none) :
    Turned s { s with calls := s.calls ++ [c] } (.call s.calls.length) .none :=
  hc ▸ (shifts_come s c).turned

theorem turned_drop {i : Nat} {c : Call} (hcall : s.calls[i]? = some c)
    (hcalls : t.calls = s.calls.set i .dropped) (hruns : t.runs = s.runs) :
    Turned s t (.call i) .none :=
  (shifts_set hcall hcalls hruns).turned

theorem RunTurn.ticket_eq {r : Nat} {m : Move} {run run' : Run} {events : List Event}
    (h : RunTurn r m run run' events) : run'.ticket = run.ticket := by
  cases h <;> rfl

/-- A run takes its turn without the lock. -/
theorem RunTurn.control_eq {r : Nat} {m : Move} {run run' : Run} {events : List Event}
    (hrun : s.runs[r]? = some run) (h : RunTurn r m run run' events) :
    control { s with runs := s.runs.set r run', log := s.log ++ events } = s.control := by
  have htickets : (s.runs.set r run').map Run.ticket = s.runs.map Run.ticket := by
    obtain ⟨hr, rfl⟩ := List.getElem?_eq_some_iff.1 hrun
    rw [List.map_set, h.ticket_eq, ← List.getElem_map Run.ticket, List.set_getElem_self]
    rwa [List.length_map]
  exact Control.ext rfl rfl rfl rfl htickets

/-! ## The invariant -/

/-- The state is what the changes of status make it, the tasks that have the lock have it, and a
    stop that is in progress has been so since the last change. -/
structure Guarded (s : Service) : Prop where
  control : s.control = .after s.published.length
  lock : ∀ x, s.hold x ≠ .none → s.lock.holder = some x
  stops : ∀ x, s.hold x = .stops → s.published.length % 4 = 3

namespace Guarded

/-- The task that has the lock goes on with it, and may change the status. -/
theorem proceed (h : s.Guarded) {x : Task} {g : Hold} (hturned : Turned s t x g)
    (hlock : s.lock.holder = some x) (hkeeps : t.lock = s.lock) {n : Nat}
    (hcontrol : t.control = .after n) (hstops : g = .stops → n % 4 = 3) : t.Guarded := by
  have hlength := length_of_control hcontrol
  -- No other task has the lock.
  have hothers : ∀ y, t.hold y ≠ .none → y = x := fun y hy =>
    Decidable.byContradiction fun hne => hne <|
      Option.some.inj ((h.lock y (hturned.others y hne ▸ hy)).symm.trans hlock)
  refine ⟨hlength ▸ hcontrol, fun y hy => ?_, fun y hy => ?_⟩
  · rw [hkeeps, hlock, hothers y hy]
  · obtain rfl := hothers y (by rw [hy]; nofun)
    exact hlength ▸ hstops (hturned.own ▸ hy)

/-- A task that does not have the lock, or has handed it on, leaves the status alone. -/
theorem wait (h : s.Guarded) {x : Task} (hturned : Turned s t x .none)
    (hlock : ∀ y, y ≠ x → s.lock.holder = some y → t.lock.holder = some y)
    (hcontrol : t.control = s.control) : t.Guarded := by
  have hpublished : t.published = s.published := congrArg Control.published hcontrol
  have hothers : ∀ y, t.hold y ≠ .none → y ≠ x := by
    rintro y hy rfl
    exact hy hturned.own
  refine ⟨?_, fun y hy => ?_, fun y hy => ?_⟩
  · rw [hcontrol, hpublished]
    exact h.control
  · have hne := hothers y hy
    exact hlock y hne (h.lock y (hturned.others y hne ▸ hy))
  · rw [hpublished]
    exact h.stops y (hturned.others y (hothers y (by rw [hy]; nofun)) ▸ hy)

/-- The task that has the lock hands it on. -/
theorem release (h : s.Guarded) {x : Task} (hturned : Turned s t x .none)
    (hhas : s.hold x ≠ .none) (hcontrol : t.control = s.control) : t.Guarded :=
  h.wait hturned
    (fun _ hne hlock => (hne (Option.some.inj (hlock.symm.trans (h.lock x hhas)))).elim) hcontrol

theorem status_eq (h : s.Guarded) : s.status = cycle s.published.length :=
  congrArg Control.status h.control

theorem startTurn (h : s.Guarded) {i : Nat} {m : Move} {p p' : Starting}
    (hcall : s.calls[i]? = some (.start p)) (turn : StartTurn s i m p u p') :
    (u.placeCall i (.start p')).Guarded := by
  have hturned := turn.turned hcall
  have hhold := hold_call hcall
  cases turn with
  | ask => exact h.wait hturned (fun _ _ => Lock.holder_ask_of_some) rfl
  | launch hlock hstatus =>
    have hn := cycle_eq_stopped_iff.1 (h.status_eq ▸ hstatus)
    exact h.proceed hturned hlock rfl (control_launch h.control hn i) nofun
  | crash hlock hstatus =>
    have hn := cycle_eq_stopped_iff.1 (h.status_eq ▸ hstatus)
    have hg := generation_of_control h.control
    have hpending := control_pending h.control (by omega) (g := s.generation + 1) (by omega)
    exact h.proceed hturned hlock rfl hpending nofun
  | skip hlock hstatus => exact h.proceed hturned hlock rfl h.control nofun
  | await | leave | unwind =>
    exact h.release hturned (by rw [hhold]; nofun) rfl
  | join | joinPanicked => exact h.wait hturned (fun _ _ hy => hy) rfl

theorem stopTurn (h : s.Guarded) {x : Task} {m : Move} {p p' : Stopping}
    (hstop : s.stopping? x = some p) (turn : StopTurn s x m p u p') :
    (u.placeStopping p' x).Guarded := by
  have hturned := turn.turned hstop
  have hhold := hold_of_stopping? hstop
  have hcontrol := control_placeStopping u p' x
  have hlock := lock_placeStopping u p' x
  cases turn with
  | ask =>
    exact h.wait hturned (fun y _ hy => by rw [hlock]; exact Lock.holder_ask_of_some hy) hcontrol
  | finalize hholder hstatus | close hholder hstatus =>
    have hn := cycle_eq_ready_iff.1 (h.status_eq ▸ hstatus)
    have hg := generation_of_control h.control
    have hpending := control_pending h.control (by omega) (g := s.generation) (by omega)
    exact h.proceed hturned hholder hlock (hcontrol.trans hpending) fun _ => by omega
  | pass hholder => exact h.proceed hturned hholder hlock (hcontrol.trans h.control) nofun
  | finalized n | panic n =>
    have hholder := h.lock x (by rw [hhold]; nofun)
    exact h.proceed hturned hholder hlock (hcontrol.trans h.control) fun _ => h.stops x hhold
  | cancel =>
    have hholder := h.lock x (by rw [hhold]; nofun)
    have hn := h.stops x hhold
    exact h.proceed hturned hholder (hlock.trans (lock_cancelToken s))
      (hcontrol.trans (control_cancelToken h.control hn)) nofun
  | leave | unwind =>
    exact h.release hturned (by rw [hhold]; nofun) hcontrol

theorem runTurn (h : s.Guarded) {r : Nat} {m : Move} {run run' : Run} {events : List Event}
    (hrun : s.runs[r]? = some run) (turn : RunTurn r m run run' events) :
    Guarded { s with runs := s.runs.set r run', log := s.log ++ events } :=
  h.wait (turn.turned hrun) (fun _ _ hy => hy) (turn.control_eq hrun)

theorem step (h : s.Guarded) {m : Move} (hstep : s.Step m t) : t.Guarded := by
  cases hstep with
  | start | stop => exact h.wait (turned_come rfl) (fun _ _ hy => hy) rfl
  | startTurn hcall turn => exact h.startTurn hcall turn
  | stopTurn hstop turn => exact h.stopTurn hstop turn
  | runTurn hrun turn => exact h.runTurn hrun turn
  | dropIdle hcall hidle =>
    exact h.wait (turned_drop hcall rfl rfl) (fun _ _ hy => hy) rfl
  | dropWaiting hcall hwaits =>
    exact h.wait (turned_drop hcall rfl rfl) (fun _ hy => Lock.holder_withdraw_of_ne hy) rfl
  | dropFinalizing hcall =>
    exact h.release (turned_drop hcall rfl rfl) (by rw [hold_call hcall]; nofun) rfl

end Guarded

theorem guarded_new (finalizes : Bool) : (new finalizes).Guarded where
  control := by
    show (new finalizes).control = .after 0
    rfl
  lock x h := by
    cases x <;> exact (h rfl).elim
  stops x h := by
    cases x <;> nomatch h

theorem Guarded.run (h : s.Guarded) {moves : List Move} (hrun : s.run? moves = some t) :
    t.Guarded :=
  of_run? (fun hstep h => Guarded.step h hstep) h hrun

/-! ## What the invariant says -/

namespace Guarded

theorem generation_eq (h : s.Guarded) : s.generation = (s.published.length + 3) / 4 :=
  generation_of_control h.control

/-- While the service is ready, the token that is kept is that of the latest run, and alive. -/
theorem of_ready (h : s.Guarded) (hready : s.status = .ready) :
    ∃ r run, s.token = some r ∧ s.runs[r]? = some run ∧ run.generation = s.generation ∧
      run.cancelled = false := by
  have hn := cycle_eq_ready_iff.1 (h.status_eq ▸ hready)
  have hgeneration := h.generation_eq
  have hkept := tokenAfter_of_le (n := s.published.length) (by omega)
  have hr : s.published.length / 4 < s.runs.length := by
    have hruns := runs_of_control h.control
    omega
  have hrun := List.getElem?_eq_getElem hr
  obtain ⟨hg, hc⟩ := Prod.mk.inj (ticket_of_control h.control hrun)
  refine ⟨_, _, (token_of_control h.control).trans hkept, hrun, by omega, ?_⟩
  rw [hc, hkept]
  simp

/-- A token that is not cancelled is the one that is kept. -/
theorem eq_token (h : s.Guarded) {r : Nat} {run : Run} (hrun : s.runs[r]? = some run)
    (halive : run.cancelled = false) : s.token = some r := by
  obtain ⟨-, hc⟩ := Prod.mk.inj (ticket_of_control h.control hrun)
  rw [token_of_control h.control]
  exact Decidable.of_not_not (of_decide_eq_false (hc.symm.trans halive))

theorem of_stopped (h : s.Guarded) (hstopped : s.status = .stopped) :
    s.token = none ∧ ∀ run ∈ s.runs, run.cancelled = true := by
  have hn := cycle_eq_stopped_iff.1 (h.status_eq ▸ hstopped)
  have hnone : s.token = none :=
    (token_of_control h.control).trans (tokenAfter_of_lt (by omega))
  refine ⟨hnone, fun run hmem => ?_⟩
  obtain ⟨r, hrun⟩ := List.getElem?_of_mem hmem
  cases hc : run.cancelled with
  | true => rfl
  | false => nomatch hnone.symm.trans (h.eq_token hrun hc)

theorem countP_alive_le_one (h : s.Guarded) : s.runs.countP (fun run => !run.cancelled) ≤ 1 := by
  have hcount : s.runs.countP (fun run => !run.cancelled) =
      (s.runs.map Run.ticket).countP fun ticket => !ticket.2 := by
    rw [List.countP_map]
    rfl
  rw [hcount, tickets_of_control h.control, List.countP_map]
  cases htoken : tokenAfter s.published.length with
  | none => simp [Function.comp_def]
  | some k =>
    have hk : ((List.range ((s.published.length + 2) / 4)).countP fun r => r == k) ≤ 1 :=
      List.nodup_iff_count.1 List.nodup_range k
    refine Nat.le_trans (List.countP_mono_left fun r _ hr => ?_) hk
    have hr : (!decide (some k ≠ some r)) = true := hr
    have heq : k = r := by simpa using hr
    exact beq_iff_eq.2 heq.symm

end Guarded

end Service

end FrameRpc
