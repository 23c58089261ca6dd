import FrameRpc.Service.Basic

/-!
# Steps of services

What a move can do to a service, case by case (`Step`): which task or call moves, from where to
where, and what becomes of everything else. Every move that is possible is one of these steps
(`step_of_perform?`), so that an invariant is checked once for each of them.

Almost all of them are turns. A start call takes a `StartTurn`, whoever stops the service, be it a
call or a supervisor, takes a `StopTurn`, and the task and the supervisor of a run, as long as
they leave the lock alone, take a `RunTurn`, which changes only the run. What is left is that calls
come in and are dropped.
-/

namespace FrameRpc

namespace Service

/-! ## Turns -/

/-- A run is launched. -/
def launch (s : Service) (i : Nat) : Service :=
  { s with
    status := .ready
    published := s.published ++ [.pending, .ready]
    generation := s.generation + 1
    token := some s.runs.length
    runs := s.runs ++ [⟨s.generation + 1, .created, .fresh, false, false⟩]
    log := s.log ++ [.created s.runs.length i] }

/-- How a start call goes on: the move, where it stood, what becomes of the service, and where it
    stands then. -/
inductive StartTurn (s : Service) (i : Nat) : Move → Starting → Service → Starting → Prop where
  | ask : StartTurn s i (.step (.call i)) .arriving { s with lock := s.lock.ask (.call i) } .queued
  | launch (hlock : s.lock.holder = some (.call i)) (hstatus : s.status = .stopped) :
    StartTurn s i (.step (.call i)) .queued (s.launch i) (.launching s.runs.length)
  | crash (hlock : s.lock.holder = some (.call i)) (hstatus : s.status = .stopped) :
    StartTurn s i (.panic (.call i)) .queued
      { s.publish .pending with generation := s.generation + 1 } .unwinding
  | skip (hlock : s.lock.holder = some (.call i)) (hstatus : s.status ≠ .stopped) :
    StartTurn s i (.step (.call i)) .queued s .skipping
  | await (r : Nat) : StartTurn s i (.step (.call i)) (.launching r) s.unlock (.awaiting r)
  | leave : StartTurn s i (.step (.call i)) .skipping s.unlock (.returned .skipped)
  | unwind : StartTurn s i (.step (.call i)) .unwinding s.unlock .panicked
  | join {r : Nat} {run : Run} {o : Outcome} (hrun : s.runs[r]? = some run)
    (hwatch : run.watch = .closing o .done) :
    StartTurn s i (.step (.call i)) (.awaiting r) s (.returned o)
  | joinPanicked {r : Nat} {run : Run} {o : Outcome} (hrun : s.runs[r]? = some run)
    (hwatch : run.watch = .closing o .panicked) :
    StartTurn s i (.step (.call i)) (.awaiting r) s (.returned .panicked)

/-- The generation that a task means to stop, if it does not mean any. -/
def only? (s : Service) : Task → Option Nat
  | .supervisor r => s.runs[r]?.map Run.generation
  | .call _ | .run _ => none

/-- How a stop goes on: the move, where it stood, what becomes of the service, and where it stands
    then. -/
inductive StopTurn (s : Service) (x : Task) : Move → Stopping → Service → Stopping → Prop where
  | ask : StopTurn s x (.step x) .arriving { s with lock := s.lock.ask x } .queued
  | finalize (hlock : s.lock.holder = some x) (hstatus : s.status = .ready)
    (honly : ∀ g ∈ s.only? x, g = s.generation) (hfinalizes : s.finalizes = true) :
    StopTurn s x (.step x) .queued
      (({ s.publish .pending with finalizers := s.finalizers + 1 }).tell
        (.finalizing s.finalizers s.latestCancelled)) (.finalizing s.finalizers)
  | close (hlock : s.lock.holder = some x) (hstatus : s.status = .ready)
    (honly : ∀ g ∈ s.only? x, g = s.generation) (hfinalizes : s.finalizes = false) :
    StopTurn s x (.step x) .queued (s.publish .pending) .cancelling
  | pass (hlock : s.lock.holder = some x)
    (hnot : ¬ (s.status = .ready ∧ ∀ g ∈ s.only? x, g = s.generation)) :
    StopTurn s x (.step x) .queued s .unlocking
  | finalized (n : Nat) :
    StopTurn s x (.finalize x) (.finalizing n) (s.tell (.finalized n)) .cancelling
  | panic (n : Nat) : StopTurn s x (.panic x) (.finalizing n) s .unwinding
  | cancel : StopTurn s x (.step x) .cancelling s.cancelToken .unlocking
  | leave : StopTurn s x (.step x) .unlocking s.unlock .done
  | unwind : StopTurn s x (.step x) .unwinding s.unlock .panicked

/-- How the task or the supervisor of a run goes on: the move, the run before and after, and what
    is told of it. -/
inductive RunTurn (r : Nat) : Move → Run → Run → List Event → Prop where
  | spawn {g : Nat} {p : Progress} {c k : Bool} :
    RunTurn r (.step (.supervisor r)) ⟨g, p, .fresh, c, k⟩ ⟨g, .spawned, .watching, c, k⟩ []
  | interrupt {g : Nat} {p : Progress} {k : Bool} :
    RunTurn r (.step (.supervisor r)) ⟨g, p, .watching, true, k⟩ ⟨g, p, .interrupting, true, true⟩
      []
  | notice {m : Move} {g : Nat} {e : Ending} {c k : Bool}
    (hm : m = .notice r ∨ m = .step (.supervisor r) ∧ c = false) :
    RunTurn r m ⟨g, .ended e, .watching, c, k⟩ ⟨g, .ended e, .closing e.outcome .arriving, c, k⟩ []
  | close {g : Nat} {p : Progress} {c k : Bool} (hp : p = .dropped ∨ ∃ e, p = .ended e) :
    RunTurn r (.step (.supervisor r)) ⟨g, p, .interrupting, c, k⟩
      ⟨g, p, .closing .cancelled .arriving, c, k⟩ []
  | start {g : Nat} {w : Watch} {c : Bool} :
    RunTurn r (.step (.run r)) ⟨g, .spawned, w, c, false⟩ ⟨g, .running, w, c, false⟩ [.started r]
  | drop {g : Nat} {p : Progress} {w : Watch} {c : Bool} (hp : p = .spawned ∨ p = .running) :
    RunTurn r (.step (.run r)) ⟨g, p, w, c, true⟩ ⟨g, .dropped, w, c, true⟩ [.dropped r]
  | finish {g : Nat} {w : Watch} {c k : Bool} (e : Ending) :
    RunTurn r (.finish r e) ⟨g, .running, w, c, k⟩ ⟨g, .ended e, w, c, k⟩ [.ended r]

/-! ## Steps -/

/-- A call that its caller can drop without a trace. -/
inductive Call.Idle : Call → Prop where
  | startArriving : Idle (.start .arriving)
  | stopArriving : Idle (.stop .arriving)
  | awaiting (r : Nat) : Idle (.start (.awaiting r))

/-- A call that waits for the lock. -/
inductive Call.Waits : Call → Prop where
  | start : Waits (.start .queued)
  | stop : Waits (.stop .queued)

/-- What a move can do. -/
inductive Step (s : Service) : Move → Service → Prop where
  | start : Step s .start { s with calls := s.calls ++ [.start .arriving] }
  | stop : Step s .stop { s with calls := s.calls ++ [.stop .arriving] }
  | startTurn {i : Nat} {m : Move} {p p' : Starting} {u : Service}
    (h : s.calls[i]? = some (.start p)) (turn : StartTurn s i m p u p') :
    Step s m (u.placeCall i (.start p'))
  | stopTurn {x : Task} {m : Move} {p p' : Stopping} {u : Service} (h : s.stopping? x = some p)
    (turn : StopTurn s x m p u p') : Step s m (u.placeStopping p' x)
  | runTurn {r : Nat} {m : Move} {run run' : Run} {events : List Event}
    (h : s.runs[r]? = some run) (turn : RunTurn r m run run' events) :
    Step s m { s with runs := s.runs.set r run', log := s.log ++ events }
  | dropIdle {i : Nat} {c : Call} (h : s.calls[i]? = some c) (hidle : c.Idle) :
    Step s (.drop i) (s.placeCall i .dropped)
  | dropWaiting {i : Nat} {c : Call} (h : s.calls[i]? = some c) (hwaits : c.Waits) :
    Step s (.drop i) ({ s with lock := s.lock.withdraw (.call i) }.placeCall i .dropped)
  | dropFinalizing {i n : Nat} (h : s.calls[i]? = some (.stop (.finalizing n))) :
    Step s (.drop i) (((s.tell (.unfinalized n)).unlock).placeCall i .dropped)

variable {s t : Service}

/-! ## What the operations do -/

theorem modifyRun_eq {r : Nat} {run : Run} (h : s.runs[r]? = some run) (f : Run → Run) :
    s.modifyRun r f = { s with runs := s.runs.set r (f run) } := by
  rw [modifyRun]
  congr 1
  refine List.ext_getElem? fun k => ?_
  rw [List.getElem?_modify, List.getElem?_set]
  by_cases hk : r = k
  · subst hk
    rw [if_pos rfl, h, if_pos (List.getElem?_eq_some_iff.1 h).1]
    simp
  · simp [hk]

theorem modifyRun_modifyRun (s : Service) (r : Nat) (f g : Run → Run) :
    (s.modifyRun r f).modifyRun r g = s.modifyRun r fun run => g (f run) := by
  rw [modifyRun, modifyRun, modifyRun, List.modify_modify_eq]
  rfl

theorem map_modifyRun {α : Type} {g : Run → α} {f : Run → Run} (h : ∀ run, g (f run) = g run)
    (s : Service) (r : Nat) : (s.modifyRun r f).runs.map g = s.runs.map g := by
  rw [modifyRun]
  refine List.ext_getElem? fun k => ?_
  rw [List.getElem?_map, List.getElem?_map, List.getElem?_modify]
  by_cases hk : r = k
  · cases s.runs[k]? with
    | none => rfl
    | some run => simp [hk, h]
  · simp [hk]

/-- To cancel a token changes nothing else of a run. -/
theorem map_cancelToken {α : Type} {g : Run → α}
    (h : ∀ run : Run, g { run with cancelled := true } = g run) (s : Service) :
    s.cancelToken.runs.map g = s.runs.map g := by
  rw [cancelToken]
  cases s.token with
  | none => rfl
  | some r => exact map_modifyRun h { s with token := none } r

/-- Whoever stops the service leaves all supervisors where they are, up to its own stop. -/
theorem StopTurn.watches {x : Task} {m : Move} {p p' : Stopping} {u : Service}
    (h : StopTurn s x m p u p') : u.runs.map Run.watch = s.runs.map Run.watch := by
  cases h with
  | cancel => exact map_cancelToken (fun _ => rfl) s
  | ask | finalize | close | pass | finalized | panic | leave | unwind => rfl

theorem StopTurn.calls_eq {x : Task} {m : Move} {p p' : Stopping} {u : Service}
    (h : StopTurn s x m p u p') : u.calls = s.calls := by
  cases h with
  | cancel =>
    rw [cancelToken]
    cases s.token <;> rfl
  | ask | finalize | close | pass | finalized | panic | leave | unwind => rfl

theorem StartTurn.calls_eq {i : Nat} {m : Move} {p p' : Starting} {u : Service}
    (h : StartTurn s i m p u p') : u.calls = s.calls := by
  cases h <;> rfl

theorem StopTurn.watch_eq {x : Task} {m : Move} {p p' : Stopping} {u : Service}
    (h : StopTurn s x m p u p') (r : Nat) :
    u.runs[r]?.map Run.watch = s.runs[r]?.map Run.watch := by
  rw [← List.getElem?_map, ← List.getElem?_map, h.watches]

/-- Who stands at a stop is a call to stop, or a supervisor whose run is over. -/
theorem exists_of_stopping? {x : Task} {p : Stopping} (h : s.stopping? x = some p) :
    (∃ i, x = .call i ∧ s.calls[i]? = some (.stop p)) ∨
      ∃ r run o, x = .supervisor r ∧ s.runs[r]? = some run ∧ run.watch = .closing o p := by
  cases x with
  | call i =>
    rw [stopping?] at h
    split at h
    · rename_i q hcall
      exact .inl ⟨i, rfl, Option.some.inj h ▸ hcall⟩
    · cases h
  | supervisor r =>
    rw [stopping?] at h
    split at h
    · rename_i o q hwatch
      obtain ⟨run, hrun, hwatch⟩ := Option.map_eq_some_iff.1 hwatch
      exact .inr ⟨r, run, o, rfl, hrun, Option.some.inj h ▸ hwatch⟩
    · cases h
  | run r => cases h

theorem stopping?_of_call {i : Nat} {p : Stopping} (h : s.calls[i]? = some (.stop p)) :
    s.stopping? (.call i) = some p := by
  rw [stopping?, h]

theorem stopping?_of_supervisor {r : Nat} {run : Run} {o : Outcome} {p : Stopping}
    (hrun : s.runs[r]? = some run) (hwatch : run.watch = .closing o p) :
    s.stopping? (.supervisor r) = some p := by
  rw [stopping?, hrun, Option.map_some, hwatch]

theorem enterStart_of_stopped {i : Nat} (h : s.status = .stopped) :
    s.enterStart i = (s.launch i).placeCall i (.start (.launching s.runs.length)) := by
  rw [enterStart, if_pos h]
  simp only [publish, tell, launch, List.append_assoc, List.cons_append, List.nil_append]

/-- To place a supervisor that stops the service is to place its stop. -/
theorem placeWatch_eq_placeStopping {r : Nat} {o : Outcome} {p : Stopping}
    (h : s.runs[r]?.map Run.watch = some (.closing o p)) (p' : Stopping) :
    s.placeWatch r (.closing o p') = s.placeStopping p' (.supervisor r) := by
  obtain ⟨run, hrun, hwatch⟩ := Option.map_eq_some_iff.1 h
  rw [placeWatch, placeStopping, modifyRun_eq hrun, modifyRun_eq hrun, hwatch]

/-! ## Every move is a step -/

theorem startTurn_of_startStep? {i : Nat} {p : Starting} (h : s.startStep? i p = some t) :
    ∃ u p', StartTurn s i (.step (.call i)) p u p' ∧ t = u.placeCall i (.start p') := by
  cases p with
  | arriving => exact ⟨_, _, .ask, (Option.some.inj h).symm⟩
  | queued =>
    rw [startStep?] at h
    split at h
    · rename_i hlock
      obtain rfl := Option.some.inj h
      by_cases hstatus : s.status = .stopped
      · exact ⟨_, _, .launch hlock hstatus, enterStart_of_stopped hstatus⟩
      · exact ⟨_, _, .skip hlock hstatus, by rw [enterStart, if_neg hstatus]⟩
    · nomatch h
  | launching r => exact ⟨_, _, .await r, (Option.some.inj h).symm⟩
  | skipping => exact ⟨_, _, .leave, (Option.some.inj h).symm⟩
  | unwinding => exact ⟨_, _, .unwind, (Option.some.inj h).symm⟩
  | awaiting r =>
    rw [startStep?] at h
    split at h
    · rename_i o hwatch
      obtain ⟨run, hrun, hwatch⟩ := Option.map_eq_some_iff.1 hwatch
      exact ⟨_, _, .join hrun hwatch, (Option.some.inj h).symm⟩
    · rename_i o hwatch
      obtain ⟨run, hrun, hwatch⟩ := Option.map_eq_some_iff.1 hwatch
      exact ⟨_, _, .joinPanicked hrun hwatch, (Option.some.inj h).symm⟩
    · nomatch h
  | returned _ | panicked => nomatch h

/-- A stop begins as it is meant to: it closes the service, or it passes the lock on. -/
theorem stopTurn_enterStop {x : Task} {p' : Stopping} {u : Service}
    (hlock : s.lock.holder = some x) (h : s.enterStop (s.only? x) = (u, p')) :
    StopTurn s x (.step x) .queued u p' := by
  have hall : (s.only? x).all (· = s.generation) = true ↔ ∀ g ∈ s.only? x, g = s.generation := by
    simp [Option.all_eq_true]
  rw [enterStop] at h
  split at h
  · rename_i hready
    have honly := hall.1 hready.2
    dsimp only at h
    split at h
    · rename_i hfinalizes
      obtain ⟨rfl, rfl⟩ := Prod.mk.inj h
      exact .finalize hlock hready.1 honly hfinalizes
    · rename_i hfinalizes
      obtain ⟨rfl, rfl⟩ := Prod.mk.inj h
      exact .close hlock hready.1 honly (Bool.not_eq_true _ ▸ hfinalizes)
  · rename_i hnot
    obtain ⟨rfl, rfl⟩ := Prod.mk.inj h
    exact .pass hlock fun hready => hnot ⟨hready.1, hall.2 hready.2⟩

theorem stopTurn_of_stopStep? {x : Task} {p p' : Stopping} {u : Service}
    (h : s.stopStep? x (s.only? x) p = some (u, p')) : StopTurn s x (.step x) p u p' := by
  cases p with
  | arriving =>
    obtain ⟨rfl, rfl⟩ := Prod.mk.inj (Option.some.inj h)
    exact .ask
  | queued =>
    rw [stopStep?] at h
    split at h
    · rename_i hlock
      exact stopTurn_enterStop hlock (Option.some.inj h)
    · nomatch h
  | cancelling =>
    obtain ⟨rfl, rfl⟩ := Prod.mk.inj (Option.some.inj h)
    exact .cancel
  | unlocking =>
    obtain ⟨rfl, rfl⟩ := Prod.mk.inj (Option.some.inj h)
    exact .leave
  | unwinding =>
    obtain ⟨rfl, rfl⟩ := Prod.mk.inj (Option.some.inj h)
    exact .unwind
  | finalizing _ | done | panicked => nomatch h

theorem step_of_callStep? {i : Nat} (h : s.callStep? i = some t) : s.Step (.step (.call i)) t := by
  rw [callStep?] at h
  split at h
  · rename_i p hcall
    obtain ⟨u, p', hturn, rfl⟩ := startTurn_of_startStep? h
    exact .startTurn hcall hturn
  · rename_i p hcall
    obtain ⟨⟨u, p'⟩, hstop, rfl⟩ := Option.map_eq_some_iff.1 h
    exact .stopTurn (x := .call i) (by rw [stopping?, hcall]) (stopTurn_of_stopStep? hstop)
  · nomatch h

/-- A run takes its turn: it is changed where it stands. -/
theorem step_of_runTurn {r : Nat} {m : Move} {run run' : Run} {events : List Event}
    {f : Run → Run} (hrun : s.runs[r]? = some run) (hturn : RunTurn r m run run' events)
    (hf : f run = run') : s.Step m ({ s with log := s.log ++ events }.modifyRun r f) := by
  rw [modifyRun_eq (s := { s with log := s.log ++ events }) hrun, hf]
  exact .runTurn hrun hturn

/-- A supervisor takes its turn, and nothing is told of it. -/
theorem step_of_watchTurn {r : Nat} {m : Move} {run run' : Run} {f : Run → Run}
    (hrun : s.runs[r]? = some run) (hturn : RunTurn r m run run' []) (hf : f run = run') :
    s.Step m (s.modifyRun r f) := by
  have h := step_of_runTurn hrun hturn hf
  rwa [List.append_nil] at h

theorem step_of_watchStep? {r : Nat} (h : s.watchStep? r = some t) :
    s.Step (.step (.supervisor r)) t := by
  obtain ⟨run, hrun, h⟩ := Option.bind_eq_some_iff.1 h
  obtain ⟨g, p, w, c, k⟩ := run
  cases w with
  | fresh =>
    obtain rfl := Option.some.inj h
    rw [placeRun, placeWatch, modifyRun_modifyRun]
    exact step_of_watchTurn hrun .spawn rfl
  | watching =>
    cases c with
    | true =>
      obtain rfl := Option.some.inj h
      rw [placeWatch, modifyRun_modifyRun]
      exact step_of_watchTurn hrun .interrupt rfl
    | false =>
      cases p with
      | ended e =>
        exact Option.some.inj h ▸ step_of_watchTurn hrun (.notice (.inr ⟨rfl, rfl⟩)) rfl
      | created | spawned | running | dropped => nomatch h
  | interrupting =>
    cases p with
    | ended e =>
      exact Option.some.inj h ▸ step_of_watchTurn hrun (.close (.inr ⟨e, rfl⟩)) rfl
    | dropped =>
      exact Option.some.inj h ▸ step_of_watchTurn hrun (.close (.inl rfl)) rfl
    | created | spawned | running => nomatch h
  | closing o p =>
    obtain ⟨⟨u, p'⟩, hstop, rfl⟩ := Option.map_eq_some_iff.1 h
    have hwatch : s.runs[r]?.map Run.watch = some (.closing o p) := by rw [hrun]; rfl
    have honly : s.only? (.supervisor r) = some g := by rw [only?, hrun]; rfl
    have hturn : StopTurn s (.supervisor r) (.step (.supervisor r)) p u p' :=
      stopTurn_of_stopStep? (honly ▸ hstop)
    show s.Step _ (u.placeWatch r (.closing o p'))
    rw [placeWatch_eq_placeStopping (hturn.watch_eq r ▸ hwatch)]
    exact .stopTurn (by rw [stopping?, hwatch]) hturn

theorem step_of_runStep? {r : Nat} (h : s.runStep? r = some t) : s.Step (.step (.run r)) t := by
  obtain ⟨run, hrun, h⟩ := Option.bind_eq_some_iff.1 h
  obtain ⟨g, p, w, c, k⟩ := run
  cases p with
  | spawned =>
    cases k with
    | true => exact Option.some.inj h ▸ step_of_runTurn hrun (.drop (.inl rfl)) rfl
    | false => exact Option.some.inj h ▸ step_of_runTurn hrun .start rfl
  | running =>
    cases k with
    | true => exact Option.some.inj h ▸ step_of_runTurn hrun (.drop (.inr rfl)) rfl
    | false => nomatch h
  | created | ended _ | dropped => nomatch h

theorem step_of_step? {x : Task} (h : s.step? x = some t) : s.Step (.step x) t := by
  cases x with
  | call i => exact step_of_callStep? h
  | supervisor r => exact step_of_watchStep? h
  | run r => exact step_of_runStep? h

theorem step_of_drop? {i : Nat} (h : s.drop? i = some t) : s.Step (.drop i) t := by
  rw [drop?] at h
  split at h
  · rename_i hcall
    exact Option.some.inj h ▸ .dropIdle hcall .startArriving
  · rename_i hcall
    exact Option.some.inj h ▸ .dropIdle hcall .stopArriving
  · rename_i r hcall
    exact Option.some.inj h ▸ .dropIdle hcall (.awaiting r)
  · rename_i hcall
    exact Option.some.inj h ▸ .dropWaiting hcall .start
  · rename_i hcall
    exact Option.some.inj h ▸ .dropWaiting hcall .stop
  · rename_i n hcall
    exact Option.some.inj h ▸ .dropFinalizing hcall
  · nomatch h

/-- A start call that can panic at the factory stands in front of it. -/
theorem of_atFactory {i : Nat} (h : s.atFactory i = true) :
    s.lock.holder = some (.call i) ∧ s.status = .stopped ∧
      s.calls[i]? = some (.start .queued) := by
  rw [atFactory, Bool.and_eq_true, Bool.and_eq_true, decide_eq_true_eq, decide_eq_true_eq] at h
  obtain ⟨⟨hlock, hstatus⟩, hcall⟩ := h
  split at hcall
  · rename_i hqueued
    exact ⟨hlock, hstatus, hqueued⟩
  · nomatch hcall

theorem step_of_perform? {m : Move} (h : s.perform? m = some t) : s.Step m t := by
  cases m with
  | start => exact Option.some.inj h ▸ .start
  | stop => exact Option.some.inj h ▸ .stop
  | step x => exact step_of_step? h
  | notice r =>
    rw [perform?] at h
    split at h
    · rename_i g e c k hrun
      exact Option.some.inj h ▸ step_of_watchTurn hrun (.notice (.inl rfl)) rfl
    · nomatch h
  | finish r e =>
    rw [perform?] at h
    split at h
    · rename_i hrunning
      obtain ⟨⟨g, p, w, c, k⟩, hrun, rfl⟩ := Option.map_eq_some_iff.1 hrunning
      exact Option.some.inj h ▸ step_of_runTurn hrun (.finish e) rfl
    · nomatch h
  | finalize x =>
    rw [perform?] at h
    split at h
    · rename_i n hstop
      exact Option.some.inj h ▸ .stopTurn hstop (.finalized n)
    · nomatch h
  | panic x =>
    unfold perform? at h
    dsimp only at h
    split at h
    · rename_i n hstop
      exact Option.some.inj h ▸ .stopTurn hstop (.panic n)
    · split at h
      · rename_i i hfactory
        obtain ⟨hlock, hstatus, hcall⟩ := of_atFactory hfactory
        exact Option.some.inj h ▸ .startTurn hcall (.crash hlock hstatus)
      · nomatch h
    · nomatch h
  | drop i => exact step_of_drop? h

/-- What every step preserves, moves preserve. -/
theorem of_run? {P : Service → Prop}
    (hstep : ∀ {s t : Service} {m : Move}, s.Step m t → P s → P t) (h : P s) {moves : List Move}
    (hrun : s.run? moves = some t) : P t := by
  induction moves generalizing s with
  | nil => exact Option.some.inj hrun ▸ h
  | cons m rest ih =>
    obtain ⟨u, hu, hrest⟩ := Option.bind_eq_some_iff.1 hrun
    exact ih (hstep (step_of_perform? hu) h) hrest

theorem run?_append {before : List Move} (h : s.run? before = some t) (after : List Move) :
    s.run? (before ++ after) = t.run? after := by
  induction before generalizing s with
  | nil => exact Option.some.inj h ▸ rfl
  | cons m rest ih =>
    obtain ⟨u, hu, hrest⟩ := Option.bind_eq_some_iff.1 h
    rw [List.cons_append, run?, hu, Option.bind_some, ih hrest]

end Service

end FrameRpc
