import FrameRpc.Error
import FrameRpc.Service.Lock

/-!
# Services

A service is a task in the background that can be started and stopped, one run at a time. It is
stopped, or ready while it runs, or pending while a start or a stop is in progress. A call that
comes at the wrong time does nothing. Every change happens under one lock, which a stop holds for
as long as the finalizer of the service takes.

* A *start* call, under the lock, calls the task factory, hands the new run to a supervisor, and
  then waits outside the lock for the supervisor to finish.
* A *stop* call, under the lock, runs the finalizer and then cancels the token of the run.
* The *supervisor* of a run waits until the token is cancelled, and then interrupts the run, or
  until the run ends by itself, and then stops the service just like a stop call, but only if this
  run is still the current one. Each start takes a new generation number, which tells.

Calls are numbered as they come in, and runs as they are created. Every task stands at a point
between two steps that others may interleave with, and `perform?` is one step of the whole system,
a function of the state and of a `Move`. The states that moves lead to from the start are
`Reachable`.
-/

namespace FrameRpc

namespace Service

/-- What a service is doing. -/
inductive Status where
  /-- There is no run. -/
  | stopped
  /-- A start or a stop is in progress. -/
  | pending
  /-- There is a run. -/
  | ready
  deriving DecidableEq, Repr

/-- How a run ends by itself. -/
inductive Ending where
  /-- It is done. -/
  | completed
  /-- It fails. -/
  | failed (e : Error)
  /-- It panics. -/
  | panicked

/-- What a start call returns. -/
inductive Outcome where
  /-- The service was not stopped. -/
  | skipped
  /-- The run ended by itself. -/
  | completed
  /-- The run was interrupted. -/
  | cancelled
  /-- The run failed. -/
  | failed (e : Error)
  /-- The run, or its supervisor, panicked. -/
  | panicked

/-- What the start call returns when its run ends by itself. -/
def Ending.outcome : Ending → Outcome
  | .completed => .completed
  | .failed e => .failed e
  | .panicked => .panicked

/-- What takes steps. -/
inductive Task where
  /-- A call. -/
  | call (i : Nat)
  /-- The supervisor of a run. -/
  | supervisor (r : Nat)
  /-- A run. -/
  | run (r : Nat)
  deriving DecidableEq, Repr

/-- Where a stop stands. -/
inductive Stopping where
  /-- It is about to ask for the lock. -/
  | arriving
  /-- It has asked for the lock. -/
  | queued
  /-- It has the lock and runs the finalizer, for the `n`-th time. -/
  | finalizing (n : Nat)
  /-- It has the lock and is about to cancel the token. -/
  | cancelling
  /-- It has the lock and is about to hand it on and to return. -/
  | unlocking
  /-- It has the lock and is about to hand it on because the finalizer panicked. -/
  | unwinding
  /-- It has returned. -/
  | done
  /-- It has panicked. -/
  | panicked
  deriving DecidableEq, Repr

/-- Where a start call stands. -/
inductive Starting where
  /-- It is about to ask for the lock. -/
  | arriving
  /-- It has asked for the lock. -/
  | queued
  /-- It has the lock, has created a run and is about to hand the lock on. -/
  | launching (r : Nat)
  /-- It has the lock, has nothing to do and is about to hand the lock on. -/
  | skipping
  /-- It has the lock and is about to hand it on because the factory panicked. -/
  | unwinding
  /-- It waits for the supervisor of its run. -/
  | awaiting (r : Nat)
  /-- It has returned. -/
  | returned (o : Outcome)
  /-- It has panicked. -/
  | panicked

/-- A call, and where it stands. -/
inductive Call where
  /-- A start call. -/
  | start (p : Starting)
  /-- A stop call. -/
  | stop (p : Stopping)
  /-- A call that its caller has dropped. -/
  | dropped

/-- Where the task of a run stands. -/
inductive Progress where
  /-- The factory has created it. -/
  | created
  /-- Its supervisor has spawned it. -/
  | spawned
  /-- It runs. -/
  | running
  /-- It has ended by itself. -/
  | ended (e : Ending)
  /-- It was dropped before its end. -/
  | dropped

/-- Where a supervisor stands. -/
inductive Watch where
  /-- It is about to spawn its run. -/
  | fresh
  /-- It waits for the token or for the end of the run. -/
  | watching
  /-- It has interrupted its run and waits for it to be gone. -/
  | interrupting
  /-- It stops the service, and then gives the outcome to the start call. -/
  | closing (o : Outcome) (p : Stopping)

/-- A run. -/
structure Run where
  /-- The number of the start that created it. -/
  generation : Nat
  /-- The task. -/
  progress : Progress
  /-- The supervisor. -/
  watch : Watch
  /-- The token has been cancelled. -/
  cancelled : Bool
  /-- The supervisor has asked for the task to be dropped. -/
  interrupted : Bool

/-- What happens. -/
inductive Event where
  /-- The factory creates a run for a start call. -/
  | created (r i : Nat)
  /-- The task of a run starts. -/
  | started (r : Nat)
  /-- It ends by itself. -/
  | ended (r : Nat)
  /-- It is dropped. -/
  | dropped (r : Nat)
  /-- The finalizer is called for the `n`-th time; whether the token of the latest run is
      cancelled then. -/
  | finalizing (n : Nat) (cancelled : Bool)
  /-- The finalizer is done. -/
  | finalized (n : Nat)
  /-- The finalizer is dropped before its end. -/
  | unfinalized (n : Nat)

end Service

/-- A service and everyone who deals with it. -/
structure Service where
  /-- It has a finalizer. -/
  finalizes : Bool
  /-- What it is doing. -/
  status : Service.Status
  /-- The statuses that were published, the latest last. -/
  published : List Service.Status
  /-- The number of starts. -/
  generation : Nat
  /-- The run whose token is kept to interrupt it. -/
  token : Option Nat
  /-- The number of times that the finalizer was called. -/
  finalizers : Nat
  /-- The lock. -/
  lock : Lock Service.Task
  /-- The calls, by number. -/
  calls : List Service.Call
  /-- The runs, by number. -/
  runs : List Service.Run
  /-- What has happened so far. -/
  log : List Service.Event

namespace Service

/-- A stopped service that nobody has called. -/
def new (finalizes : Bool) : Service :=
  ⟨finalizes, .stopped, [], 0, none, 0, .free, [], [], []⟩

/-- Changes the status and publishes it. -/
def publish (s : Service) (status : Status) : Service :=
  { s with status := status, published := s.published ++ [status] }

/-- Something happens. -/
def tell (s : Service) (e : Event) : Service := { s with log := s.log ++ [e] }

/-- The lock is handed on. -/
def unlock (s : Service) : Service := { s with lock := s.lock.release }

/-- Sets where a call stands. -/
def placeCall (s : Service) (i : Nat) (c : Call) : Service := { s with calls := s.calls.set i c }

/-- Changes a run. -/
def modifyRun (s : Service) (r : Nat) (f : Run → Run) : Service :=
  { s with runs := s.runs.modify r f }

/-- Sets where the task of a run stands. -/
def placeRun (s : Service) (r : Nat) (p : Progress) : Service :=
  s.modifyRun r fun run => { run with progress := p }

/-- Sets where a supervisor stands. -/
def placeWatch (s : Service) (r : Nat) (w : Watch) : Service :=
  s.modifyRun r fun run => { run with watch := w }

/-- The token of the latest run is cancelled. -/
def latestCancelled (s : Service) : Bool := s.runs.getLast?.any Run.cancelled

/-! ## Starts and stops under the lock -/

/-- A start call begins, with the lock: unless the service is stopped, there is nothing to do. -/
def enterStart (s : Service) (i : Nat) : Service :=
  if s.status = .stopped then
    let s := s.publish .pending
    let r := s.runs.length
    let generation := s.generation + 1
    let run : Run := ⟨generation, .created, .fresh, false, false⟩
    let s := { s with generation := generation, runs := s.runs ++ [run], token := some r }
    ((s.tell (.created r i)).publish .ready).placeCall i (.start (.launching r))
  else s.placeCall i (.start .skipping)

/-- A start call begins, with the lock, and the factory panics. -/
def failStart (s : Service) (i : Nat) : Service :=
  ({ s.publish .pending with generation := s.generation + 1 }).placeCall i (.start .unwinding)

/-- A stop begins, with the lock: unless the service is ready, and the current run is the one that
    is meant, there is nothing to do. Also tells where the stop stands then. -/
def enterStop (s : Service) (only : Option Nat) : Service × Stopping :=
  if s.status = .ready ∧ only.all (· = s.generation) then
    let s := s.publish .pending
    if s.finalizes then
      let n := s.finalizers
      (({ s with finalizers := n + 1 }).tell (.finalizing n s.latestCancelled), .finalizing n)
    else (s, .cancelling)
  else (s, .unlocking)

/-- Cancels the token that is kept, and stops the service. -/
def cancelToken (s : Service) : Service :=
  let s := match s.token with
    | some r => { s with token := none }.modifyRun r fun run => { run with cancelled := true }
    | none => s
  s.publish .stopped

/-- The next step of a stop by a task, of a given generation only or of any, if the stop does not
    have to wait. Also tells where it stands then. -/
def stopStep? (s : Service) (t : Task) (only : Option Nat) : Stopping → Option (Service × Stopping)
  | .arriving => some ({ s with lock := s.lock.ask t }, .queued)
  | .queued => if s.lock.holder = some t then some (s.enterStop only) else none
  | .cancelling => some (s.cancelToken, .unlocking)
  | .unlocking => some (s.unlock, .done)
  | .unwinding => some (s.unlock, .panicked)
  | .finalizing _ | .done | .panicked => none

/-! ## Steps -/

/-- The next step of a start call, if it does not have to wait. -/
def startStep? (s : Service) (i : Nat) : Starting → Option Service
  | .arriving => some ({ s with lock := s.lock.ask (.call i) }.placeCall i (.start .queued))
  | .queued => if s.lock.holder = some (.call i) then some (s.enterStart i) else none
  | .launching r => some (s.unlock.placeCall i (.start (.awaiting r)))
  | .skipping => some (s.unlock.placeCall i (.start (.returned .skipped)))
  | .unwinding => some (s.unlock.placeCall i (.start .panicked))
  | .awaiting r =>
    match s.runs[r]?.map Run.watch with
    | some (.closing o .done) => some (s.placeCall i (.start (.returned o)))
    | some (.closing _ .panicked) => some (s.placeCall i (.start (.returned .panicked)))
    | _ => none
  | .returned _ | .panicked => none

/-- The next step of a call, if it does not have to wait. -/
def callStep? (s : Service) (i : Nat) : Option Service :=
  match s.calls[i]? with
  | some (.start p) => s.startStep? i p
  | some (.stop p) =>
    (s.stopStep? (.call i) none p).map fun (s, p) => s.placeCall i (.stop p)
  | _ => none

/-- The next step of a supervisor, if it does not have to wait. Where its token is cancelled and
    its run has ended as well, it turns to the token. -/
def watchStep? (s : Service) (r : Nat) : Option Service := do
  let run ← s.runs[r]?
  match run.watch with
  | .fresh => some ((s.placeRun r .spawned).placeWatch r .watching)
  | .watching =>
    if run.cancelled then
      some ((s.modifyRun r fun run => { run with interrupted := true }).placeWatch r .interrupting)
    else
      match run.progress with
      | .ended e => some (s.placeWatch r (.closing e.outcome .arriving))
      | _ => none
  | .interrupting =>
    match run.progress with
    | .ended _ | .dropped => some (s.placeWatch r (.closing .cancelled .arriving))
    | _ => none
  | .closing o p =>
    (s.stopStep? (.supervisor r) (some run.generation) p).map fun (s, p) =>
      s.placeWatch r (.closing o p)

/-- The next step of the task of a run, if it does not have to wait: it starts, or it is dropped
    once it is interrupted. -/
def runStep? (s : Service) (r : Nat) : Option Service := do
  let run ← s.runs[r]?
  match run.progress with
  | .spawned =>
    if run.interrupted then some ((s.tell (.dropped r)).placeRun r .dropped)
    else some ((s.tell (.started r)).placeRun r .running)
  | .running =>
    if run.interrupted then some ((s.tell (.dropped r)).placeRun r .dropped) else none
  | _ => none

/-- The next step of a task, if it does not have to wait. -/
def step? (s : Service) : Task → Option Service
  | .call i => s.callStep? i
  | .supervisor r => s.watchStep? r
  | .run r => s.runStep? r

/-! ## Moves -/

/-- What may happen next. -/
inductive Move where
  /-- A start call comes in. -/
  | start
  /-- A stop call comes in. -/
  | stop
  /-- A task takes its next step. -/
  | step (t : Task)
  /-- A supervisor turns to the end of its run. -/
  | notice (r : Nat)
  /-- The task of a run ends by itself. -/
  | finish (r : Nat) (e : Ending)
  /-- The finalizer that a task runs is done. -/
  | finalize (t : Task)
  /-- The finalizer that a task runs panics, or the factory that it is about to call does. -/
  | panic (t : Task)
  /-- The caller of a call drops it. -/
  | drop (i : Nat)

/-- Where the stop of a task stands, if it is at one. -/
def stopping? (s : Service) : Task → Option Stopping
  | .call i =>
    match s.calls[i]? with
    | some (.stop p) => some p
    | _ => none
  | .supervisor r =>
    match s.runs[r]?.map Run.watch with
    | some (.closing _ p) => some p
    | _ => none
  | .run _ => none

/-- Sets where the stop of a task stands. -/
def placeStopping (s : Service) (p : Stopping) : Task → Service
  | .call i => s.placeCall i (.stop p)
  | .supervisor r =>
    s.modifyRun r fun run =>
      match run.watch with
      | .closing o _ => { run with watch := .closing o p }
      | _ => run
  | .run _ => s

/-- A start call has the lock of a stopped service, and calls the factory next. -/
def atFactory (s : Service) (i : Nat) : Bool :=
  s.lock.holder = some (.call i) && s.status = .stopped &&
    match s.calls[i]? with
    | some (.start .queued) => true
    | _ => false

/-- The caller of a call drops it, if the call waits for something. -/
def drop? (s : Service) (i : Nat) : Option Service :=
  let withdrawn : Service := { s with lock := s.lock.withdraw (.call i) }
  match s.calls[i]? with
  | some (.start .arriving) | some (.stop .arriving) | some (.start (.awaiting _)) =>
    some (s.placeCall i .dropped)
  | some (.start .queued) | some (.stop .queued) => some (withdrawn.placeCall i .dropped)
  | some (.stop (.finalizing n)) =>
    some (((s.tell (.unfinalized n)).unlock).placeCall i .dropped)
  | _ => none

/-- The state after a move, if the move is possible. -/
def perform? (s : Service) : Move → Option Service
  | .start => some { s with calls := s.calls ++ [.start .arriving] }
  | .stop => some { s with calls := s.calls ++ [.stop .arriving] }
  | .step t => s.step? t
  | .notice r =>
    match s.runs[r]? with
    | some ⟨_, .ended e, .watching, _, _⟩ => some (s.placeWatch r (.closing e.outcome .arriving))
    | _ => none
  | .finish r e =>
    match s.runs[r]?.map Run.progress with
    | some .running => some ((s.tell (.ended r)).placeRun r (.ended e))
    | _ => none
  | .finalize t =>
    match s.stopping? t with
    | some (.finalizing n) => some ((s.tell (.finalized n)).placeStopping .cancelling t)
    | _ => none
  | .panic t =>
    match s.stopping? t, t with
    | some (.finalizing _), t => some (s.placeStopping .unwinding t)
    | _, .call i => if s.atFactory i then some (s.failStart i) else none
    | _, _ => none
  | .drop i => s.drop? i

/-- The state after a list of moves, each of them possible in its turn. -/
def run? (s : Service) : List Move → Option Service
  | [] => some s
  | m :: rest => (s.perform? m).bind fun s => run? s rest

/-- The states that moves lead to. -/
inductive Reachable (finalizes : Bool) : Service → Prop where
  /-- At first the service is stopped, and nobody has called. -/
  | new : Reachable finalizes (.new finalizes)
  /-- A possible move leads on. -/
  | move {s t : Service} (m : Move) (reached : Reachable finalizes s)
      (possible : s.perform? m = some t) : Reachable finalizes t

end Service

end FrameRpc
