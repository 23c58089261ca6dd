import FrameRpc.Schedule
import FrameRpc.Service.Basic
import FrameRpc.Table
import FrameRpc.Text.Order

/-!
# Sessions with a service

A session drives a service on one thread. Calls have names. A command is carried out, and then
every task runs until none can go on; what happens is told in lines (`Session.perform`).

A run goes on until a command ends it, except where the start call settles its end in advance. A
finalizer is done at once, or panics, or waits for a command. Every run and every finalizer can be
ended once by a command; if it is gone by then, nothing happens.
-/

namespace FrameRpc

namespace Service

/-- What becomes of the run that a start call would create. -/
inductive Plan where
  /-- It waits for a command. -/
  | gated
  /-- It ends at once. -/
  | ends (e : Ending)
  /-- There is no run: the factory panics. -/
  | noRun

/-- What the finalizer of a service does. -/
inductive Finalizing where
  /-- There is none. -/
  | absent
  /-- It is done at once. -/
  | instant
  /-- It waits for a command. -/
  | gated
  /-- It panics. -/
  | panics
  deriving DecidableEq, Repr

/-- What a session is told to do. -/
inductive Command where
  /-- Start calls, one of each name. -/
  | start (tasks : List String) (plan : Plan)
  /-- Stop calls, one of each name. -/
  | stop (tasks : List String)
  /-- Drops calls. -/
  | abort (tasks : List String)
  /-- Ends a run; without a number, the latest that no command has ended. -/
  | finish (run : Option Nat) (ending : Ending)
  /-- Ends a finalizer; without a number, the latest that no command has ended. -/
  | finalize (finalizer : Option Nat)
  /-- Nothing. -/
  | nothing

/-- A service with names for its calls. -/
structure Session where
  /-- The service. -/
  service : Service
  /-- What its finalizer does. -/
  finalizing : Finalizing
  /-- The name of every call. -/
  names : List String
  /-- What becomes of the run of every call. -/
  plans : List Plan
  /-- The latest call of each name. -/
  tasks : Table String Nat
  /-- The calls about to be dropped. -/
  aborted : List Nat
  /-- The ends that commands have given to runs. -/
  endings : Table Nat Ending
  /-- The finalizers that commands have ended. -/
  finalized : List Nat
  /-- What has happened during the command. -/
  lines : List String

/-- What can be seen after a command. -/
structure Report where
  /-- What has happened, in increasing order. -/
  lines : List String
  /-- What the service is doing. -/
  status : Status
  /-- A status was published during the command. -/
  changed : Bool
  /-- The names of the calls that go on, in increasing order. -/
  waiting : List String

namespace Session

/-- A session with a stopped service. -/
def new (finalizing : Finalizing) : Session :=
  ⟨.new (finalizing ≠ .absent), finalizing, [], [], .empty, [], .empty, [], []⟩

/-- Adds a line. -/
def tell (s : Session) (line : String) : Session := { s with lines := s.lines ++ [line] }

/-- The name of a call. -/
def name (s : Session) (i : Nat) : String := s.names.getD i ""

/-- The line of an event. Runs and finalizers count from one. -/
def eventLine (s : Session) : Event → String
  | .created r i => s!"run {r + 1} created " ++ s.name i
  | .started r => s!"run {r + 1} started"
  | .ended r => s!"run {r + 1} finished"
  | .dropped r => s!"run {r + 1} dropped"
  | .finalizing n cancelled =>
    s!"finalizer {n + 1} cancelled=" ++ if cancelled then "true" else "false"
  | .finalized n => s!"finalizer {n + 1} done"
  | .unfinalized n => s!"finalizer {n + 1} dropped"

/-- The word for the outcome of a start call. -/
def outcomeText : Outcome → String
  | .skipped => "Skipped"
  | .completed => "Completed"
  | .cancelled => "Cancelled"
  | .failed e => "error " ++ e.kind ++ " " ++ e.message
  | .panicked => "error TaskFailed panicked"

/-- What has become of a call, if it does not go on. -/
def resultText? : Call → Option String
  | .start (.returned o) => some (outcomeText o)
  | .start .panicked | .stop .panicked => some "panic"
  | .stop .done => some "stop returned"
  | .dropped => some "cancelled"
  | _ => none

/-- Tells what has become of the call of a task, if it has just ended. -/
def tellResult (s : Session) : Task → Session
  | .call i =>
    match s.service.calls[i]?.bind resultText? with
    | some result => s.tell (s.name i ++ ": " ++ result)
    | none => s
  | _ => s

/-- Makes a move and tells the events; an impossible move changes nothing. -/
def move (s : Session) (m : Move) : Session :=
  match s.service.perform? m with
  | none => s
  | some service =>
    let events := service.log.drop s.service.log.length
    { s with service := service, lines := s.lines ++ events.map s.eventLine }

/-- The call that created a run. -/
def creator? (s : Session) (r : Nat) : Option Nat :=
  s.service.log.findSome? fun
    | .created q i => if q = r then some i else none
    | _ => none

/-- The end of a run, once it is settled. -/
def ending? (s : Session) (r : Nat) : Option Ending :=
  match (s.creator? r).bind fun i => s.plans[i]? with
  | some (.ends e) => some e
  | _ => s.endings.get? r

/-- The run goes on. -/
def isRunning (s : Session) (r : Nat) : Bool :=
  match s.service.runs[r]?.map Run.progress with
  | some .running => true
  | _ => false

/-- The start call is to find a factory that panics. -/
def findsNoRun (s : Session) (i : Nat) : Bool :=
  s.service.atFactory i &&
    match s.plans[i]? with
    | some .noRun => true
    | _ => false

/-- The move by which a finalizer goes on, if it does not wait. -/
def finalizerMove? (s : Session) (t : Task) (n : Nat) : Option Move :=
  match s.finalizing with
  | .instant => some (.finalize t)
  | .panics => some (.panic t)
  | .gated => if n ∈ s.finalized then some (.finalize t) else none
  | .absent => none

/-- The next move of a task, if it does not have to wait. -/
def next? (s : Session) (t : Task) : Option Move :=
  let own := (s.service.step? t).map fun _ => Move.step t
  match t with
  | .call i =>
    if i ∈ s.aborted then some (.drop i)
    else if s.findsNoRun i then some (.panic t)
    else
      match s.service.stopping? t with
      | some (.finalizing n) => s.finalizerMove? t n
      | _ => own
  | .supervisor _ =>
    match s.service.stopping? t with
    | some (.finalizing n) => s.finalizerMove? t n
    | _ => own
  | .run r =>
    match own, s.isRunning r, s.ending? r with
    | none, true, some e => some (.finish r e)
    | own, _, _ => own

/-- Every task there is. -/
def everyone (s : Session) : List Task :=
  (List.range s.service.calls.length).map Task.call ++
    ((List.range s.service.runs.length).map Task.supervisor ++
      (List.range s.service.runs.length).map Task.run)

/-- The tasks of one thread. -/
def tasksOf : Tasks Session Task where
  ready s := s.everyone.filter fun t => (s.next? t).isSome
  step t s :=
    match s.next? t with
    | some m =>
      let rest := match t with
        | .call i => s.aborted.filter (· ≠ i)
        | _ => s.aborted
      ({ s with aborted := rest }.move m).tellResult t
    | none => s

/-- Runs these tasks, and all whom they wake. No task takes more than a few steps. -/
def settle (s : Session) (queue : List Task) : Session :=
  tasksOf.settle (64 * (s.service.calls.length + s.service.runs.length + 4)) queue s

/-- A call comes in under a name. -/
def enter (s : Session) (name : String) (m : Move) (plan : Plan) : Session × Task :=
  let i := s.service.calls.length
  ({ s with
      names := s.names ++ [name]
      plans := s.plans ++ [plan]
      tasks := s.tasks.set name i }.move m, .call i)

/-- Calls come in, one of each name, and everyone runs. -/
def enterAll (s : Session) (names : List String) (m : Move) (plan : Plan) : Session :=
  let (s, queue) := names.foldl (fun (s, queue) name =>
    let (s, t) := s.enter name m plan
    (s, queue ++ [t])) (s, [])
  s.settle queue

/-- A call goes on. -/
def isWaiting (s : Session) (i : Nat) : Bool :=
  (s.service.calls[i]?.map fun c => (resultText? c).isNone).getD false

/-- The latest number below a bound that is not among those given. -/
def latestOpen (given : Nat → Bool) (bound : Nat) : Option Nat :=
  (List.range bound).reverse.find? fun n => !given n

/-- A number that counts from one, as one that counts from zero, if it is below a bound and not
    among those given. -/
def numbered (given : Nat → Bool) (bound : Nat) (n : Nat) : Option Nat :=
  if n ≠ 0 ∧ n ≤ bound ∧ given (n - 1) = false then some (n - 1) else none

/-- The number that a command means. -/
def target (given : Nat → Bool) (bound : Nat) : Option Nat → Option Nat
  | none => latestOpen given bound
  | some n => numbered given bound n

/-- The number in a command, in a line. -/
def numberText : Option Nat → String
  | none => "null"
  | some n => toString n

/-- A command ends a run. -/
def finish (s : Session) (run : Option Nat) (e : Ending) : Session :=
  match target s.endings.contains s.service.runs.length run with
  | none => s.tell ("no run " ++ numberText run)
  | some r =>
    let running := s.isRunning r
    let s := { s with endings := s.endings.set r e }
    if running then s.settle [.run r] else s.tell ("run " ++ numberText run ++ " gone")

/-- The task that runs a finalizer. -/
def finalizerTask? (s : Session) (n : Nat) : Option Task :=
  s.everyone.find? fun t => s.service.stopping? t = some (.finalizing n)

/-- A command ends a finalizer. -/
def finalize (s : Session) (finalizer : Option Nat) : Session :=
  match target s.finalized.contains s.service.finalizers finalizer with
  | none => s.tell ("no finalizer " ++ numberText finalizer)
  | some n =>
    let s := { s with finalized := n :: s.finalized }
    match s.finalizerTask? n with
    | some t => s.settle [t]
    | none => s.tell ("finalizer " ++ numberText finalizer ++ " gone")

/-- Carries out a command and lets everyone run. -/
def carryOut (s : Session) : Command → Session
  | .start names plan => s.enterAll names .start plan
  | .stop names => s.enterAll names .stop .gated
  | .abort names =>
    let calls := (names.filterMap s.tasks.get?).filter s.isWaiting
    { s with aborted := calls }.settle (calls.map Task.call)
  | .finish run e => s.finish run e
  | .finalize finalizer => s.finalize finalizer
  | .nothing => s

/-- Carries out a command, and reports. -/
def perform (s : Session) (command : Command) : Report × Session :=
  let before := s.service.published.length
  let s := { s with lines := [] }.carryOut command
  let waiting := s.tasks.entries.filter fun e => s.isWaiting e.2
  (⟨increasing s.lines, s.service.status, s.service.published.length ≠ before,
    increasing (waiting.map Prod.fst)⟩, s)

end Session

end Service

end FrameRpc
