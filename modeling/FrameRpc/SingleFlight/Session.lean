import FrameRpc.Schedule
import FrameRpc.SingleFlight.Basic
import FrameRpc.Text.Order
import FrameRpc.Text.Quoted

/-!
# Sessions with a table of lookups

A session drives a table of texts on one thread. Calls, and the leases that they end in, have
names. A command is carried out, and then everyone runs until nobody can go on; what happens is
told in lines (`Session.perform`).

A lookup waits until a command gives it its outcome, except for the keys whose outcome is settled
in advance. Every lookup can be given an outcome once; if it has ended or was given up by then, the
outcome goes nowhere.
-/

namespace FrameRpc

namespace SingleFlight

/-- How a lookup ends. -/
inductive Answer where
  /-- It succeeds with a value. -/
  | ok (value : String)
  /-- It fails. -/
  | error (e : String)
  /-- It panics. -/
  | panic

/-- What a session is told to do. -/
inductive Command where
  /-- Calls for a key, one of each name. -/
  | get (tasks : List String) (key : String)
  /-- Gives a lookup its outcome. -/
  | finish (lookup : Nat) (answer : Answer)
  /-- Cancels calls. -/
  | abort (tasks : List String)
  /-- Drops leases. -/
  | drop (refs : List String)
  /-- Clones a lease, under a new name. -/
  | clone (ref target : String)
  /-- Tells what a lease holds, and whether it shares that with another. -/
  | inspect (ref : String) (other : Option String)

/-- A table of lookups with names for its callers. -/
structure Session where
  /-- The table. -/
  table : SingleFlight String String String
  /-- The keys whose lookups end at once. -/
  settled : Table String Answer
  /-- Releases are told. -/
  tellsReleases : Bool
  /-- The name of every call. -/
  names : Table (Caller String) String
  /-- The latest call of each name. -/
  tasks : Table String (Caller String)
  /-- The lease of each name. -/
  refs : Table String (Caller String)
  /-- The keys that were asked for. -/
  keys : List String
  /-- The calls about to be cancelled. -/
  aborted : List (Caller String)
  /-- The lookups that were given an outcome. -/
  given : List Nat
  /-- What has happened during the command. -/
  lines : List String

/-- What can be seen after a command. -/
structure Report where
  /-- What has happened, in increasing order. -/
  lines : List String
  /-- The number of entries. -/
  size : Nat
  /-- What can be seen of the keys asked for so far. -/
  keys : List (String × Reading)
  /-- The names of the leases, in increasing order. -/
  refs : List String
  /-- The names of the calls that go on, in increasing order. -/
  waiting : List String

namespace Session

/-- A session with an empty table. -/
def new (settled : Table String Answer) (tellsReleases : Bool) : Session :=
  ⟨.start, settled, tellsReleases, .empty, .empty, .empty, [], [], [], []⟩

/-- A truth value, in a line. -/
def flag (b : Bool) : String := if b then "true" else "false"

/-- The line of an event. -/
def eventLine (s : Session) : Event String String String → Option String
  | .started n key => some (s!"lookup {n + 1} " ++ key)
  | .released _ key outcome r =>
    let result := match outcome with
      | .ok v => "ok " ++ v
      | .error e => "err " ++ e
    if s.tellsReleases then
      some ("release " ++ key ++ " " ++ result ++ " contains=" ++ flag r.contains ++
        s!" owners={r.owners} len={r.size}")
    else none
  | .finished _ _ _ | .abandoned _ _ => none

/-- Adds a line. -/
def tell (s : Session) (line : String) : Session := { s with lines := s.lines ++ [line] }

/-- Makes a move on the table and tells the events; an impossible move changes nothing. -/
def move (s : Session) (m : Move String String String) : Session :=
  match s.table.perform? m with
  | none => s
  | some table =>
    let events := table.log.drop s.table.log.length
    { s with table := table, lines := s.lines ++ events.filterMap s.eventLine }

/-- The phase of a caller. -/
def phase? (s : Session) (c : Caller String) : Option (Phase String String) :=
  s.table.callers.get? c

/-- The lease of a name is dropped. -/
def dropRef (s : Session) (name : String) : Session :=
  match s.refs.get? name with
  | some c => { s with refs := s.refs.erase name }.move (.drop c)
  | none => s

/-- The lease of a caller gets a name. A lease that had the name is dropped. -/
def keepRef (s : Session) (name : String) (c : Caller String) : Session :=
  let old := s.refs.get? name
  let s := { s with refs := s.refs.set name c }
  match old with
  | some old => s.move (.drop old)
  | none => s

/-- Tells the result of a call that has just ended. -/
def tellResult (s : Session) (c : Caller String) : Session :=
  let name := (s.names.get? c).getD ""
  match s.phase? c with
  | some (.holding _ v) => (s.tell ("get " ++ name ++ " ok " ++ v)).keepRef name c
  | some (.ended (.failed e)) => s.tell ("get " ++ name ++ " err " ++ e)
  | some (.ended .cancelled) => s.tell ("get " ++ name ++ " cancelled")
  | some (.ended .panicked) => s.tell ("get " ++ name ++ " panic")
  | _ => s

/-- The move by which an answer ends the lookup of a caller. -/
def answerMove (c : Caller String) : Answer → Move String String String
  | .ok v => .finish c (.ok v)
  | .error e => .finish c (.error e)
  | .panic => .panic c

/-- The next move of a caller, if it does not have to wait. -/
def next? (s : Session) (c : Caller String) : Option (Move String String String) :=
  match s.phase? c with
  | none => none
  | some p =>
    let answer? := match p with
      | .looking _ => s.settled.get? c.key
      | _ => none
    if c ∈ s.aborted then some (.cancel c)
    else
      match answer? with
      | some answer => some (answerMove c answer)
      | none => (s.table.step? c p).map fun _ => .step c

/-- The callers run as tasks of one thread. -/
def tasksOf : Tasks Session (Caller String) where
  ready s := s.table.callers.keys.filter fun c => (s.next? c).isSome
  step c s :=
    match s.next? c with
    | some m => ({ s with aborted := s.aborted.filter (· ≠ c) }.move m).tellResult c
    | none => s

/-- Runs these callers, and everyone whom they wake. No caller takes more than a few steps for
    every lookup that ends. -/
def settle (s : Session) (queue : List (Caller String)) : Session :=
  tasksOf.settle (16 * (s.table.callers.size + 2) * (s.table.callers.size + 2)) queue s

/-- The call goes on. -/
def isRunning (s : Session) (c : Caller String) : Bool :=
  match s.phase? c with
  | some (.holding _ _) | some (.ended _) | none => false
  | some _ => true

/-- A call comes in under a name. -/
def enter (s : Session) (name key : String) : Session × Caller String :=
  let c : Caller String := ⟨key, s.table.callers.size⟩
  ({ s with names := s.names.set c name, tasks := s.tasks.set name c }.move (.call c), c)

/-- The caller that runs a lookup. -/
def lookingCaller? (s : Session) (n : Nat) : Option (Caller String) :=
  (s.table.callers.entries.find? fun e =>
    match e.2 with
    | .looking m => m = n
    | _ => false).map Prod.fst

/-- Gives a lookup its outcome. The lookups count from one. -/
def finish (s : Session) (lookup : Nat) (answer : Answer) : Session :=
  if lookup ≠ 0 ∧ lookup ≤ s.table.channels.length ∧ lookup ∉ s.given then
    let s := { s with given := lookup :: s.given }
    match s.lookingCaller? (lookup - 1) with
    | some c => (s.move (answerMove c answer)).settle [c]
    | none => s.tell s!"lookup {lookup} gone"
  else s.tell s!"no lookup {lookup}"

/-- The lookup and the value of the lease of a name. -/
def held? (s : Session) (name : String) : Option (Caller String × Nat × String) := do
  let c ← s.refs.get? name
  match ← s.phase? c with
  | .holding n v => some (c, n, v)
  | _ => none

/-- Tells what a lease holds. -/
def inspect (s : Session) (ref : String) (other : Option String) : Session :=
  match s.held? ref with
  | none => s.tell "no ref"
  | some (c, n, v) =>
    let same := match other.bind s.held? with
      | some (d, m, _) => "Some(" ++ flag (decide (c.key = d.key ∧ n = m)) ++ ")"
      | none => "None"
    s.tell ("key=" ++ c.key ++ " value=" ++ v ++ s!" len={v.utf8ByteSize} same=" ++ same ++
      " debug=CacheRef \x7b key: " ++ Quoted.quote c.key ++ ", value: " ++ Quoted.quote v ++
      " \x7d")

/-- Clones a lease. -/
def clone (s : Session) (ref target : String) : Session :=
  match s.refs.get? ref with
  | none => s.tell "no ref"
  | some c =>
    let number := s.table.callers.size
    (s.move (.clone c number)).keepRef target ⟨c.key, number⟩

/-- Carries out a command and lets everyone run. -/
def carryOut (s : Session) : Command → Session
  | .get names key =>
    let s := if s.keys.contains key then s else { s with keys := s.keys ++ [key] }
    let (s, queue) := names.foldl (fun (s, queue) name =>
      let (s, c) := s.enter name key
      (s, queue ++ [c])) (s, [])
    s.settle queue
  | .finish lookup answer => s.finish lookup answer
  | .abort names =>
    let callers := (names.filterMap s.tasks.get?).filter s.isRunning
    { s with aborted := callers }.settle callers
  | .drop names => names.foldl dropRef s
  | .clone ref target => s.clone ref target
  | .inspect ref other => s.inspect ref other

/-- What can be seen now. -/
def report (s : Session) : Report where
  lines := increasing s.lines
  size := s.table.size
  keys := s.keys.map fun key => (key, s.table.reading key)
  refs := increasing s.refs.keys
  waiting := increasing ((s.tasks.entries.filter fun e => s.isRunning e.2).map Prod.fst)

/-- Carries out a command, and reports. -/
def perform (s : Session) (command : Command) : Report × Session :=
  let s := { s with lines := [] }.carryOut command
  (s.report, s)

end Session

end SingleFlight

end FrameRpc
