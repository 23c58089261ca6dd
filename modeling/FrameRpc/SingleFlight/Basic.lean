import FrameRpc.Table

/-!
# Single-flight lookups

A table of values that are looked up on demand. For each key at most one lookup runs: the first
caller that finds no entry creates one and looks the value up, and everyone who asks for the same
key meanwhile waits for that lookup and gets its outcome, failures included. Whoever uses an entry
owns a share of it, a *lease*; when the last lease ends the entry is evicted, and with it goes
a release of the final outcome.

The state is the table together with all callers, each at a point between two steps that others
may interleave with. A caller

* joins the table (`joining`), and either finds the outcome there (`resolving`), or waits for the
  lookup of another (`waiting`), or runs a lookup of its own (`looking`);
* when its lookup is done, stores the outcome (`storing`), publishes it to those who wait
  (`publishing`) and resolves it;
* resolves a success to a lease that it holds (`holding`), and on a failure gives the lease up;
* when the lookup that it waits for was given up, gives up its lease and joins again (`retrying`);
* when it goes away in the middle of its lookup, removes the pending entry (`abandoning`), closes
  the channel to those who wait (`closing`) and gives up its lease (`leaving`).

`perform?` is one step of the whole system, a function of the state and of a `Move`; the states
that moves lead to from the start are `Reachable`.
-/

namespace FrameRpc

namespace SingleFlight

/-- An entry of the table. -/
structure Entry (V E : Type) where
  /-- The lookup that fills it, by number. It tells the entry from a later one of the same key. -/
  lookup : Nat
  /-- The number of leases. -/
  owners : Nat
  /-- The outcome, once the lookup is done. -/
  outcome : Option (Except E V)

/-- The channel from a lookup to those who wait for it. -/
inductive Channel (V E : Type) where
  /-- The lookup goes on. -/
  | silent
  /-- It is done. -/
  | published (outcome : Except E V)
  /-- It has been given up. -/
  | closed

/-- A caller, by the key that it asks for and a number that tells apart the callers of one key. -/
structure Caller (K : Type) where
  /-- The key. -/
  key : K
  /-- The number. -/
  number : Nat
  deriving DecidableEq, Repr

/-- How a caller ends without holding a lease. -/
inductive Ending (E : Type) where
  /-- The lookup failed. -/
  | failed (e : E)
  /-- The call was cancelled. -/
  | cancelled
  /-- The lookup that the caller ran panicked. -/
  | panicked
  /-- The lease that it held was dropped. -/
  | dropped

/-- Where a caller stands. Where a number follows, the caller owns a share of the entry of that
    lookup. -/
inductive Phase (V E : Type) where
  /-- It is about to join. -/
  | joining
  /-- It runs a lookup. -/
  | looking (n : Nat)
  /-- Its lookup is done, and it is about to store the outcome in the table. -/
  | storing (n : Nat) (outcome : Except E V)
  /-- It is about to publish the outcome. -/
  | publishing (n : Nat) (outcome : Except E V)
  /-- It waits for the lookup of another caller. -/
  | waiting (n : Nat)
  /-- It knows the outcome. -/
  | resolving (n : Nat) (outcome : Except E V)
  /-- The lookup that it waited for was given up. -/
  | retrying (n : Nat)
  /-- It goes away in the middle of its lookup, and is about to remove the pending entry. -/
  | abandoning (n : Nat) (ending : Ending E)
  /-- It is about to close the channel of its lookup. -/
  | closing (n : Nat) (ending : Ending E)
  /-- It is about to give up its lease and to end. -/
  | leaving (n : Nat) (ending : Ending E)
  /-- It holds a lease on a value. -/
  | holding (n : Nat) (value : V)
  /-- It has ended. -/
  | ended (ending : Ending E)

/-- The lookup of whose entry a caller owns a share. -/
def Phase.lease? {V E : Type} : Phase V E → Option Nat
  | .looking n | .storing n _ | .publishing n _ | .waiting n | .resolving n _ | .retrying n
  | .abandoning n _ | .closing n _ | .leaving n _ | .holding n _ => some n
  | .joining | .ended _ => none

/-- What can be seen of a key. -/
structure Reading where
  /-- The key has an entry. -/
  contains : Bool
  /-- The number of leases on it. -/
  owners : Nat
  /-- The number of entries of all keys. -/
  size : Nat
  deriving DecidableEq, Repr

/-- What happens to a key. -/
inductive Event (K V E : Type) where
  /-- A lookup starts. -/
  | started (lookup : Nat) (key : K)
  /-- A lookup is done. -/
  | finished (lookup : Nat) (key : K) (outcome : Except E V)
  /-- A lookup is given up, because its caller was cancelled or the lookup panicked. -/
  | abandoned (lookup : Nat) (key : K)
  /-- The entry of a finished lookup has been evicted; what can be seen of its key at that time. -/
  | released (lookup : Nat) (key : K) (outcome : Except E V) (reading : Reading)

end SingleFlight

/-- A table of lookups and its callers. -/
structure SingleFlight (K V E : Type) where
  /-- The entries. -/
  entries : Table K (SingleFlight.Entry V E)
  /-- The channels of the lookups that have started, by number. -/
  channels : List (SingleFlight.Channel V E)
  /-- Everyone who has called. -/
  callers : Table (SingleFlight.Caller K) (SingleFlight.Phase V E)
  /-- What has happened so far. -/
  log : List (SingleFlight.Event K V E)

namespace SingleFlight

variable {K V E : Type}

/-- Nobody has called. -/
def start : SingleFlight K V E := ⟨.empty, [], .empty, []⟩

/-- The channel of a lookup. -/
def channel (s : SingleFlight K V E) (n : Nat) : Channel V E := s.channels.getD n .closed

/-- The number of entries. -/
def size (s : SingleFlight K V E) : Nat := s.entries.size

variable [DecidableEq K]

/-- The key has an entry. -/
def contains (s : SingleFlight K V E) (key : K) : Bool := s.entries.contains key

/-- The number of leases on the entry of a key. -/
def owners (s : SingleFlight K V E) (key : K) : Nat := ((s.entries.get? key).map Entry.owners).getD 0

/-- What can be seen of a key. -/
def reading (s : SingleFlight K V E) (key : K) : Reading := ⟨s.contains key, s.owners key, s.size⟩

/-- The number of callers that own a share of the entry of a lookup. -/
def leases (s : SingleFlight K V E) (key : K) (n : Nat) : Nat :=
  s.callers.count fun c p => c.key = key ∧ p.lease? = some n

/-- Something happens. -/
def tell (s : SingleFlight K V E) (e : Event K V E) : SingleFlight K V E :=
  { s with log := s.log ++ [e] }

/-- Sets the phase of a caller. -/
def place (s : SingleFlight K V E) (c : Caller K) (p : Phase V E) : SingleFlight K V E :=
  { s with callers := s.callers.set c p }

/-- The entry of a key, if it is still that of a lookup. -/
def entryOf? (s : SingleFlight K V E) (key : K) (n : Nat) : Option (Entry V E) :=
  (s.entries.get? key).filter fun e => e.lookup = n

/-- Adds a lease on the entry of a lookup. -/
def retain (s : SingleFlight K V E) (key : K) (n : Nat) : SingleFlight K V E :=
  match s.entryOf? key n with
  | some e => { s with entries := s.entries.set key { e with owners := e.owners + 1 } }
  | none => s

/-- Ends a lease on the entry of a lookup. The last one takes the entry with it; the outcome, if
    there is one, is released. -/
def release (s : SingleFlight K V E) (key : K) (n : Nat) : SingleFlight K V E :=
  match s.entryOf? key n with
  | some e =>
    if e.owners ≤ 1 then
      let s := { s with entries := s.entries.erase key }
      match e.outcome with
      | some o => s.tell (.released n key o (s.reading key))
      | none => s
    else { s with entries := s.entries.set key { e with owners := e.owners - 1 } }
  | none => s

/-- Stores the outcome of a lookup in its entry. -/
def store (s : SingleFlight K V E) (key : K) (n : Nat) (outcome : Except E V) :
    SingleFlight K V E :=
  match s.entryOf? key n with
  | some e => { s with entries := s.entries.set key { e with outcome := some outcome } }
  | none => s

/-- Removes the entry of a lookup that is not done. -/
def abandon (s : SingleFlight K V E) (key : K) (n : Nat) : SingleFlight K V E :=
  match s.entryOf? key n with
  | some e => if e.outcome.isNone then { s with entries := s.entries.erase key } else s
  | none => s

/-- The entry of a key, unless its lookup has been given up. -/
def liveEntry? (s : SingleFlight K V E) (key : K) : Option (Entry V E) :=
  (s.entries.get? key).filter fun e =>
    match e.outcome, s.channel e.lookup with
    | none, .closed => false
    | _, _ => true

/-- Joins the table: the caller becomes an owner of the entry of its key, or starts a lookup. -/
def join (s : SingleFlight K V E) (c : Caller K) : SingleFlight K V E :=
  match s.liveEntry? c.key with
  | some e =>
    let s := { s with entries := s.entries.set c.key { e with owners := e.owners + 1 } }
    match e.outcome with
    | some o => s.place c (.resolving e.lookup o)
    | none => s.place c (.waiting e.lookup)
  | none =>
    let n := s.channels.length
    { entries := s.entries.set c.key ⟨n, 1, none⟩
      channels := s.channels ++ [.silent]
      callers := s.callers.set c (.looking n)
      log := s.log ++ [.started n c.key] }

/-- What may happen next. -/
inductive Move (K V E : Type) where
  /-- A call comes in. -/
  | call (c : Caller K)
  /-- A caller takes its next step. -/
  | step (c : Caller K)
  /-- The lookup that a caller runs is done. -/
  | finish (c : Caller K) (outcome : Except E V)
  /-- The lookup that a caller runs panics. -/
  | panic (c : Caller K)
  /-- A call is cancelled. -/
  | cancel (c : Caller K)
  /-- A lease is cloned, for a caller of the same key. -/
  | clone (c : Caller K) (number : Nat)
  /-- A lease is dropped. -/
  | drop (c : Caller K)

/-- The caller that a move is about. -/
def Move.caller : Move K V E → Caller K
  | .call c | .step c | .finish c _ | .panic c | .cancel c | .clone c _ | .drop c => c

/-- The next step of a caller at a phase, if it does not have to wait. -/
def step? (s : SingleFlight K V E) (c : Caller K) : Phase V E → Option (SingleFlight K V E)
  | .joining => some (s.join c)
  | .storing n o => some ((s.store c.key n o).place c (.publishing n o))
  | .publishing n o =>
    some ({ s with channels := s.channels.set n (.published o) }.place c (.resolving n o))
  | .waiting n =>
    match s.channel n with
    | .silent => none
    | .published o => some (s.place c (.resolving n o))
    | .closed => some (s.place c (.retrying n))
  | .resolving n (.ok v) => some (s.place c (.holding n v))
  | .resolving n (.error e) => some ((s.release c.key n).place c (.ended (.failed e)))
  | .retrying n => some ((s.release c.key n).place c .joining)
  | .abandoning n ending => some ((s.abandon c.key n).place c (.closing n ending))
  | .closing n ending =>
    some ({ s with channels := s.channels.set n .closed }.place c (.leaving n ending))
  | .leaving n ending => some ((s.release c.key n).place c (.ended ending))
  | .looking _ | .holding _ _ | .ended _ => none

/-- The state after a move, if the move is possible. -/
def perform? (s : SingleFlight K V E) : Move K V E → Option (SingleFlight K V E)
  | .call c =>
    match s.callers.get? c with
    | none => some (s.place c .joining)
    | some _ => none
  | .step c => (s.callers.get? c).bind (s.step? c)
  | .finish c o =>
    match s.callers.get? c with
    | some (.looking n) => some ((s.tell (.finished n c.key o)).place c (.storing n o))
    | _ => none
  | .panic c =>
    match s.callers.get? c with
    | some (.looking n) => some ((s.tell (.abandoned n c.key)).place c (.abandoning n .panicked))
    | _ => none
  | .cancel c =>
    match s.callers.get? c with
    | some .joining => some (s.place c (.ended .cancelled))
    | some (.waiting n) => some (s.place c (.leaving n .cancelled))
    | some (.looking n) => some ((s.tell (.abandoned n c.key)).place c (.abandoning n .cancelled))
    | _ => none
  | .clone c number =>
    match s.callers.get? c, s.callers.get? ⟨c.key, number⟩ with
    | some (.holding n v), none =>
      some ((s.retain c.key n).place ⟨c.key, number⟩ (.holding n v))
    | _, _ => none
  | .drop c =>
    match s.callers.get? c with
    | some (.holding n _) => some ((s.release c.key n).place c (.ended .dropped))
    | _ => none

/-- The state after a list of moves, each of them possible in its turn. -/
def run? (s : SingleFlight K V E) : List (Move K V E) → Option (SingleFlight K V E)
  | [] => some s
  | m :: rest => (s.perform? m).bind fun s => run? s rest

/-- The states that moves lead to. -/
inductive Reachable : SingleFlight K V E → Prop where
  /-- At first nobody has called. -/
  | start : Reachable start
  /-- A possible move leads on. -/
  | move {s t : SingleFlight K V E} (m : Move K V E) (reached : Reachable s)
      (possible : s.perform? m = some t) : Reachable t

end SingleFlight

end FrameRpc
