import FrameRpc.MessagePack.Write
import FrameRpc.Reply.Basic

/-!
# Convergence

A value on its way to being confirmed is *optimistic*, a local prediction, or *complete*,
confirmed by the other side. As data it is a record of two fields, `state` and `value`.
-/

namespace FrameRpc

/-- A value and how settled it is. -/
inductive Convergence (α : Type) where
  /-- Predicted here. -/
  | optimistic (a : α)
  /-- Confirmed by the other side. -/
  | complete (a : α)
  deriving DecidableEq, Repr

namespace Convergence

variable {α β : Type}

/-- The value. -/
def value : Convergence α → α
  | .optimistic a | .complete a => a

/-- The value is a prediction. -/
def isOptimistic : Convergence α → Bool
  | .optimistic _ => true
  | .complete _ => false

/-- The value is confirmed. -/
def isComplete : Convergence α → Bool
  | .optimistic _ => false
  | .complete _ => true

/-- The value, if it is confirmed. -/
def complete? : Convergence α → Option α
  | .optimistic _ => none
  | .complete a => some a

/-- Maps the value. -/
def map (f : α → β) : Convergence α → Convergence β
  | .optimistic a => .optimistic (f a)
  | .complete a => .complete (f a)

/-- One value out of both cases. -/
def fold {γ : Type} (onOptimistic onComplete : α → γ) : Convergence α → γ
  | .optimistic a => onOptimistic a
  | .complete a => onComplete a

/-- Equality, of the values as given. -/
def agrees (eq : α → α → Bool) : Convergence α → Convergence α → Bool
  | .optimistic a, .optimistic b | .complete a, .complete b => eq a b
  | _, _ => false

/-- The name of the state. -/
def state : Convergence α → String
  | .optimistic _ => "optimistic"
  | .complete _ => "complete"

/-- The value in the state of this name. -/
def ofState? (name : String) (a : α) : Option (Convergence α) :=
  if name = "optimistic" then some (.optimistic a)
  else if name = "complete" then some (.complete a)
  else none

/-- The dynamic value of a converging one. -/
def toValue (c : Convergence Value) : Value :=
  .object [("state", .text c.state), ("value", c.value)]

/-- The encoding of a converging value. -/
def write (c : Convergence Value) : Bytes :=
  MessagePack.mapHead 2 ++ (MessagePack.writeText "state" ++ (MessagePack.writeText c.state ++
    (MessagePack.writeText "value" ++ MessagePack.write c.value)))

end Convergence

/-! ## Choices

A choice among names is written as its name, or as a map from the name to nil. -/

/-- The name that a dynamic value chooses among the choices. -/
def Value.choice (choices : List String) (v : Value) : Except Mismatch String :=
  let known (name : String) : Except Mismatch String :=
    if name ∈ choices then .ok name else .error (.unknownChoice name choices)
  match v with
  | .text name => known name
  | .object [(name, content)] => do
    let name ← known name
    if content.isNull then return name else .error (.wrongType content.item .unit)
  | .object _ => .error (.wrongValue .map .singleKey)
  | v => .error (.wrongType v.item .choice)

/-- The state that a dynamic value names. -/
def Convergence.stateOf (v : Value) : Except Mismatch (Value → Convergence Value) := do
  let name ← v.choice ["optimistic", "complete"]
  return if name = "optimistic" then .optimistic else .complete

/-- A dynamic value as a converging one: an object with a state and a value, or a list of the two. -/
def Convergence.ofValue : Value → Except Mismatch (Convergence Value)
  | .object fields => do
    match Fields.get? fields "state" with
    | none => .error (.missingField "state")
    | some s =>
      let state ← stateOf s
      match Fields.get? fields "value" with
      | none => .error (.missingField "value")
      | some v => return state v
  | .list [] => .error (.wrongLength 0 (.tagged "Convergence"))
  | .list [s] => do
    let _ ← stateOf s
    .error (.wrongLength 1 (.tagged "Convergence"))
  | .list [s, v] => do
    let state ← stateOf s
    return state v
  | .list (s :: _ :: rest) => do
    let _ ← stateOf s
    .error (.wrongLength (rest.length + 2) .fewerElements)
  | v => .error (.wrongType v.item (.tagged "Convergence"))

end FrameRpc
