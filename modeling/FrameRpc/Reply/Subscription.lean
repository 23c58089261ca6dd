import FrameRpc.Reply.Convergence
import FrameRpc.Stream.Decoder

/-!
# Subscriptions

A subscription holds the latest reply about a converging value. An update replaces it, unless the
update is an optimistic value that would hide a complete one: that happens when either of the two
is undated, or the complete one is not older (`Subscription.regresses`).

`Decoder.nextUpdate` makes a reply of the payload behind the header of an update.
-/

namespace FrameRpc

/-- The latest reply about a converging value. -/
structure Subscription (α ε : Type) where
  /-- The latest reply that was taken. -/
  current : Reply (Convergence α) ε

namespace Subscription

variable {α ε : Type}

/-- Nothing is known yet. -/
def new : Subscription α ε := ⟨.loading⟩

/-- The update would hide a complete value behind an optimistic one that is not known to be
    newer. -/
def regresses (s : Subscription α ε) (next : Reply (Convergence α) ε) : Bool :=
  if s.current.value?.any Convergence.isComplete && next.value?.any Convergence.isOptimistic then
    match s.current.timestamp?, next.timestamp? with
    | some current, some incoming => decide (incoming ≤ current)
    | _, _ => true
  else false

/-- Takes an update unless it regresses, and tells whether it was taken. -/
def apply (s : Subscription α ε) (next : Reply (Convergence α) ε) : Bool × Subscription α ε :=
  if s.regresses next then (false, s) else (true, ⟨next⟩)

end Subscription

/-- The payload of an update whose header has been pulled: a value of one shape on success, of
    the other on failure. -/
def Decoder.nextUpdate (header : Header) (ok error : Shape) (d : Decoder) :
    Except Error (Reply ok.Carrier error.Carrier) × Decoder :=
  if header.action = .update then
    if header.isSuccess then
      let (r, d) := d.next ok
      (r.map Reply.ok, d)
    else
      let (r, d) := d.next error
      (r.map Reply.error, d)
  else (.error (.protocol (.notUpdate header.action)), d)

end FrameRpc
