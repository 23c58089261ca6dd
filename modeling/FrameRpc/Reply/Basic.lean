import FrameRpc.Typed.Convert
import FrameRpc.Typed.Read

/-!
# Replies

The reply to a request or a subscription is either still loading or settled. A settlement carries
a success or a failure value, and may carry the time at which the value was produced and a
reference into a trace. Combinators leave a loading reply as it is, and never touch the time or
the trace of a settled one.
-/

namespace FrameRpc

/-- A reference into a trace. -/
structure Span where
  /-- The trace. -/
  traceId : String
  /-- The span within the trace. -/
  spanId : String
  deriving DecidableEq, Repr

namespace Span

/-- The record type of spans. -/
def type : RecordType where
  name := "Span"
  fields := [⟨"traceId", .required .text⟩, ⟨"spanId", .required .text⟩]

/-- The span of a record. -/
def ofRow : Row type.fields → Span
  | (traceId, spanId, ()) => ⟨traceId, spanId⟩

/-- The record of a span. -/
def toRow (s : Span) : Row type.fields := (s.traceId, s.spanId, ())

end Span

/-- A settled outcome. -/
structure Settlement (α ε : Type) where
  /-- When the value was produced, in milliseconds since the epoch. -/
  timestamp : Option Nat
  /-- The success or failure value. -/
  value : Except ε α
  /-- The reference into a trace. -/
  span : Option Span

namespace Settlement

variable {α β ε ζ : Type}

/-- A settlement without time or trace. -/
def new (value : Except ε α) : Settlement α ε := ⟨none, value, none⟩

/-- Maps a success value. -/
def map (f : α → β) (s : Settlement α ε) : Settlement β ε :=
  ⟨s.timestamp, s.value.map f, s.span⟩

/-- Maps a failure value. -/
def mapError (f : ε → ζ) (s : Settlement α ε) : Settlement α ζ :=
  ⟨s.timestamp, s.value.mapError f, s.span⟩

/-- The value is a success. -/
def isOk (s : Settlement α ε) : Bool := s.value.isOk

end Settlement

/-- The reply to a request, as far as it is known. -/
inductive Reply (α ε : Type) where
  /-- Nothing is known yet. -/
  | loading
  /-- The outcome is known. -/
  | settled (s : Settlement α ε)

namespace Reply

variable {α β ε ζ : Type}

instance : Inhabited (Reply α ε) := ⟨.loading⟩

/-- Settled with a success. -/
def ok (a : α) : Reply α ε := .settled (.new (.ok a))

/-- Settled with a failure. -/
def error (e : ε) : Reply α ε := .settled (.new (.error e))

/-- The reply with its settlement changed. -/
def modify (f : Settlement α ε → Settlement β ζ) : Reply α ε → Reply β ζ
  | .loading => .loading
  | .settled s => .settled (f s)

/-- Dates a settled reply. -/
def withTimestamp (t : Nat) (r : Reply α ε) : Reply α ε :=
  r.modify fun s => { s with timestamp := some t }

/-- Refers a settled reply to a trace. -/
def withSpan (span : Span) (r : Reply α ε) : Reply α ε :=
  r.modify fun s => { s with span := some span }

/-- Nothing is known yet. -/
def isLoading : Reply α ε → Bool
  | .loading => true
  | .settled _ => false

/-- The outcome is known. -/
def isSettled (r : Reply α ε) : Bool := !r.isLoading

/-- The settlement, if there is one. -/
def settlement? : Reply α ε → Option (Settlement α ε)
  | .loading => none
  | .settled s => some s

/-- The success value, if there is one. -/
def value? (r : Reply α ε) : Option α := r.settlement?.bind fun s => s.value.toOption

/-- The time of the settlement, if it has one. -/
def timestamp? (r : Reply α ε) : Option Nat := r.settlement?.bind Settlement.timestamp

/-- Maps a success value. -/
def map (f : α → β) (r : Reply α ε) : Reply β ε := r.modify (Settlement.map f)

/-- Maps a failure value. -/
def mapError (f : ε → ζ) (r : Reply α ε) : Reply α ζ := r.modify (Settlement.mapError f)

/-- One value out of both cases. -/
def fold {γ : Type} (onLoading : γ) (onSettled : Settlement α ε → γ) : Reply α ε → γ
  | .loading => onLoading
  | .settled s => onSettled s

/-- Equality of replies, of their values as given. -/
def agrees (eqOk : α → α → Bool) (eqError : ε → ε → Bool) : Reply α ε → Reply α ε → Bool
  | .loading, .loading => true
  | .settled s, .settled t =>
    s.timestamp == t.timestamp && s.span == t.span &&
      match s.value, t.value with
      | .ok a, .ok b => eqOk a b
      | .error a, .error b => eqError a b
      | _, _ => false
  | _, _ => false

end Reply

end FrameRpc
