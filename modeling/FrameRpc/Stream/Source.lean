import FrameRpc.Bytes

/-!
# Sources

A source of bytes is a script of what its reads give: bytes, no bytes at all (the end of input),
a failure, or an interruption. Behind the script there is only the end of input. A read asks for
at most a chunk of bytes; what a delivery holds beyond that waits for the next read, so a source
read in chunks is the script cut into pieces that fit (`Source.cut`).
-/

namespace FrameRpc

/-- What one read gives. -/
inductive Delivery where
  /-- Bytes, or the end of input if there are none. -/
  | bytes (bs : Bytes)
  /-- A failure. -/
  | failure (text : String)
  /-- An interruption before anything was read. -/
  | interruption
  deriving DecidableEq, Repr

/-- The reads still to come. -/
abbrev Source := List Delivery

/-- The pieces of at most `n + 1` bytes, in order; one empty piece of no bytes. -/
def pieces (n : Nat) (bs : Bytes) : List Bytes :=
  match h : bs.drop (n + 1) with
  | [] => [bs]
  | b :: rest => bs.take (n + 1) :: pieces n (b :: rest)
termination_by bs.length
decreasing_by
  have := congrArg List.length h
  simp only [List.length_drop, List.length_cons] at this
  simp only [List.length_cons]
  omega

/-- A delivery as reads of at most `chunk` bytes, and at least one, give it. -/
def Delivery.cut (chunk : Nat) : Delivery → Source
  | .bytes bs => (pieces (chunk - 1) bs).map .bytes
  | d => [d]

namespace Source

/-- The script as reads of at most `chunk` bytes give it. -/
def cut (chunk : Nat) (s : Source) : Source := s.flatMap (Delivery.cut chunk)

/-- The bytes that a delivery holds. -/
def held : Delivery → Bytes
  | .bytes bs => bs
  | _ => []

/-- The bytes that no read has given yet. -/
def unread (s : Source) : Bytes := s.flatMap held

end Source

end FrameRpc
