import FrameRpc.Error
import FrameRpc.MessagePack.Scan

/-!
# Buffers

The bytes that have arrived and that no value has taken yet. A value is taken from the front as
soon as it is complete. While the source goes on, a scan of the front value decides whether it is
complete, so that no value is read twice; once the source has ended, reading itself decides, and
bytes that end inside a value are damage.

A front value that is known to be larger than the limit, or that has filled the buffer up to the
limit without being complete, is an error (`Buffer.needMore`). Errors take nothing from the
buffer.
-/

namespace FrameRpc

open MessagePack

/-- The bytes between a source and the values taken from it. -/
structure Buffer where
  /-- The bytes not yet taken. -/
  bytes : Bytes
  /-- The number of bytes taken before them. -/
  offset : Nat
  /-- The source has ended. -/
  ended : Bool
  /-- The greatest size of a value. -/
  limit : Nat
  /-- The scan of the front value. -/
  scan : Scan

/-- What is taken from the front. -/
inductive Framing where
  /-- A whole value. -/
  | value
  /-- The head of a list, its items left to follow. -/
  | listHead
  deriving DecidableEq, Repr

/-- The outcome of trying to take something. -/
inductive Attempt (α : Type) where
  /-- It was there. -/
  | taken (a : α)
  /-- It may be there when more bytes have arrived. -/
  | waiting
  /-- It is not there and will not be. -/
  | failed (e : Error)

namespace Buffer

/-- An empty buffer in front of a source. -/
def new (limit : Nat) : Buffer := ⟨[], 0, false, limit, .start⟩

/-- A buffer that holds all there is. -/
def full (limit : Nat) (bs : Bytes) : Buffer := ⟨bs, 0, true, limit, .start⟩

/-- The buffer after a read; no bytes mean the end of input. -/
def extend (b : Buffer) (chunk : Bytes) : Buffer :=
  if chunk.isEmpty then { b with ended := true } else { b with bytes := b.bytes ++ chunk }

/-- The front value is incomplete: wait, unless it is too large already. -/
def needMore {α : Type} (b : Buffer) : Attempt α × Buffer :=
  if b.limit < b.scan.reach ∨ b.limit ≤ b.bytes.length then
    (.failed (.tooLarge b.offset b.limit), { b with scan := .start })
  else (.waiting, b)

/-- Reads from the front, and takes what was read. -/
def take {α : Type} (read : Reader α) (b : Buffer) : Attempt α × Buffer :=
  match read b.bytes with
  | .ok (a, rest) =>
    (.taken a,
      { b with bytes := rest, offset := b.offset + (b.bytes.length - rest.length), scan := .start })
  | .error why =>
    if why.isTruncation && !b.ended then b.needMore
    else (.failed (.malformed b.offset why), { b with scan := .start })

/-- Tries to take something from the front. -/
def tryTake {α : Type} (framing : Framing) (read : Reader α) (b : Buffer) :
    Attempt α × Buffer :=
  if b.bytes.isEmpty then (if b.ended then .failed .exhausted else .waiting, b)
  else if framing = .value ∧ b.ended = false then
    let (verdict, scan) := b.scan.advance b.bytes
    let b := { b with scan := scan }
    if verdict = .incomplete then b.needMore else b.take read
  else b.take read

end Buffer

end FrameRpc
