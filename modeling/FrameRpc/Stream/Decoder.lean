import FrameRpc.Schema.Typed
import FrameRpc.Stream.Buffer
import FrameRpc.Stream.Source

/-!
# Decoders

Frames have no length in front, so a decoder cannot know where a frame ends. Its caller pulls one
value after the other instead. A pull takes the value at the front of the buffer, reading from the
source only as long as that value is incomplete.

A blocking decoder reads again after an interruption, an asynchronous one reports it as a failure
of the source. After a failure the pull may be issued again: no byte is lost.

A pull that ends in an error of the header (`nextHeader`), of a schema or of a conversion
(`nextCompact`, `nextCompactAs`) has taken its value all the same; every other error leaves the
buffer's position where it was.
-/

namespace FrameRpc

/-- The tuning of a decoder. -/
structure DecoderConfig where
  /-- The number of bytes that one read asks for. -/
  chunk : Nat
  /-- The greatest size of a value. -/
  limit : Nat
  deriving DecidableEq, Repr

namespace DecoderConfig

/-- Reads of 8 KiB, values of at most 64 MiB. -/
def standard : DecoderConfig := ⟨8 * 1024, 64 * 1024 * 1024⟩

/-- Sets the size of reads, to at least one byte. -/
def withChunk (c : DecoderConfig) (chunk : Nat) : DecoderConfig := { c with chunk := max chunk 1 }

/-- Sets the greatest size of a value. -/
def withLimit (c : DecoderConfig) (limit : Nat) : DecoderConfig := { c with limit := limit }

end DecoderConfig

/-- How a decoder waits for its source. -/
inductive Mode where
  /-- It blocks, and reads again after an interruption. -/
  | blocking
  /-- It suspends, and reports an interruption as a failure. -/
  | async
  deriving DecidableEq, Repr

/-- A decoder in front of a source. -/
structure Decoder where
  /-- How it waits. -/
  mode : Mode
  /-- The reads still to come, each within the chunk size. -/
  source : Source
  /-- The bytes that have arrived. -/
  buffer : Buffer
  /-- The number of reads so far, failed ones included. -/
  reads : Nat

namespace Decoder

/-- A decoder over a source. -/
def new (mode : Mode) (source : Source) (config : DecoderConfig) : Decoder :=
  ⟨mode, source.cut (max config.chunk 1), .new config.limit, 0⟩

/-- A decoder over bytes that are all there. -/
def ofBytes (bs : Bytes) : Decoder :=
  ⟨.blocking, [], .full DecoderConfig.standard.limit bs, 0⟩

/-- The offset of the next value. -/
def offset (d : Decoder) : Nat := d.buffer.offset

/-- The number of bytes that have arrived and that no value has taken. -/
def buffered (d : Decoder) : Nat := d.buffer.bytes.length

/-- Pulls from a buffer in front of a source. -/
def pullFrom {α : Type} (framing : Framing) (read : MessagePack.Reader α) (mode : Mode) :
    Source → Buffer → Nat → Except Error α × Decoder
  | source, buffer, reads =>
    match buffer.tryTake framing read with
    | (.taken a, buffer) => (.ok a, ⟨mode, source, buffer, reads⟩)
    | (.failed e, buffer) => (.error e, ⟨mode, source, buffer, reads⟩)
    | (.waiting, buffer) =>
      match source with
      | [] =>
        match (buffer.extend []).tryTake framing read with
        | (.taken a, buffer) => (.ok a, ⟨mode, [], buffer, reads + 1⟩)
        | (.failed e, buffer) => (.error e, ⟨mode, [], buffer, reads + 1⟩)
        | (.waiting, buffer) => (.error .exhausted, ⟨mode, [], buffer, reads + 1⟩)
      | .bytes bs :: source => pullFrom framing read mode source (buffer.extend bs) (reads + 1)
      | .failure text :: source => (.error (.source text), ⟨mode, source, buffer, reads + 1⟩)
      | .interruption :: source =>
        match mode with
        | .blocking => pullFrom framing read .blocking source buffer (reads + 1)
        | .async => (.error (.source "interrupted"), ⟨mode, source, buffer, reads + 1⟩)

/-- Pulls what a reader reads. -/
def pull {α : Type} (framing : Framing) (read : MessagePack.Reader α) (d : Decoder) :
    Except Error α × Decoder :=
  pullFrom framing read d.mode d.source d.buffer d.reads

/-- The next value, as a shape. -/
def next (s : Shape) (d : Decoder) : Except Error s.Carrier × Decoder := d.pull .value s.read

/-- The next value, whatever it is. -/
def nextValue (d : Decoder) : Except Error Value × Decoder := d.next .dynamic

/-- The next value, as a valid header. -/
def nextHeader (d : Decoder) : Except Error Header × Decoder :=
  let (r, d) := d.pull .value Header.read
  (r.bind Header.check, d)

/-- The domain form of the next value. -/
def nextCompact (s : Schema) (d : Decoder) : Except Error Value × Decoder :=
  let (r, d) := d.nextValue
  (r.bind fun wire => (s.decode wire).mapError Error.schema, d)

/-- The domain form of the next value, as a shape. -/
def nextCompactAs (s : Schema) (shape : Shape) (d : Decoder) :
    Except Error shape.Carrier × Decoder :=
  let (r, d) := d.nextValue
  (r.bind (s.decodeAs shape), d)

/-- The length of the list at the front; its items follow as values. -/
def nextListLength (d : Decoder) : Except Error Nat × Decoder :=
  d.pull .listHead MessagePack.readListLength

/-- Passes over the next value. -/
def skip (d : Decoder) : Except Error Unit × Decoder :=
  d.pull .value (MessagePack.skipValue MessagePack.maxDepth)

end Decoder

end FrameRpc
