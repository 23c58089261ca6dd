import FrameRpc.MessagePack.Marker

/-!
# Scanning for the end of a value

A scan walks the markers and length fields of the value at the front of a buffer, without reading
bodies, to find where the value ends. It keeps how many bytes it has accounted for, which may
reach beyond the buffer, and how many values have not been reached yet. When the buffer grows the
scan goes on where it stopped (`Scan.advance`), so a value that arrives in pieces is walked once.

Both counters saturate at the greatest word.
-/

namespace FrameRpc

namespace MessagePack

/-- The greatest unsigned word. -/
def wordMax : Nat := 0xFFFFFFFFFFFFFFFF

/-- A number, cut off at the greatest word. -/
def saturate (n : Nat) : Nat := min n wordMax

/-- The state of a scan. -/
structure Scan where
  /-- The bytes accounted for. -/
  reach : Nat
  /-- The values whose marker has not been reached. -/
  pending : Nat
  deriving DecidableEq, Repr

/-- The state before the first byte. -/
def Scan.start : Scan := ⟨0, 1⟩

/-- What a scan knows about the value at the front. -/
inductive Verdict where
  /-- The value ends where the scan has reached. -/
  | complete
  /-- The value needs more bytes. -/
  | incomplete
  /-- The value holds a reserved marker. -/
  | malformed
  deriving DecidableEq, Repr

/-- What a marker announces: the octets of its length field, the octets after it, and the values
    after those. -/
structure Announced where
  width : Nat
  body : Nat
  nested : Nat
  deriving DecidableEq, Repr

/-- What a layout announces, given the bytes behind the marker; none when its length field is cut
    off. -/
def Layout.announced (layout : Layout) (rest : Bytes) : Option Announced :=
  match layout with
  | .fixed n => some ⟨0, n, 0⟩
  | .nested n => some ⟨0, 0, n⟩
  | .sized w extra =>
    let data := rest.take w.octets
    if data.length = w.octets then some ⟨w.octets, ofBigEndian data + extra, 0⟩ else none
  | .counted w per =>
    let data := rest.take w.octets
    if data.length = w.octets then some ⟨w.octets, 0, ofBigEndian data * per⟩ else none

/-- The scan behind a marker that announces `a`. -/
def Scan.past (s : Scan) (a : Announced) : Scan :=
  ⟨saturate (s.reach + 1 + a.width + a.body), saturate (s.pending - 1 + a.nested)⟩

/-- Walks the bytes from where the scan has reached, in a buffer of `size` bytes. -/
def Scan.walk (size : Nat) (s : Scan) (rest : Bytes) : Verdict × Scan :=
  if s.pending = 0 then (if s.reach ≤ size then .complete else .incomplete, s)
  else
    match rest with
    | [] => (.incomplete, s)
    | b :: rest =>
      match (Marker.ofByte b).layout with
      | none => (.malformed, s)
      | some layout =>
        match layout.announced rest with
        | none => (.incomplete, s)
        | some a => walk size (s.past a) (rest.drop (a.width + a.body))
termination_by rest.length
decreasing_by
  simp only [List.length_drop, List.length_cons]
  omega

/-- Goes on with the buffer as it is now. -/
def Scan.advance (s : Scan) (buffer : Bytes) : Verdict × Scan :=
  s.walk buffer.length (buffer.drop s.reach)

end MessagePack

end FrameRpc
