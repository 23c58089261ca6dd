import FrameRpc.Typed.Convert
import FrameRpc.Typed.Read

/-!
# Headers

The header is the first value of every frame. It names the protocol and its version, ties
responses to requests by an identifier, and says what the frame is for (`Action`). A request names
its handler; an update may say that its payload is an error. Both optional fields are left out
when unset, never sent as nil.

A header is a record like any other (`Header.type`), so it is read in every layout in which
records are read; a header that is received counts only after `Header.validate`.
-/

namespace FrameRpc

/-- The protocol tag of every valid header. -/
def protocolTag : String := "typh"

/-- The greatest protocol version that is spoken. -/
def protocolVersion : UInt32 := 1

/-- The first value of a frame. -/
structure Header where
  /-- The protocol tag. -/
  protocol : String
  /-- The protocol version. -/
  version : UInt32
  /-- Ties responses to requests. -/
  id : String
  /-- What the frame is for. -/
  action : Action
  /-- The handler that a request is for. -/
  handler : Option String
  /-- Of an update: the payload is data, not an error. -/
  success : Option Bool
  deriving DecidableEq, Repr

/-- What is wrong with a frame that can be read. -/
inductive ProtocolFault where
  /-- Another protocol's tag. -/
  | foreignTag (tag : String)
  /-- A version that is not spoken. -/
  | newerVersion (version : UInt32)
  /-- A frame for something else where an update should be. -/
  | notUpdate (action : Action)
  /-- A request that is for no handler. -/
  | noHandler (action : Action) (id : String)
  /-- A fault found elsewhere, in its own words. -/
  | other (text : String)
  deriving DecidableEq, Repr

/-- The wording of a protocol fault. -/
def ProtocolFault.message : ProtocolFault → String
  | .foreignTag tag => "unexpected protocol tag `" ++ tag ++ "`"
  | .newerVersion v =>
    s!"unsupported version {v.toNat} (max {protocolVersion.toNat})"
  | .notUpdate action => "expected server:update, got " ++ action.tag
  | .noHandler action id => action.tag ++ " frame " ++ id ++ " names no handler"
  | .other text => text

namespace Header

/-- The record type of headers. -/
def type : RecordType where
  name := "Header"
  fields := [⟨"protocol", .required .text⟩, ⟨"version", .required .u32⟩, ⟨"id", .required .text⟩,
    ⟨"action", .required .action⟩, ⟨"handler", .optional .text⟩, ⟨"success", .optional .bool⟩]

/-- The header of a record. -/
def ofRow : Row type.fields → Header
  | (protocol, version, id, action, handler, success, ()) =>
    ⟨protocol, version, id, action, handler, success⟩

/-- The record of a header. -/
def toRow (h : Header) : Row type.fields :=
  (h.protocol, h.version, h.id, h.action, h.handler, h.success, ())

/-- A header of the protocol version that is spoken, with the optional fields unset. -/
def new (id : String) (action : Action) : Header :=
  ⟨protocolTag, protocolVersion, id, action, none, none⟩

/-- The header for a handler. -/
def withHandler (h : Header) (handler : String) : Header := { h with handler := some handler }

/-- The header with the payload marked as data or as an error. -/
def withSuccess (h : Header) (success : Bool) : Header := { h with success := some success }

/-- The header of a single request. -/
def once (id handler : String) : Header := (new id .once).withHandler handler

/-- The header of a request for a stream of updates. -/
def subscribe (id handler : String) : Header := (new id .subscribe).withHandler handler

/-- The header of an update. -/
def update (id : String) (success : Bool) : Header := (new id .update).withSuccess success

/-- The payload is data. An unset mark means data. -/
def isSuccess (h : Header) : Bool := h.success.getD true

/-- Refuses the headers of other protocols and of newer versions. -/
def validate (h : Header) : Except ProtocolFault Unit :=
  if h.protocol ≠ protocolTag then .error (.foreignTag h.protocol)
  else if protocolVersion < h.version then .error (.newerVersion h.version)
  else .ok ()

/-- The encoding of a header. -/
def write (h : Header) : Bytes := type.write h.toRow

/-- Reads a header, valid or not. -/
def read : MessagePack.Reader Header := fun bs => do
  let (row, rest) ← type.read MessagePack.maxDepth bs
  return (ofRow row, rest)

/-- A dynamic value as a header, valid or not. -/
def ofValue (v : Value) : Except Mismatch Header := (type.ofValue v).map ofRow

/-- The dynamic value of a header. -/
def toValue (h : Header) : Value := type.toValue h.toRow

end Header

end FrameRpc
