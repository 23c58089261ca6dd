import FrameRpc.Frame.Header
import FrameRpc.Handler.Issue

/-!
# Errors

Everything that can go wrong with frames, handlers and tasks, one constructor for each cause.
The end of a stream between two values (`Error.exhausted`) is no damage: it is how a reader learns
that a frame holds no more values. Bytes that end inside a value, or are no value, are
(`Error.malformed`).
-/

namespace FrameRpc

/-- What went wrong. -/
inductive Error where
  /-- The source of bytes failed. -/
  | source (text : String)
  /-- A dynamic value is not of the type asked for. -/
  | conversion (why : Mismatch)
  /-- The value at this offset cannot be read. -/
  | malformed (offset : Nat) (why : MessagePack.ReadError)
  /-- There is no further value. -/
  | exhausted
  /-- The value at this offset is larger than the limit. -/
  | tooLarge (offset limit : Nat)
  /-- A schema does not fit. -/
  | schema (why : SchemaError)
  /-- A frame can be read and is not right. -/
  | protocol (why : ProtocolFault)
  /-- No handler has this name. -/
  | handlerNotFound (name : String)
  /-- A handler has this name already. -/
  | duplicateHandler (name : String)
  /-- A validator rejected a value. -/
  | validation (why : Rejection)
  /-- A task ended badly. -/
  | taskFailed (text : String)

/-- The wording of an error. -/
def Error.message : Error → String
  | .source text => "I/O error: " ++ text
  | .conversion why => "JSON error: " ++ why.text
  | .malformed offset why => s!"decode error at byte {offset}: " ++ why.message
  | .exhausted => "stream exhausted"
  | .tooLarge offset limit => s!"value at byte {offset} exceeds maximum size of {limit} bytes"
  | .schema why => "schema error: " ++ why.message
  | .protocol why => "Protocol error: " ++ why.message
  | .handlerNotFound name => "Handler not found: " ++ name
  | .duplicateHandler name => "Handler already registered: " ++ name
  | .validation why => "validation failed: " ++ why.message
  | .taskFailed text => "task failed: " ++ text

/-- The word for the kind of an error. -/
def Error.kind : Error → String
  | .source _ => "Io"
  | .conversion _ => "Json"
  | .malformed _ _ => "Decode"
  | .exhausted => "StreamExhausted"
  | .tooLarge _ _ => "ValueTooLarge"
  | .schema _ => "Schema"
  | .protocol _ => "Protocol"
  | .handlerNotFound _ => "HandlerNotFound"
  | .duplicateHandler _ => "DuplicateHandler"
  | .validation _ => "Validation"
  | .taskFailed _ => "TaskFailed"

/-- The end of a stream between two values. -/
def Error.isExhausted : Error → Bool
  | .exhausted => true
  | _ => false

/-- Reads one value of a shape from the front of the bytes; what follows is ignored. -/
def decode (s : Shape) (bs : Bytes) : Except Error s.Carrier :=
  match s.read bs with
  | .ok (a, _) => .ok a
  | .error why => .error (.malformed 0 why)

/-- A header that is not valid is an error. -/
def Header.check (h : Header) : Except Error Header :=
  match h.validate with
  | .ok () => .ok h
  | .error why => .error (.protocol why)

/-- Reads and validates the header at the front of the bytes. -/
def Header.decode (bs : Bytes) : Except Error Header :=
  match Header.read bs with
  | .ok (h, _) => h.check
  | .error why => .error (.malformed 0 why)

end FrameRpc
