import FrameRpc.Handler.Validator
import FrameRpc.Reply.Convergence
import FrameRpc.Table
import FrameRpc.Text.Order

/-!
# Handlers and their registry

A handler has a name and a kind, and validators for its requests, its responses and its error
responses. The registry maps names to handlers. The first registration of a name stays: a second
one is refused and changes nothing.
-/

namespace FrameRpc

/-- What a handler does with a request. -/
inductive HandlerKind where
  /-- It pushes results over time. -/
  | subscription
  /-- It answers once. -/
  | mutation
  deriving DecidableEq, Repr

namespace HandlerKind

/-- The name of a kind. -/
def name : HandlerKind → String
  | .subscription => "subscription"
  | .mutation => "mutation"

/-- The name of a kind with a capital, as in listings. -/
def title : HandlerKind → String
  | .subscription => "Subscription"
  | .mutation => "Mutation"

/-- A dynamic value as a kind. -/
def ofValue (v : Value) : Except Mismatch HandlerKind := do
  let name ← v.choice ["subscription", "mutation"]
  return if name = "subscription" then .subscription else .mutation

end HandlerKind

/-- A handler. -/
structure Handler where
  /-- The name that requests give. -/
  name : String
  /-- What it does. -/
  kind : HandlerKind
  /-- Validates requests, if it does. -/
  request : Option Validator
  /-- Validates successful responses. -/
  response : Validator
  /-- Validates error responses, if it does. -/
  responseError : Option Validator

namespace Handler

/-- A handler that accepts every payload. -/
def new (name : String) (kind : HandlerKind) : Handler := ⟨name, kind, none, .any, none⟩

/-- Validates a request. -/
def validateRequest (h : Handler) : Validator := h.request.getD .any

/-- Validates a successful response. -/
def validateResponse (h : Handler) : Validator := h.response

/-- Validates an error response. -/
def validateResponseError (h : Handler) : Validator := h.responseError.getD .any

/-- Validates the payload of an update, as data or as an error by its header. -/
def validateUpdate (h : Handler) (header : Header) : Validator :=
  if header.isSuccess then h.validateResponse else h.validateResponseError

/-- The listing of a handler. -/
def listing (h : Handler) : String :=
  let flag (b : Bool) := if b then "true" else "false"
  "HandlerConfig \x7b name: " ++ Quoted.quote h.name ++ ", kind: " ++ h.kind.title ++
    ", request: " ++ flag h.request.isSome ++
    ", response_error: " ++ flag h.responseError.isSome ++ " \x7d"

end Handler

/-- Handlers by name. -/
structure Registry where
  /-- Each handler under its name, in the order of their registration. -/
  handlers : Table String Handler

namespace Registry

/-- No handlers. -/
def empty : Registry := ⟨.empty⟩

/-- The handler of a name. -/
def get? (r : Registry) (name : String) : Option Handler := r.handlers.get? name

/-- There is a handler of this name. -/
def contains (r : Registry) (name : String) : Bool := r.handlers.contains name

/-- Adds a handler, unless its name is taken. -/
def register (r : Registry) (h : Handler) : Except Error Registry :=
  if r.contains h.name then .error (.duplicateHandler h.name)
  else .ok ⟨r.handlers.set h.name h⟩

/-- The handler that a request is for. -/
def resolve (r : Registry) (header : Header) : Except Error Handler :=
  match header.handler with
  | none => .error (.protocol (.noHandler header.action header.id))
  | some name =>
    match r.get? name with
    | some h => .ok h
    | none => .error (.handlerNotFound name)

/-- Validates the payload of a request by the handler that it is for. -/
def validateRequest (r : Registry) (header : Header) (v : Value) : Except Error Value := do
  let h ← r.resolve header
  (h.validateRequest v).mapError Error.validation

/-- The names of the handlers, in increasing order. -/
def names (r : Registry) : List String := increasing r.handlers.keys

/-- The number of handlers. -/
def size (r : Registry) : Nat := r.handlers.size

/-- The kinds of the handlers by name, as a value. -/
def manifest (r : Registry) : Value :=
  .object (Fields.ofList
    (r.handlers.entries.map fun e => (e.1, .object [("kind", .text e.2.kind.name)])))

end Registry

end FrameRpc
