import FrameRpc.Error
import FrameRpc.Schema.Basic

/-!
# Validators

A validator takes a value and gives it back in normal form, or rejects it with its issues. The
normal form under a schema is the domain form of a wire value; under a shape it is what the value
of the shape turns back into, with defaults filled in and unknown fields dropped.
-/

namespace FrameRpc

/-- A check that normalises. -/
abbrev Validator := Value → Except Rejection Value

namespace Validator

/-- Accepts everything as it is. -/
def any : Validator := .ok

/-- Rejects everything with these issues. -/
def reject (issues : Rejection) : Validator := fun _ => .error issues

/-- Accepts the wire forms of a schema. -/
def ofSchema (s : Schema) : Validator := fun v =>
  (s.decode v).mapError fun e => [Issue.ofSchemaError e]

/-- Accepts the values of a shape. -/
def typed (s : Shape) : Validator := fun v =>
  match s.ofValue v with
  | .ok a => .ok (s.toValue a)
  | .error why => .error [⟨why.text, none⟩]

/-- Accepts the values that satisfy a condition, as they are. -/
def check (holds : Value → Bool) (message : String) : Validator := fun v =>
  if holds v then .ok v else .error [⟨message, none⟩]

/-- Accepts texts that are not empty. -/
def nonEmpty : Validator :=
  check (fun | .text s => !s.isEmpty | _ => false) "expected a non-empty string"

/-- Accepts positive integers of a signed word. -/
def positive : Validator :=
  check (fun v => v.signedInt?.any (0 < ·)) "expected a positive integer"

end Validator

end FrameRpc
