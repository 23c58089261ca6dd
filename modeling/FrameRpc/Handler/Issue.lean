import FrameRpc.Schema.Error
import FrameRpc.Typed.Shape

/-!
# Issues

A validator that rejects a value says why: in a list of issues, each with a message and, where
the value at fault lies inside, the text of its path.
-/

namespace FrameRpc

/-- Something wrong with a value. -/
structure Issue where
  /-- What is wrong. -/
  message : String
  /-- Where, if not at the value itself. -/
  path : Option String
  deriving DecidableEq, Repr

namespace Issue

/-- The record type of issues. -/
def type : RecordType where
  name := "Issue"
  fields := [⟨"message", .required .text⟩, ⟨"path", .optional .text⟩]

/-- The issue of a record. -/
def ofRow : Row type.fields → Issue
  | (message, path, ()) => ⟨message, path⟩

/-- The record of an issue. -/
def toRow (i : Issue) : Row type.fields := (i.message, i.path, ())

/-- The text of an issue, behind its path. -/
def text (i : Issue) : String :=
  match i.path with
  | some path => path ++ ": " ++ i.message
  | none => i.message

/-- The issue of a schema error. -/
def ofSchemaError (e : SchemaError) : Issue := ⟨e.fault.message, some e.path.text⟩

end Issue

/-- Why a value is rejected. -/
abbrev Rejection := List Issue

/-- The text of a rejection, its issues one after the other. -/
def Rejection.message (r : Rejection) : String :=
  if r.isEmpty then "invalid value" else "; ".intercalate (r.map Issue.text)

end FrameRpc
