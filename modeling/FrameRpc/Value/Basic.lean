import FrameRpc.Binary64

/-!
# Dynamic values

The values that frames carry when no type is asked for: null, booleans, 64-bit integers of either
sign, finite floating-point numbers, texts, lists and objects. Integers and floating-point numbers
are different values even where they are numerically equal.

An object is a list of named values. Every operation keeps the names in increasing order
(`Fields.insert`), which is the order in which objects are written; `Value.Canonical` says that
this holds at every depth. Objects are maps: in a canonical value a name occurs once.
-/

namespace FrameRpc

/-- An integer that 64 bits hold, with or without a sign. -/
structure WideInt where
  /-- The integer. -/
  toInt : Int
  /-- A signed word can hold the negative ones. -/
  lower : -0x8000000000000000 ≤ toInt
  /-- An unsigned word can hold the others. -/
  upper : toInt < 0x10000000000000000
  deriving DecidableEq

namespace WideInt

/-- The integer of an unsigned word. -/
def ofUnsigned (n : UInt64) : WideInt :=
  ⟨n.toNat, by omega, by have := n.toNat_lt; omega⟩

/-- The integer of a signed word. -/
def ofSigned (n : Int64) : WideInt :=
  ⟨n.toInt, by have := n.le_toInt; omega, by have := n.toInt_lt; omega⟩

/-- The integer itself, when 64 bits hold it. -/
def ofInt? (i : Int) : Option WideInt :=
  if h : -0x8000000000000000 ≤ i ∧ i < 0x10000000000000000 then some ⟨i, h.1, h.2⟩ else none

/-- The integer as a signed word, when one holds it. -/
def signed? (n : WideInt) : Option Int :=
  if n.toInt < 0x8000000000000000 then some n.toInt else none

end WideInt

/-- A dynamic value. -/
inductive Value where
  /-- The absent value. -/
  | null
  /-- A truth value. -/
  | bool (b : Bool)
  /-- An integer. -/
  | int (n : WideInt)
  /-- A finite floating-point number. -/
  | float (x : Finite64)
  /-- A text. -/
  | text (s : String)
  /-- Values in order. -/
  | list (items : List Value)
  /-- Named values. -/
  | object (fields : List (String × Value))

instance : Inhabited Value := ⟨.null⟩

/-- The named values of an object. -/
abbrev Fields := List (String × Value)

namespace Fields

/-- The value of a name. -/
def get? (fields : Fields) (name : String) : Option Value :=
  fields.lookup name

/-- Sets the value of a name, in its place in the order. -/
def insert (name : String) (v : Value) : Fields → Fields
  | [] => [(name, v)]
  | (n, w) :: rest =>
    if name < n then (name, v) :: (n, w) :: rest
    else if name = n then (name, v) :: rest
    else (n, w) :: insert name v rest

/-- The fields with these names set one after the other, so that of two values for a name the
    later one stays. -/
def ofList (entries : List (String × Value)) : Fields :=
  entries.foldl (fun fields e => insert e.1 e.2 fields) []

/-- The names stand in strictly increasing order. -/
def Ordered (fields : Fields) : Prop :=
  fields.Pairwise fun a b => a.1 < b.1

end Fields

/-- The kind of a value, as messages name it. -/
inductive Kind where
  | nil | bool | number | string | array | map
  deriving DecidableEq, Repr

/-- The word for a kind. -/
def Kind.word : Kind → String
  | .nil => "nil"
  | .bool => "bool"
  | .number => "number"
  | .string => "string"
  | .array => "array"
  | .map => "map"

namespace Value

/-- The kind of a value. -/
def kind : Value → Kind
  | .null => .nil
  | .bool _ => .bool
  | .int _ | .float _ => .number
  | .text _ => .string
  | .list _ => .array
  | .object _ => .map

/-- The value is null. -/
def isNull : Value → Bool
  | .null => true
  | _ => false

/-- The integer that a value is, when a signed word holds it. -/
def signedInt? : Value → Option Int
  | .int n => n.signed?
  | _ => none

/-- The natural number below `2 ^ 64` as a value. -/
def ofNat (n : Nat) : Value := .int (WideInt.ofUnsigned (UInt64.ofNat n))

/-- A floating-point number as a value: null unless it is finite. -/
def ofFloat (x : Binary64) : Value :=
  if h : x.isFinite = true then .float ⟨x, h⟩ else .null

mutual

/-- Equality of values. Floating-point numbers compare numerically, so the two zeros agree. -/
def agrees : Value → Value → Bool
  | .null, .null => true
  | .bool a, .bool b => a == b
  | .int a, .int b => a == b
  | .float a, .float b => a.val.agrees b.val
  | .text a, .text b => a == b
  | .list as, .list bs => agreesList as bs
  | .object as, .object bs => agreesFields as bs
  | _, _ => false

/-- Equality of lists of values, item by item. -/
def agreesList : List Value → List Value → Bool
  | [], [] => true
  | a :: as, b :: bs => agrees a b && agreesList as bs
  | _, _ => false

/-- Equality of objects, field by field. -/
def agreesFields : List (String × Value) → List (String × Value) → Bool
  | [], [] => true
  | (m, a) :: as, (n, b) :: bs => m == n && agrees a b && agreesFields as bs
  | _, _ => false

end

instance : BEq Value := ⟨agrees⟩

mutual

/-- The number of containers on the longest way into a value. -/
def depth : Value → Nat
  | .list items => depthList items + 1
  | .object fields => depthFields fields + 1
  | _ => 0

/-- The greatest depth of an item. -/
def depthList : List Value → Nat
  | [] => 0
  | v :: rest => max (depth v) (depthList rest)

/-- The greatest depth of a field. -/
def depthFields : List (String × Value) → Nat
  | [] => 0
  | (_, v) :: rest => max (depth v) (depthFields rest)

end

mutual

/-- The fields of every object inside stand in order. -/
def Canonical : Value → Prop
  | .list items => CanonicalList items
  | .object fields => Fields.Ordered fields ∧ CanonicalFields fields
  | _ => True

/-- Every item is canonical. -/
def CanonicalList : List Value → Prop
  | [] => True
  | v :: rest => Canonical v ∧ CanonicalList rest

/-- Every field's value is canonical. -/
def CanonicalFields : List (String × Value) → Prop
  | [] => True
  | (_, v) :: rest => Canonical v ∧ CanonicalFields rest

end

end Value

end FrameRpc
