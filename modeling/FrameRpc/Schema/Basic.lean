import FrameRpc.Schema.Error

/-!
# Compact schemas

A schema is a transform between the *domain* form of a value, which names everything, and a
smaller *wire* form, which names by position what both sides have declared.

| Schema        | Domain                          | Wire                     |
|---------------|---------------------------------|--------------------------|
| `identity`    | anything                        | the same                 |
| `tuple`       | an object                       | its fields by position   |
| `literal`     | a declared value                | its index                |
| `lookup`      | an object                       | pairs of index and value |
| `slots`       | a list of optional values       | without its last nulls   |
| `namedSlots`  | an object of optional values    | the same, by position    |
| `each`        | a list                          | item by item             |
| `nullable`    | null, or a value of the inner schema | the same            |

`Schema.encode` goes from the domain to the wire, `Schema.decode` back. In an optional field null
and absent are the same; a lookup and named slots never keep a null.
-/

namespace FrameRpc

/-- A declared field: its name, the transform of its value, and whether it may be absent. -/
structure Declared (σ : Type) where
  /-- The name in the domain form. -/
  name : String
  /-- The transform of the value. -/
  schema : σ
  /-- The field may be absent. -/
  isOptional : Bool

/-- A transform between the domain and the wire form of a value. -/
inductive Schema where
  /-- Everything passes as it is. -/
  | identity
  /-- An object, as the list of its declared fields. -/
  | tuple (fields : List (Declared Schema))
  /-- One of the declared values, as its index. -/
  | literal (values : List Value)
  /-- An object, as pairs of the index and the value of the fields that it has. -/
  | lookup (fields : List (Declared Schema))
  /-- A list of optional values, one schema for each, as the list without its last nulls. -/
  | slots (slots : List Schema)
  /-- An object of optional values, as a list in declared order without its last nulls. -/
  | namedSlots (slots : List (String × Schema))
  /-- A list, item by item. -/
  | each (item : Schema)
  /-- Null as it is, everything else by the inner schema. -/
  | nullable (inner : Schema)

instance : Inhabited Schema := ⟨.identity⟩

namespace Schema

/-- As many slots of one schema. -/
def uniform (width : Nat) (s : Schema) : Schema := .slots (List.replicate width s)

/-- A fault of the value at hand: another kind than the schema asks for. -/
def unexpected {α : Type} (wanted : Wanted) (v : Value) : Transformed α :=
  .error (.here (.unexpected wanted v.kind))

/-- The index of the first declared value that equals the value. -/
def indexOf (values : List Value) (v : Value) : Transformed Value :=
  match values.findIdx? (·.agrees v) with
  | some i => .ok (.ofNat i)
  | none => .error (.here (.unknownLiteral v))

/-- The entry at an integer index. -/
def entryAt {α : Type} (entries : List α) (i : Int) : Transformed α :=
  match (if 0 ≤ i then entries[i.toNat]? else none) with
  | some a => .ok a
  | none => .error (.here (.unknownIndex i entries.length))

/-- The entry at the index that a wire value is. -/
def entryOf {α : Type} (entries : List α) (wire : Value) : Transformed α :=
  match wire.signedInt? with
  | some i => entryAt entries i
  | none => unexpected .integer wire

/-- The list without the nulls at its end. -/
def dropTrailingNulls : List Value → List Value
  | [] => []
  | v :: rest =>
    match dropTrailingNulls rest with
    | [] => if v.isNull then [] else [v]
    | kept => v :: kept

/-- Transforms the items of a list in turn; `i` is the index of the first one. -/
def mapItems (f : Value → Transformed Value) (i : Nat) : List Value → Transformed (List Value)
  | [] => .ok []
  | v :: rest => do
    let w ← (f v).under (.index i)
    let ws ← mapItems f (i + 1) rest
    return w :: ws

/-- The entry of a lookup: a list of an index and a value. -/
def pairOf (v : Value) : Transformed (Value × Value) :=
  match v with
  | .list [i, x] => .ok (i, x)
  | v => unexpected .pair v

/-- The value of a declared field, unless it is absent or an optional null. -/
def present (name : String) (isOptional : Bool) (object : Fields) : Option Value :=
  match object.get? name with
  | some .null => if isOptional then none else some .null
  | v => v

/-- Decodes the pairs of a lookup of `count` entries into the fields already decoded; `pos` is the
    position of the first pair. `entry` gives, for the index of an entry, its name and its decoded
    value. -/
def decodePairs (count : Nat) (entry : Nat → Value → Option (String × Transformed Value))
    (pos : Nat) : List Value → Fields → Transformed Fields
  | [], object => .ok object
  | pair :: rest, object => do
    let (index, w) ← (pairOf pair).under (.index pos)
    let i ← match index.signedInt? with
      | some i => Except.ok i
      | none => ((unexpected .integer index).under (.index 0)).under (.index pos)
    match (if 0 ≤ i then entry i.toNat w else none) with
    | some (name, decoded) =>
      let v ← (decoded.under (.index 1)).under (.index pos)
      decodePairs count entry (pos + 1) rest (object.insert name v)
    | none =>
      .error (((SchemaError.here (.unknownIndex i count)).under (.index 0)).under (.index pos))

mutual

/-- From the domain form to the wire form. -/
def encode : Schema → Value → Transformed Value
  | .identity, v => .ok v
  | .tuple fields, v =>
    match v with
    | .object object => (encodeTuple fields object).map .list
    | v => unexpected .map v
  | .literal values, v => indexOf values v
  | .lookup fields, v =>
    match v with
    | .object object => (encodeLookup fields 0 object).map .list
    | v => unexpected .map v
  | .slots seats, v =>
    match v with
    | .list items =>
      if seats.length < items.length then
        .error (.here (.arity seats.length items.length))
      else (encodeSlots seats 0 items).map fun ws => .list (dropTrailingNulls ws)
    | v => unexpected .array v
  | .namedSlots seats, v =>
    match v with
    | .object object => (encodeNamed seats object).map fun ws => .list (dropTrailingNulls ws)
    | v => unexpected .map v
  | .each item, v =>
    match v with
    | .list items => (mapItems (encode item) 0 items).map .list
    | v => unexpected .array v
  | .nullable inner, v => if v.isNull then .ok .null else encode inner v

/-- The values of the declared fields of an object. -/
def encodeTuple : List (Declared Schema) → Fields → Transformed (List Value)
  | [], _ => .ok []
  | ⟨name, schema, isOptional⟩ :: rest, object => do
    let w ← match present name isOptional object with
      | some v => (encode schema v).under (.field name)
      | none => if isOptional then .ok .null else .error (.here (.missingField name))
    let ws ← encodeTuple rest object
    return w :: ws

/-- The pairs of the declared fields that an object has; `i` is the index of the first field. -/
def encodeLookup : List (Declared Schema) → Nat → Fields → Transformed (List Value)
  | [], _, _ => .ok []
  | ⟨name, schema, _⟩ :: rest, i, object =>
    match object.get? name with
    | none | some .null => encodeLookup rest (i + 1) object
    | some v => do
      let w ← (encode schema v).under (.field name)
      let ws ← encodeLookup rest (i + 1) object
      return .list [.ofNat i, w] :: ws

/-- The items of a list, each by the schema of its slot; `i` is the index of the first one. -/
def encodeSlots : List Schema → Nat → List Value → Transformed (List Value)
  | schema :: rest, i, v :: items => do
    let w ← if v.isNull then .ok .null else (encode schema v).under (.index i)
    let ws ← encodeSlots rest (i + 1) items
    return w :: ws
  | _, _, _ => .ok []

/-- The values of the named slots of an object, null where it has none. -/
def encodeNamed : List (String × Schema) → Fields → Transformed (List Value)
  | [], _ => .ok []
  | (name, schema) :: rest, object => do
    let v := (object.get? name).getD .null
    let w ← if v.isNull then .ok .null else (encode schema v).under (.field name)
    let ws ← encodeNamed rest object
    return w :: ws

end

mutual

/-- From the wire form to the domain form. -/
def decode : Schema → Value → Transformed Value
  | .identity, w => .ok w
  | .tuple fields, w =>
    match w with
    | .list items =>
      if fields.length < items.length then
        .error (.here (.arity fields.length items.length))
      else (decodeTuple fields 0 items []).map .object
    | w => unexpected .array w
  | .literal values, w => entryOf values w
  | .lookup fields, w =>
    match w with
    | .list pairs =>
      (decodePairs fields.length (fun i w => decodeEntry fields i w) 0 pairs []).map .object
    | w => unexpected .array w
  | .slots seats, w =>
    match w with
    | .list items =>
      if seats.length < items.length then
        .error (.here (.arity seats.length items.length))
      else (decodeSlots seats 0 items).map .list
    | w => unexpected .array w
  | .namedSlots seats, w =>
    match w with
    | .list items =>
      if seats.length < items.length then
        .error (.here (.arity seats.length items.length))
      else (decodeNamed seats 0 items []).map .object
    | w => unexpected .array w
  | .each item, w =>
    match w with
    | .list items => (mapItems (decode item) 0 items).map .list
    | w => unexpected .array w
  | .nullable inner, w => if w.isNull then .ok .null else decode inner w

/-- Decodes the items of a tuple into the fields already decoded; `i` is the index of the first
    item. -/
def decodeTuple : List (Declared Schema) → Nat → List Value → Fields → Transformed Fields
  | [], _, _, object => .ok object
  | ⟨name, schema, isOptional⟩ :: rest, i, items, object =>
    match items with
    | [] =>
      if isOptional then decodeTuple rest (i + 1) [] object
      else .error (.here (.missingField name))
    | w :: items =>
      if w.isNull && isOptional then decodeTuple rest (i + 1) items object
      else do
        let v ← (decode schema w).under (.index i)
        decodeTuple rest (i + 1) items (object.insert name v)

/-- The name of the entry at an index, and its decoded value. -/
def decodeEntry : List (Declared Schema) → Nat → Value → Option (String × Transformed Value)
  | [], _, _ => none
  | ⟨name, schema, _⟩ :: _, 0, w => some (name, decode schema w)
  | _ :: rest, i + 1, w => decodeEntry rest i w

/-- Decodes the items of a slot array, null where there are none; `i` is the index of the first
    item. -/
def decodeSlots : List Schema → Nat → List Value → Transformed (List Value)
  | [], _, _ => .ok []
  | schema :: rest, i, items => do
    let w := items.headD .null
    let v ← if w.isNull then .ok .null else (decode schema w).under (.index i)
    let vs ← decodeSlots rest (i + 1) items.tail
    return v :: vs

/-- Decodes the items of named slots into the fields already decoded, without nulls; `i` is the
    index of the first item. -/
def decodeNamed : List (String × Schema) → Nat → List Value → Fields → Transformed Fields
  | [], _, _, object => .ok object
  | (name, schema) :: rest, i, items, object => do
    let w := items.headD .null
    let v ← if w.isNull then .ok .null else (decode schema w).under (.index i)
    decodeNamed rest (i + 1) items.tail (if v.isNull then object else object.insert name v)

end

/-! ## Comparing schemas -/

mutual

/-- Equality of schemas, of literals as values. -/
def agrees : Schema → Schema → Bool
  | .identity, .identity => true
  | .tuple fs, .tuple gs => agreesDeclared fs gs
  | .literal vs, .literal ws => Value.agreesList vs ws
  | .lookup fs, .lookup gs => agreesDeclared fs gs
  | .slots ss, .slots ts => agreesSlots ss ts
  | .namedSlots ss, .namedSlots ts => agreesNamed ss ts
  | .each s, .each t => agrees s t
  | .nullable s, .nullable t => agrees s t
  | _, _ => false

/-- Equality of declared fields. -/
def agreesDeclared : List (Declared Schema) → List (Declared Schema) → Bool
  | [], [] => true
  | ⟨m, s, a⟩ :: fs, ⟨n, t, b⟩ :: gs => m == n && agrees s t && a == b && agreesDeclared fs gs
  | _, _ => false

/-- Equality of slots. -/
def agreesSlots : List Schema → List Schema → Bool
  | [], [] => true
  | s :: ss, t :: ts => agrees s t && agreesSlots ss ts
  | _, _ => false

/-- Equality of named slots. -/
def agreesNamed : List (String × Schema) → List (String × Schema) → Bool
  | [], [] => true
  | (m, s) :: ss, (n, t) :: ts => m == n && agrees s t && agreesNamed ss ts
  | _, _ => false

end

end Schema

end FrameRpc
