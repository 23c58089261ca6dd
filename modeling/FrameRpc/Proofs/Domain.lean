import FrameRpc.Schema.Basic

/-!
# The domain of a schema

`Schema.WellFormed` says which values a schema is made for: objects with declared names alone and
without nulls where a null would read as absence, slot arrays of exactly the declared width, and
declared literals. `Schema.Proper` is what a schema itself has to meet: no name is declared twice,
and every index that goes on the wire fits a signed word, which the length of a list in memory does.

Two facts carry every nil rule of the wire form: only null is encoded as null
(`Schema.isNull_of_encode`), and a slot array decodes the same without its last nulls
(`Schema.decodeSlots_dropTrailingNulls`, `Schema.decodeNamed_dropTrailingNulls`).
-/

namespace FrameRpc

namespace Schema

/-- The number of entries that the greatest index of a signed word leaves room for. -/
def indexRange : Nat := 0x8000000000000000

mutual

/-- No name is declared twice, and every index fits a signed word. -/
def Proper : Schema → Prop
  | .identity => True
  | .tuple fields => (fields.map Declared.name).Nodup ∧ ProperFields fields
  | .literal values => values.length ≤ indexRange
  | .lookup fields =>
    (fields.map Declared.name).Nodup ∧ fields.length ≤ indexRange ∧ ProperFields fields
  | .slots seats => ProperSlots seats
  | .namedSlots seats => (seats.map Prod.fst).Nodup ∧ ProperNamed seats
  | .each item => Proper item
  | .nullable inner => Proper inner

/-- The schema of every declared field is proper. -/
def ProperFields : List (Declared Schema) → Prop
  | [] => True
  | ⟨_, schema, _⟩ :: rest => Proper schema ∧ ProperFields rest

/-- The schema of every slot is proper. -/
def ProperSlots : List Schema → Prop
  | [] => True
  | schema :: rest => Proper schema ∧ ProperSlots rest

/-- The schema of every named slot is proper. -/
def ProperNamed : List (String × Schema) → Prop
  | [] => True
  | (_, schema) :: rest => Proper schema ∧ ProperNamed rest

end

mutual

/-- The literals declared anywhere inside. -/
def literals : Schema → List Value
  | .identity => []
  | .tuple fields => literalsOfFields fields
  | .literal values => values
  | .lookup fields => literalsOfFields fields
  | .slots seats => literalsOfSlots seats
  | .namedSlots seats => literalsOfNamed seats
  | .each item => literals item
  | .nullable inner => literals inner

/-- The literals declared inside fields. -/
def literalsOfFields : List (Declared Schema) → List Value
  | [] => []
  | ⟨_, schema, _⟩ :: rest => literals schema ++ literalsOfFields rest

/-- The literals declared inside slots. -/
def literalsOfSlots : List Schema → List Value
  | [] => []
  | schema :: rest => literals schema ++ literalsOfSlots rest

/-- The literals declared inside named slots. -/
def literalsOfNamed : List (String × Schema) → List Value
  | [] => []
  | (_, schema) :: rest => literals schema ++ literalsOfNamed rest

end

end Schema

/-- Every name of the object is one of these. -/
def Fields.Within (names : List String) (object : Fields) : Prop :=
  object.map Prod.fst ⊆ names

namespace Schema

mutual

/-- The values in the domain form of a schema. -/
def WellFormed : Schema → Value → Prop
  | .identity, _ => True
  | .tuple fields, v => ∃ object, v = .object object ∧
    Fields.Within (fields.map Declared.name) object ∧ WellFormedTuple fields object
  | .literal values, v => ∃ l ∈ values, l.agrees v = true
  | .lookup fields, v => ∃ object, v = .object object ∧
    Fields.Within (fields.map Declared.name) object ∧ WellFormedLookup fields object
  | .slots seats, v => ∃ items, v = .list items ∧ WellFormedSlots seats items
  | .namedSlots seats, v => ∃ object, v = .object object ∧
    Fields.Within (seats.map Prod.fst) object ∧ WellFormedNamed seats object
  | .each item, v => ∃ items, v = .list items ∧ ∀ x ∈ items, WellFormed item x
  | .nullable inner, v => v = .null ∨ WellFormed inner v

/-- Every required field is there, and no optional one is null. -/
def WellFormedTuple : List (Declared Schema) → Fields → Prop
  | [], _ => True
  | ⟨name, schema, isOptional⟩ :: rest, object =>
    (match object.get? name with
      | none => isOptional = true
      | some v => (isOptional = true → v ≠ .null) ∧ WellFormed schema v) ∧
    WellFormedTuple rest object

/-- No field that is there is null. -/
def WellFormedLookup : List (Declared Schema) → Fields → Prop
  | [], _ => True
  | ⟨name, schema, _⟩ :: rest, object =>
    (∀ v, object.get? name = some v → v ≠ .null ∧ WellFormed schema v) ∧
    WellFormedLookup rest object

/-- There is an item for each slot: null, or a value for the slot. -/
def WellFormedSlots : List Schema → List Value → Prop
  | [], items => items = []
  | schema :: rest, items => ∃ v others, items = v :: others ∧
    (v = .null ∨ WellFormed schema v) ∧ WellFormedSlots rest others

/-- No slot that is there is null. -/
def WellFormedNamed : List (String × Schema) → Fields → Prop
  | [], _ => True
  | (name, schema) :: rest, object =>
    (∀ v, object.get? name = some v → v ≠ .null ∧ WellFormed schema v) ∧
    WellFormedNamed rest object

end

theorem WellFormedSlots.length_eq {seats : List Schema} {items : List Value}
    (h : WellFormedSlots seats items) : items.length = seats.length := by
  induction seats generalizing items with
  | nil => rw [show items = [] from h]; rfl
  | cons schema rest ih =>
    obtain ⟨v, others, rfl, -, hothers⟩ := h
    exact congrArg (· + 1) (ih hothers)

/-! ## Nulls -/

theorem isNull_eq_true_iff {v : Value} : v.isNull = true ↔ v = .null := by
  cases v <;> simp [Value.isNull]

theorem isNull_eq_false_iff {v : Value} : v.isNull = false ↔ v ≠ .null := by
  rw [ne_eq, ← isNull_eq_true_iff, Bool.not_eq_true]

theorem isNull_of_map {x : Transformed (List Value)} {f : List Value → Value} {w : Value}
    (hf : ∀ ws, (f ws).isNull = false) (h : x.map f = .ok w) : w.isNull = false := by
  cases x with
  | error e => nomatch h
  | ok ws =>
    cases h
    exact hf ws

/-- Only null is encoded as null. -/
theorem isNull_of_encode : (S : Schema) → {v w : Value} → v.isNull = false → S.encode v = .ok w →
    w.isNull = false
  | .identity, v, w, hv, h => by
    cases h
    exact hv
  | .tuple fields, v, w, _, h => by
    cases v with
    | object object => exact isNull_of_map (fun _ => rfl) h
    | _ => nomatch h
  | .literal values, v, w, _, h => by
    rw [encode, indexOf] at h
    split at h
    · cases h
      rfl
    · nomatch h
  | .lookup fields, v, w, _, h => by
    cases v with
    | object object => exact isNull_of_map (fun _ => rfl) h
    | _ => nomatch h
  | .slots seats, v, w, _, h => by
    cases v with
    | list items =>
      rw [encode] at h
      split at h
      · nomatch h
      · exact isNull_of_map (fun _ => rfl) h
    | _ => nomatch h
  | .namedSlots seats, v, w, _, h => by
    cases v with
    | object object => exact isNull_of_map (fun _ => rfl) h
    | _ => nomatch h
  | .each item, v, w, _, h => by
    cases v with
    | list items => exact isNull_of_map (fun _ => rfl) h
    | _ => nomatch h
  | .nullable inner, v, w, hv, h => by
    rw [encode, hv] at h
    exact isNull_of_encode inner hv h

@[simp]
theorem headD_dropTrailingNulls (ws : List Value) :
    (dropTrailingNulls ws).headD .null = ws.headD .null := by
  cases ws with
  | nil => rfl
  | cons w rest =>
    rw [dropTrailingNulls]
    split
    · split
      · exact (isNull_eq_true_iff.1 ‹_›).symm
      · rfl
    · rfl

@[simp]
theorem tail_dropTrailingNulls (ws : List Value) :
    (dropTrailingNulls ws).tail = dropTrailingNulls ws.tail := by
  cases ws with
  | nil => rfl
  | cons w rest =>
    rw [dropTrailingNulls]
    split
    · rename_i hrest
      rw [List.tail_cons, hrest]
      split <;> rfl
    · rfl

theorem length_dropTrailingNulls_le (ws : List Value) :
    (dropTrailingNulls ws).length ≤ ws.length := by
  induction ws with
  | nil => exact Nat.le_refl _
  | cons w rest ih =>
    rw [dropTrailingNulls]
    split
    · split <;> simp
    · exact Nat.succ_le_succ ih

/-- Slots decode the same without the nulls at the end. -/
theorem decodeSlots_dropTrailingNulls (seats : List Schema) (i : Nat) (ws : List Value) :
    decodeSlots seats i (dropTrailingNulls ws) = decodeSlots seats i ws := by
  induction seats generalizing i ws with
  | nil => rfl
  | cons schema rest ih =>
    simp only [decodeSlots, headD_dropTrailingNulls, tail_dropTrailingNulls, ih]

/-- Named slots decode the same without the nulls at the end. -/
theorem decodeNamed_dropTrailingNulls (seats : List (String × Schema)) (i : Nat)
    (ws : List Value) (object : Fields) :
    decodeNamed seats i (dropTrailingNulls ws) object = decodeNamed seats i ws object := by
  induction seats generalizing i ws object with
  | nil => rfl
  | cons seat rest ih =>
    simp only [decodeNamed, headD_dropTrailingNulls, tail_dropTrailingNulls, ih]

end Schema

end FrameRpc
