import FrameRpc.Proofs.Parts

/-!
# Errors point at the culprit

The path of a schema error leads, from the value that was transformed, to the value at fault, and
the error describes what is found there (`Schema.blames_of_error`).

A path is followed in two ways at once. In the value, a step goes to the value of a name or to an
item (`Value.follow?`). In the schema, it goes to the schema of this part (`Place.Part`), by way of
the pairs of a lookup; a nullable schema takes no step. What is wrong with a value can only be said
by what is asked of it where it stands (`Fault.Describes`).

An error is raised at a value and carried outwards. So the transform of a list of parts fails in one
of two ways: a part is missing, or the transform of a part fails and its error is taken one step out
(`Schema.FailsInside`).
-/

namespace FrameRpc

namespace Value

/-- The part of a value behind a step. -/
def part? : Value → Segment → Option Value
  | .object fields, .field name => Fields.get? fields name
  | .list items, .index i => items[i]?
  | _, _ => none

/-- The value at the end of a path. -/
def follow? (v : Value) : Path → Option Value
  | [] => some v
  | s :: path => (v.part? s).bind fun x => x.follow? path

end Value

/-- The two forms of a value. -/
inductive Side where
  /-- What is encoded. -/
  | domain
  /-- What is decoded. -/
  | wire

/-- What is asked of a value where it stands. -/
inductive Place where
  /-- The value has this form of the schema. -/
  | form (side : Side) (S : Schema)
  /-- The value is a pair of a lookup with these fields. -/
  | pair (fields : List (Declared Schema))
  /-- The value is the index of such a pair. -/
  | index (fields : List (Declared Schema))

namespace Place

/-- What the values of a place look like from outside. -/
def wanted? : Place → Option Wanted
  | .form .domain (.tuple _) | .form .domain (.lookup _) | .form .domain (.namedSlots _) =>
    some .map
  | .form _ (.slots _) | .form _ (.each _) | .form .wire (.tuple _) | .form .wire (.lookup _)
  | .form .wire (.namedSlots _) => some .array
  | .form .wire (.literal _) | .index _ => some .integer
  | .pair _ => some .pair
  | _ => none

/-- The number of entries that the values of a place are indices of. -/
def entries? : Place → Option Nat
  | .form .wire (.literal values) => some values.length
  | .index fields => some fields.length
  | _ => none

/-- The greatest number of items of a list at a place. -/
def width? : Place → Option Nat
  | .form _ (.slots seats) => some seats.length
  | .form .wire (.tuple fields) => some fields.length
  | .form .wire (.namedSlots seats) => some seats.length
  | _ => none

/-- The place that a step into the value leads to. -/
inductive Part : Place → Value → Segment → Place → Prop where
  /-- Into a field of a tuple. -/
  | tuple {fields : List (Declared Schema)} {v : Value} {d : Declared Schema} (h : d ∈ fields) :
    Part (.form .domain (.tuple fields)) v (.field d.name) (.form .domain d.schema)
  /-- Into a field of a lookup. -/
  | lookup {fields : List (Declared Schema)} {v : Value} {d : Declared Schema} (h : d ∈ fields) :
    Part (.form .domain (.lookup fields)) v (.field d.name) (.form .domain d.schema)
  /-- Into a named slot. -/
  | namedSlot {seats : List (String × Schema)} {v : Value} {seat : String × Schema}
    (h : seat ∈ seats) :
    Part (.form .domain (.namedSlots seats)) v (.field seat.1) (.form .domain seat.2)
  /-- To the item that is a field of a tuple. -/
  | tupleItem {fields : List (Declared Schema)} {v : Value} {i : Nat} {d : Declared Schema}
    (h : fields[i]? = some d) :
    Part (.form .wire (.tuple fields)) v (.index i) (.form .wire d.schema)
  /-- To the item that is a named slot. -/
  | namedItem {seats : List (String × Schema)} {v : Value} {i : Nat} {seat : String × Schema}
    (h : seats[i]? = some seat) :
    Part (.form .wire (.namedSlots seats)) v (.index i) (.form .wire seat.2)
  /-- To a pair of a lookup. -/
  | pair {fields : List (Declared Schema)} {v : Value} {i : Nat} :
    Part (.form .wire (.lookup fields)) v (.index i) (.pair fields)
  /-- To the index of a pair. -/
  | index {fields : List (Declared Schema)} {v : Value} :
    Part (.pair fields) v (.index 0) (.index fields)
  /-- To the value of a pair, which is of the field with this index. -/
  | entry {fields : List (Declared Schema)} {index w : Value} {n : Nat} {d : Declared Schema}
    (hindex : index.signedInt? = some (Int.ofNat n)) (hd : fields[n]? = some d) :
    Part (.pair fields) (.list [index, w]) (.index 1) (.form .wire d.schema)
  /-- To a slot. -/
  | slot {side : Side} {seats : List Schema} {v : Value} {i : Nat} {schema : Schema}
    (h : seats[i]? = some schema) :
    Part (.form side (.slots seats)) v (.index i) (.form side schema)
  /-- To an item of a list. -/
  | item {side : Side} {item : Schema} {v : Value} {i : Nat} :
    Part (.form side (.each item)) v (.index i) (.form side item)

/-- The path leads from a value at a place to another value at another place. -/
inductive Leads : Place → Value → Path → Place → Value → Prop where
  | here {P : Place} {v : Value} : Leads P v [] P v
  | step {P P' P'' : Place} {v x y : Value} {s : Segment} {path : Path} (hx : v.part? s = some x)
    (hpart : P.Part v s P') (h : Leads P' x path P'' y) : Leads P v (s :: path) P'' y
  /-- What is behind a null stands at the same place. -/
  | nullable {side : Side} {inner : Schema} {P' : Place} {v x : Value} {path : Path}
    (h : Leads (.form side inner) v path P' x) : Leads (.form side (.nullable inner)) v path P' x

theorem Leads.follow?_eq {P P' : Place} {v x : Value} {path : Path} (h : P.Leads v path P' x) :
    v.follow? path = some x := by
  induction h with
  | here => rfl
  | step hx _ _ ih => rw [Value.follow?, hx, Option.bind_some, ih]
  | nullable _ ih => exact ih

end Place

/-- The value is what is wanted. -/
def Wanted.Fits : Wanted → Value → Prop
  | .map, v => ∃ object, v = .object object
  | .array, v => ∃ items, v = .list items
  | .integer, v => ∃ i, v.signedInt? = some i
  | .pair, v => ∃ index w, v = .list [index, w]

/-- The fault is one of the value at the place. -/
inductive Fault.Describes : Fault → Place → Value → Prop where
  /-- The value is not what is wanted, and its kind is told. -/
  | unexpected {P : Place} {wanted : Wanted} {x : Value} (hP : P.wanted? = some wanted)
    (hx : ¬ wanted.Fits x) : Describes (.unexpected wanted x.kind) P x
  /-- The value equals none of the declared literals. -/
  | unknownLiteral {values : List Value} {x : Value} (hx : ∀ l ∈ values, l.agrees x = false) :
    Describes (.unknownLiteral x) (.form .domain (.literal values)) x
  /-- The value is an index beyond the declared entries. -/
  | unknownIndex {P : Place} {count : Nat} {x : Value} {i : Int} (hP : P.entries? = some count)
    (hx : x.signedInt? = some i) (hi : i < 0 ∨ count ≤ i) :
    Describes (.unknownIndex i count) P x
  /-- The value has more items than are declared. -/
  | arity {P : Place} {width : Nat} {items : List Value} (hP : P.width? = some width)
    (hitems : width < items.length) : Describes (.arity width items.length) P (.list items)
  /-- The object does not have the name of a required field. -/
  | missingField {fields : List (Declared Schema)} {d : Declared Schema} {object : Fields}
    (hd : d ∈ fields) (hrequired : d.isOptional = false) (hobject : object.get? d.name = none) :
    Describes (.missingField d.name) (.form .domain (.tuple fields)) (.object object)
  /-- The list ends before the position of a required field. -/
  | missingItem {fields : List (Declared Schema)} {d : Declared Schema} {i : Nat}
    {items : List Value} (hd : fields[i]? = some d) (hrequired : d.isOptional = false)
    (hitems : items.length ≤ i) :
    Describes (.missingField d.name) (.form .wire (.tuple fields)) (.list items)

/-- The path of the error leads, from the value at the place, to one that the error describes. -/
def Place.Blames (P : Place) (v : Value) (e : SchemaError) : Prop :=
  ∃ P' x, P.Leads v e.path P' x ∧ v.follow? e.path = some x ∧ e.fault.Describes P' x

namespace Place.Blames

variable {P P' : Place} {v x : Value} {s : Segment} {e : SchemaError}

theorem of_here {fault : Fault} (h : fault.Describes P v) (he : .here fault = e) :
    P.Blames v e := by
  subst he
  exact ⟨P, v, .here, rfl, h⟩

theorem under (hx : v.part? s = some x) (hpart : P.Part v s P') (h : P'.Blames x e) :
    P.Blames v (e.under s) := by
  obtain ⟨P'', y, hleads, -, hdescribes⟩ := h
  have hleads : P.Leads v (e.under s).path P'' y := .step hx hpart hleads
  exact ⟨P'', y, hleads, hleads.follow?_eq, hdescribes⟩

theorem nullable {side : Side} {inner : Schema} (h : (Place.form side inner).Blames v e) :
    (Place.form side (.nullable inner)).Blames v e := by
  obtain ⟨P', x, hleads, hfollow, hdescribes⟩ := h
  exact ⟨P', x, .nullable hleads, hfollow, hdescribes⟩

theorem of_unexpected {α : Type} {wanted : Wanted} (hP : P.wanted? = some wanted)
    (hv : ¬ wanted.Fits v) (h : (Schema.unexpected wanted v : Transformed α) = .error e) :
    P.Blames v e :=
  .of_here (.unexpected hP hv) (Except.error.inj h)

end Place.Blames

namespace Schema

/-- The transform of a value on a side. -/
def transform (S : Schema) : Side → Value → Transformed Value
  | .domain => S.encode
  | .wire => S.decode

/-! ## How a list of parts fails -/

/-- The error is that of a part that is there, seen from one step out. -/
def FailsInside {α : Type} (f : Value → Transformed α) (part : Option Value) (s : Segment)
    (e : SchemaError) : Prop :=
  ∃ x e', part = some x ∧ f x = .error e' ∧ e'.under s = e

section

variable {α : Type} {f : Value → Transformed α} {object done : Fields} {items : List Value}
  {fields : List (Declared Schema)} {seats : List Schema} {named : List (String × Schema)}
  {e : SchemaError} {i : Nat}

theorem FailsInside.of_under {part : Option Value} {x : Value} {s : Segment}
    (hx : part = some x) (h : (f x).under s = .error e) : FailsInside f part s e :=
  have ⟨e', hf, he⟩ := Transformed.under_eq_error.1 h
  ⟨x, e', hx, hf, he⟩

/-- A null does not fail, whatever is behind it. -/
theorem transform_nullable_eq_error {side : Side} {inner : Schema} {v : Value}
    (h : transform (.nullable inner) side v = .error e) : transform inner side v = .error e := by
  cases side with
  | domain =>
    rw [transform, encode] at h
    split at h
    · cases h
    · exact h
  | wire =>
    rw [transform, decode] at h
    split at h
    · cases h
    · exact h

/-- A slot fails only where there is a value. -/
theorem FailsInside.of_slot (side : Side) {inner : Schema} {part : Option Value} {s : Segment}
    (h : (transform (.nullable inner) side (part.getD .null)).under s = .error e) :
    FailsInside (transform inner side) part s e := by
  obtain ⟨e', hfails, he⟩ := Transformed.under_eq_error.1 h
  cases part with
  | none => cases side <;> cases hfails
  | some x => exact ⟨x, e', rfl, transform_nullable_eq_error hfails, he⟩

theorem encodeTuple_eq_error (h : encodeTuple fields object = .error e) : ∃ d ∈ fields,
    (d.isOptional = false ∧ object.get? d.name = none ∧ .here (.missingField d.name) = e) ∨
      FailsInside (encode d.schema) (object.get? d.name) (.field d.name) e := by
  induction fields with
  | nil => nomatch h
  | cons d rest ih =>
    obtain ⟨name, schema, isOptional⟩ := d
    rw [encodeTuple] at h
    split at h
    · rename_i x hx
      rcases Transformed.bind_eq_error.1 h with hfails | ⟨w, -, hrest⟩
      · exact ⟨_, List.mem_cons_self, .inr (.of_under (get?_of_present hx) hfails)⟩
      · exact List.exists_mem_cons_of_exists (ih (Transformed.bind_pure_eq_error.1 hrest))
    · rename_i hx
      cases isOptional with
      | true => exact List.exists_mem_cons_of_exists (ih (Transformed.bind_pure_eq_error.1 h))
      | false => exact ⟨_, List.mem_cons_self, .inl ⟨rfl, get?_of_missing hx, Except.error.inj h⟩⟩

theorem encodeLookup_eq_error (h : encodeLookup fields i object = .error e) :
    ∃ d ∈ fields, FailsInside (encode d.schema) (object.get? d.name) (.field d.name) e := by
  induction fields generalizing i with
  | nil => nomatch h
  | cons d rest ih =>
    obtain ⟨name, schema, isOptional⟩ := d
    rw [encodeLookup] at h
    split at h
    · exact List.exists_mem_cons_of_exists (ih h)
    · exact List.exists_mem_cons_of_exists (ih h)
    · rename_i x _ hx
      rcases Transformed.bind_eq_error.1 h with hfails | ⟨w, -, hrest⟩
      · exact ⟨_, List.mem_cons_self, .of_under hx hfails⟩
      · exact List.exists_mem_cons_of_exists (ih (Transformed.bind_pure_eq_error.1 hrest))

theorem encodeNamed_eq_error (h : encodeNamed named object = .error e) :
    ∃ seat ∈ named, FailsInside (encode seat.2) (object.get? seat.1) (.field seat.1) e := by
  induction named with
  | nil => nomatch h
  | cons seat rest ih =>
    obtain ⟨name, schema⟩ := seat
    rw [encodeNamed, encode_slot] at h
    rcases Transformed.bind_eq_error.1 h with hfails | ⟨w, -, hrest⟩
    · exact ⟨_, List.mem_cons_self, .of_slot .domain hfails⟩
    · exact List.exists_mem_cons_of_exists (ih (Transformed.bind_pure_eq_error.1 hrest))

/-- What fails among the later items fails among all of them, at the next index. -/
theorem FailsInside.later {k : Nat} (h : FailsInside f items.tail[k]? (.index (i + 1 + k)) e) :
    FailsInside f items[k + 1]? (.index (i + (k + 1))) e := by
  rw [List.getElem?_tail, Nat.add_assoc, Nat.add_comm 1] at h
  exact h

theorem encodeSlots_eq_error (h : encodeSlots seats i items = .error e) :
    ∃ k s, seats[k]? = some s ∧ FailsInside (encode s) items[k]? (.index (i + k)) e := by
  induction seats generalizing i items with
  | nil => nomatch h
  | cons schema rest ih =>
    cases items with
    | nil => nomatch h
    | cons x items =>
      rw [encodeSlots, encode_slot] at h
      rcases Transformed.bind_eq_error.1 h with hfails | ⟨w, -, hrest⟩
      · exact ⟨0, schema, rfl, .of_slot .domain hfails⟩
      · obtain ⟨k, s, hs, hfails⟩ := ih (Transformed.bind_pure_eq_error.1 hrest)
        exact ⟨k + 1, s, hs, hfails.later⟩

theorem decodeTuple_eq_error (h : decodeTuple fields i items done = .error e) :
    ∃ k d, fields[k]? = some d ∧
      ((d.isOptional = false ∧ items.length ≤ k ∧ .here (.missingField d.name) = e) ∨
        FailsInside (decode d.schema) items[k]? (.index (i + k)) e) := by
  induction fields generalizing i items done with
  | nil => nomatch h
  | cons d rest ih =>
    obtain ⟨name, schema, isOptional⟩ := d
    have hlater {done : Fields} (hrest : decodeTuple rest (i + 1) items.tail done = .error e) :
        ∃ k d, (⟨name, schema, isOptional⟩ :: rest)[k]? = some d ∧
          ((d.isOptional = false ∧ items.length ≤ k ∧ .here (.missingField d.name) = e) ∨
            FailsInside (decode d.schema) items[k]? (.index (i + k)) e) := by
      obtain ⟨k, d, hd, hfails⟩ := ih hrest
      refine ⟨k + 1, d, hd, hfails.imp (fun ⟨hrequired, hlength, he⟩ => ?_) .later⟩
      rw [List.length_tail] at hlength
      exact ⟨hrequired, by omega, he⟩
    cases items with
    | nil =>
      rw [decodeTuple] at h
      cases isOptional with
      | true => exact hlater h
      | false => exact ⟨0, _, rfl, .inl ⟨rfl, Nat.le_refl 0, Except.error.inj h⟩⟩
    | cons w items =>
      rw [decodeTuple] at h
      split at h
      · exact hlater h
      · rcases Transformed.bind_eq_error.1 h with hfails | ⟨v, -, hrest⟩
        · exact ⟨0, _, rfl, .inr (.of_under rfl hfails)⟩
        · exact hlater hrest

/-- The first item of a list, or null, is its item at index 0, or null. -/
theorem headD_eq_getD : items.headD .null = items[0]?.getD .null := by
  cases items <;> rfl

theorem decodeSlots_eq_error (h : decodeSlots seats i items = .error e) :
    ∃ k s, seats[k]? = some s ∧ FailsInside (decode s) items[k]? (.index (i + k)) e := by
  induction seats generalizing i items with
  | nil => nomatch h
  | cons schema rest ih =>
    rw [decodeSlots, decode_slot, headD_eq_getD] at h
    rcases Transformed.bind_eq_error.1 h with hfails | ⟨v, -, hrest⟩
    · exact ⟨0, schema, rfl, .of_slot .wire hfails⟩
    · obtain ⟨k, s, hs, hfails⟩ := ih (Transformed.bind_pure_eq_error.1 hrest)
      exact ⟨k + 1, s, hs, hfails.later⟩

theorem decodeNamed_eq_error (h : decodeNamed named i items done = .error e) :
    ∃ k seat, named[k]? = some seat ∧
      FailsInside (decode seat.2) items[k]? (.index (i + k)) e := by
  induction named generalizing i items done with
  | nil => nomatch h
  | cons seat rest ih =>
    obtain ⟨name, schema⟩ := seat
    rw [decodeNamed, decode_slot, headD_eq_getD] at h
    rcases Transformed.bind_eq_error.1 h with hfails | ⟨v, -, hrest⟩
    · exact ⟨0, _, rfl, .of_slot .wire hfails⟩
    · obtain ⟨k, seat, hseat, hfails⟩ := ih hrest
      exact ⟨k + 1, seat, hseat, hfails.later⟩

theorem mapItems_eq_error {f : Value → Transformed Value} (h : mapItems f i items = .error e) :
    ∃ k, FailsInside f items[k]? (.index (i + k)) e := by
  induction items generalizing i with
  | nil => nomatch h
  | cons x items ih =>
    rcases Transformed.bind_eq_error.1 h with hfails | ⟨v, -, hrest⟩
    · exact ⟨0, .of_under rfl hfails⟩
    · obtain ⟨k, hfails⟩ := ih (Transformed.bind_pure_eq_error.1 hrest)
      exact ⟨k + 1, hfails.later⟩

theorem decodePairs_eq_error {count : Nat}
    {entry : Nat → Value → Option (String × Transformed Value)}
    (h : decodePairs count entry i items done = .error e) :
    ∃ k, FailsInside (decodePair count entry) items[k]? (.index (i + k)) e := by
  induction items generalizing i done with
  | nil => nomatch h
  | cons pair rest ih =>
    rw [decodePairs_cons_eq] at h
    rcases Transformed.bind_eq_error.1 h with hfails | ⟨_, -, hrest⟩
    · exact ⟨0, .of_under rfl hfails⟩
    · obtain ⟨k, hfails⟩ := ih hrest
      exact ⟨k + 1, hfails.later⟩

end

/-! ## The induction -/

/-- The errors of a transform blame the value. -/
def Accountable (side : Side) (S : Schema) : Prop :=
  ∀ v e, S.transform side v = .error e → (Place.form side S).Blames v e

theorem FailsInside.blames {α : Type} {f : Value → Transformed α} {P P' : Place} {v : Value}
    {s : Segment} {e : SchemaError} (h : FailsInside f (v.part? s) s e) (hpart : P.Part v s P')
    (hf : ∀ x e, f x = .error e → P'.Blames x e) : P.Blames v e := by
  obtain ⟨x, e', hx, hfails, rfl⟩ := h
  exact .under hx hpart (hf x e' hfails)

section

variable {fields : List (Declared Schema)} {seats : List Schema}
  {named : List (String × Schema)} {item inner : Schema}

theorem accountable_encode_tuple (ih : ∀ d ∈ fields, Accountable .domain d.schema) :
    Accountable .domain (.tuple fields) := by
  intro v e h
  cases v with
  | object object =>
    obtain ⟨d, hd, ⟨hrequired, hget, he⟩ | hfails⟩ :=
      encodeTuple_eq_error (Transformed.map_eq_error.1 h)
    · exact .of_here (.missingField hd hrequired hget) he
    · exact hfails.blames (.tuple hd) (ih d hd)
  | _ => exact .of_unexpected rfl (fun hfits => nomatch hfits) h

theorem accountable_encode_lookup (ih : ∀ d ∈ fields, Accountable .domain d.schema) :
    Accountable .domain (.lookup fields) := by
  intro v e h
  cases v with
  | object object =>
    obtain ⟨d, hd, hfails⟩ := encodeLookup_eq_error (Transformed.map_eq_error.1 h)
    exact hfails.blames (.lookup hd) (ih d hd)
  | _ => exact .of_unexpected rfl (fun hfits => nomatch hfits) h

theorem accountable_encode_literal (values : List Value) :
    Accountable .domain (.literal values) := by
  intro v e h
  rw [transform, encode, indexOf] at h
  split at h
  · cases h
  · rename_i hnone
    refine .of_here (.unknownLiteral fun l hl => ?_) (Except.error.inj h)
    exact List.findIdx?_eq_none_iff.1 hnone l hl

theorem accountable_encode_slots (ih : ∀ s ∈ seats, Accountable .domain s) :
    Accountable .domain (.slots seats) := by
  intro v e h
  cases v with
  | list items =>
    rw [transform, encode] at h
    split at h
    · rename_i hlength
      exact .of_here (.arity rfl hlength) (Except.error.inj h)
    · obtain ⟨k, s, hs, hfails⟩ := encodeSlots_eq_error (Transformed.map_eq_error.1 h)
      rw [Nat.zero_add] at hfails
      exact hfails.blames (.slot hs) (ih s (List.mem_of_getElem? hs))
  | _ => exact .of_unexpected rfl (fun hfits => nomatch hfits) h

theorem accountable_encode_namedSlots (ih : ∀ seat ∈ named, Accountable .domain seat.2) :
    Accountable .domain (.namedSlots named) := by
  intro v e h
  cases v with
  | object object =>
    obtain ⟨seat, hseat, hfails⟩ := encodeNamed_eq_error (Transformed.map_eq_error.1 h)
    exact hfails.blames (.namedSlot hseat) (ih seat hseat)
  | _ => exact .of_unexpected rfl (fun hfits => nomatch hfits) h

theorem accountable_decode_tuple (ih : ∀ d ∈ fields, Accountable .wire d.schema) :
    Accountable .wire (.tuple fields) := by
  intro w e h
  cases w with
  | list items =>
    rw [transform, decode] at h
    split at h
    · rename_i hlength
      exact .of_here (.arity rfl hlength) (Except.error.inj h)
    · obtain ⟨k, d, hd, ⟨hrequired, hlength, he⟩ | hfails⟩ :=
        decodeTuple_eq_error (Transformed.map_eq_error.1 h)
      · exact .of_here (.missingItem hd hrequired hlength) he
      · rw [Nat.zero_add] at hfails
        exact hfails.blames (.tupleItem hd) (ih d (List.mem_of_getElem? hd))
  | _ => exact .of_unexpected rfl (fun hfits => nomatch hfits) h

/-- An index without an entry is outside the bounds of the entries. -/
theorem outside_of_getElem?_eq_none {α : Type} {entries : List α} {i : Int}
    (h : 0 ≤ i → entries[i.toNat]? = none) : i < 0 ∨ (entries.length : Int) ≤ i := by
  by_cases hle : 0 ≤ i
  · have := List.getElem?_eq_none_iff.1 (h hle)
    omega
  · omega

theorem accountable_decode_literal (values : List Value) :
    Accountable .wire (.literal values) := by
  intro w e h
  rw [transform, decode, entryOf] at h
  split at h
  · rename_i i hi
    rw [entryAt] at h
    split at h
    · cases h
    · rename_i hnone
      refine .of_here (.unknownIndex rfl hi (outside_of_getElem?_eq_none fun hle => ?_))
        (Except.error.inj h)
      rwa [if_pos hle] at hnone
  · rename_i hnone
    refine .of_unexpected rfl (fun hfits => ?_) h
    obtain ⟨i, hi⟩ := hfits
    cases hnone.symm.trans hi

/-- A pair of a lookup is at fault itself, or its index is, or its value. -/
theorem blames_of_decodePair (ih : ∀ d ∈ fields, Accountable .wire d.schema) {pair : Value}
    {e : SchemaError}
    (h : decodePair fields.length (fun i w => decodeEntry fields i w) pair = .error e) :
    (Place.pair fields).Blames pair e := by
  rcases Transformed.bind_eq_error.1 h with hpair | ⟨⟨index, w⟩, hpair, hfails⟩
  · unfold pairOf at hpair
    split at hpair
    · nomatch hpair
    · rename_i hne
      exact .of_unexpected rfl (fun ⟨index, w, heq⟩ => hne index w heq) hpair
  · obtain rfl := pairOf_eq_ok hpair
    simp only [decodeEntry_eq] at hfails
    split at hfails
    · rename_i hnone
      obtain ⟨e', he', rfl⟩ := Transformed.under_eq_error.1 hfails
      refine .under rfl .index (.of_unexpected rfl (fun ⟨i, hi⟩ => ?_) he')
      nomatch hnone.symm.trans hi
    · rename_i i hi
      split at hfails
      · rename_i hentry
        split at hentry
        · rename_i hle
          obtain ⟨d, hd, heq⟩ := Option.map_eq_some_iff.1 hentry
          obtain ⟨rfl, rfl⟩ := Prod.mk.inj heq
          obtain ⟨e', he', rfl⟩ := Transformed.under_eq_error.1 (Transformed.map_eq_error.1 hfails)
          refine .under rfl (.entry ?_ hd) (ih d (List.mem_of_getElem? hd) w e' he')
          rw [hi, Int.ofNat_eq_natCast, Int.toNat_of_nonneg hle]
        · nomatch hentry
      · rename_i hnone
        obtain rfl := Except.error.inj hfails
        refine .under rfl .index
          (.of_here (.unknownIndex rfl hi (outside_of_getElem?_eq_none fun hle => ?_)) rfl)
        rw [if_pos hle] at hnone
        exact Option.map_eq_none_iff.1 hnone

theorem accountable_decode_lookup (ih : ∀ d ∈ fields, Accountable .wire d.schema) :
    Accountable .wire (.lookup fields) := by
  intro w e h
  cases w with
  | list pairs =>
    obtain ⟨k, hfails⟩ := decodePairs_eq_error (Transformed.map_eq_error.1 h)
    rw [Nat.zero_add] at hfails
    exact hfails.blames .pair fun _ _ => blames_of_decodePair ih
  | _ => exact .of_unexpected rfl (fun hfits => nomatch hfits) h

theorem accountable_decode_slots (ih : ∀ s ∈ seats, Accountable .wire s) :
    Accountable .wire (.slots seats) := by
  intro w e h
  cases w with
  | list items =>
    rw [transform, decode] at h
    split at h
    · rename_i hlength
      exact .of_here (.arity rfl hlength) (Except.error.inj h)
    · obtain ⟨k, s, hs, hfails⟩ := decodeSlots_eq_error (Transformed.map_eq_error.1 h)
      rw [Nat.zero_add] at hfails
      exact hfails.blames (.slot hs) (ih s (List.mem_of_getElem? hs))
  | _ => exact .of_unexpected rfl (fun hfits => nomatch hfits) h

theorem accountable_decode_namedSlots (ih : ∀ seat ∈ named, Accountable .wire seat.2) :
    Accountable .wire (.namedSlots named) := by
  intro w e h
  cases w with
  | list items =>
    rw [transform, decode] at h
    split at h
    · rename_i hlength
      exact .of_here (.arity rfl hlength) (Except.error.inj h)
    · obtain ⟨k, seat, hseat, hfails⟩ := decodeNamed_eq_error (Transformed.map_eq_error.1 h)
      rw [Nat.zero_add] at hfails
      exact hfails.blames (.namedItem hseat) (ih seat (List.mem_of_getElem? hseat))
  | _ => exact .of_unexpected rfl (fun hfits => nomatch hfits) h

theorem accountable_each {side : Side} (ih : Accountable side item) :
    Accountable side (.each item) := by
  intro v e h
  have hlist (items : List Value) (h : mapItems (item.transform side) 0 items = .error e) :
      (Place.form side (.each item)).Blames (.list items) e := by
    obtain ⟨k, hfails⟩ := mapItems_eq_error h
    rw [Nat.zero_add] at hfails
    exact hfails.blames .item ih
  cases side with
  | domain =>
    cases v with
    | list items => exact hlist items (Transformed.map_eq_error.1 h)
    | _ => exact .of_unexpected rfl (fun hfits => nomatch hfits) h
  | wire =>
    cases v with
    | list items => exact hlist items (Transformed.map_eq_error.1 h)
    | _ => exact .of_unexpected rfl (fun hfits => nomatch hfits) h

theorem accountable_nullable {side : Side} (ih : Accountable side inner) :
    Accountable side (.nullable inner) := by
  intro v e h
  exact (ih v e (transform_nullable_eq_error h)).nullable

end

theorem accountable (S : Schema) : Accountable .domain S ∧ Accountable .wire S := by
  induction S using Schema.induction with
  | identity => exact ⟨fun _ _ h => (nomatch h), fun _ _ h => (nomatch h)⟩
  | tuple fields ih =>
    exact ⟨accountable_encode_tuple fun d hd => (ih d hd).1,
      accountable_decode_tuple fun d hd => (ih d hd).2⟩
  | literal values => exact ⟨accountable_encode_literal values, accountable_decode_literal values⟩
  | lookup fields ih =>
    exact ⟨accountable_encode_lookup fun d hd => (ih d hd).1,
      accountable_decode_lookup fun d hd => (ih d hd).2⟩
  | slots seats ih =>
    exact ⟨accountable_encode_slots fun s hs => (ih s hs).1,
      accountable_decode_slots fun s hs => (ih s hs).2⟩
  | namedSlots named ih =>
    exact ⟨accountable_encode_namedSlots fun seat hseat => (ih seat hseat).1,
      accountable_decode_namedSlots fun seat hseat => (ih seat hseat).2⟩
  | each item ih => exact ⟨accountable_each ih.1, accountable_each ih.2⟩
  | nullable inner ih => exact ⟨accountable_nullable ih.1, accountable_nullable ih.2⟩

/-- **Errors point at the culprit.** When a value is not encoded, or not decoded, the path of the
    error leads to a value inside it which the error describes. -/
theorem blames_of_error (S : Schema) (v : Value) (e : SchemaError) :
    (S.encode v = .error e → (Place.form .domain S).Blames v e) ∧
      (S.decode v = .error e → (Place.form .wire S).Blames v e) :=
  ⟨(accountable S).1 v e, (accountable S).2 v e⟩

/-- A free seat, and one taken in a role that is not declared. -/
def misfitValue : Value :=
  .list [.null, .object [("id", .text "ana"), ("role", .text "bard")]]

/-- One seat, with a mark that is not declared. -/
def misfitWire : Value :=
  .list [.list [.text "ana", .list [.list [.ofNat 1, .bool true], .list [.ofNat 7, .null]],
    .ofNat 0]]

/-- In the room, the blame is on the role of the second seat, and on the index of the second mark of
    the first one. -/
theorem blames_of_error_room :
    roomSchema.encode misfitValue =
        .error ⟨[.index 1, .field "role"], .unknownLiteral (.text "bard")⟩ ∧
      (Place.form .domain roomSchema).Blames misfitValue
        ⟨[.index 1, .field "role"], .unknownLiteral (.text "bard")⟩ ∧
      roomSchema.decode misfitWire =
        .error ⟨[.index 0, .index 1, .index 1, .index 0], .unknownIndex 7 2⟩ ∧
      (Place.form .wire roomSchema).Blames misfitWire
        ⟨[.index 0, .index 1, .index 1, .index 0], .unknownIndex 7 2⟩ := by
  have hencode : roomSchema.encode misfitValue =
    .error ⟨[.index 1, .field "role"], .unknownLiteral (.text "bard")⟩ := rfl
  have hdecode : roomSchema.decode misfitWire =
    .error ⟨[.index 0, .index 1, .index 1, .index 0], .unknownIndex 7 2⟩ := rfl
  exact ⟨hencode, (blames_of_error roomSchema _ _).1 hencode, hdecode,
    (blames_of_error roomSchema _ _).2 hdecode⟩

end Schema

end FrameRpc
