import FrameRpc.Proofs.Parts
import FrameRpc.Proofs.WireForms

/-!
# Nulls that stand for absence

In an optional field of a tuple, in any field of a lookup and in a named slot a null is the same as
nothing. `Schema.cleared` takes these nulls out of a value, at every depth. The wire form of the
value does not change (`Schema.encode_cleared`), as a transform of an object goes by what is present
under the declared names (`Schema.encodeTuple_congr`, `Schema.encodeLookup_congr`,
`Schema.encodeNamed_congr`), and what is left is present as before (`Schema.present_clear`).
-/

namespace FrameRpc

open Schema (present)

/-- What becomes of a field when nulls are cleared. -/
structure Clearing where
  /-- The name of the field. -/
  name : String
  /-- A null is left out. -/
  dropsNull : Bool
  /-- What becomes of the value. -/
  clear : Value → Value

namespace Fields

/-- Clears the fields of an object in turn and puts them to those already cleared. -/
def clear : List Clearing → Fields → Fields → Fields
  | [], _, done => done
  | c :: rest, object, done =>
    clear rest object
      (match present c.name c.dropsNull object with
        | some v => done.insert c.name (c.clear v)
        | none => done)

/-! ## What clearing an object does -/

variable {cs : List Clearing} {c : Clearing} {object done : Fields} {name : String}

theorem get?_clear_of_notMem (hname : name ∉ cs.map Clearing.name) :
    (clear cs object done).get? name = done.get? name := by
  induction cs generalizing done with
  | nil => rfl
  | cons c rest ih =>
    obtain ⟨hne, hrest⟩ := List.ne_and_not_mem_of_not_mem_cons hname
    rw [clear, ih hrest]
    split
    · rw [get?_insert, if_neg hne]
    · rfl

/-- Under each of the names there is what becomes of the value. -/
theorem get?_clear (hnames : (cs.map Clearing.name).Nodup) (hc : c ∈ cs)
    (hdone : done.get? c.name = none) : (clear cs object done).get? c.name =
      (present c.name c.dropsNull object).map c.clear := by
  induction cs generalizing done with
  | nil => nomatch hc
  | cons d rest ih =>
    obtain ⟨hname, hnames⟩ := List.nodup_cons.1 hnames
    rw [clear]
    rcases List.mem_cons.1 hc with rfl | hc
    · rw [get?_clear_of_notMem hname]
      cases present c.name c.dropsNull object with
      | none => exact hdone
      | some v =>
        dsimp only
        rw [get?_insert, if_pos rfl, Option.map_some]
    · have hne : c.name ≠ d.name := fun heq => hname (heq ▸ List.mem_map_of_mem hc)
      refine ih hnames hc ?_
      split
      · rw [get?_insert, if_neg hne, hdone]
      · exact hdone

/-- An object in order whose values have the property, under their names. -/
structure Holds (P : String → Value → Prop) (object : Fields) : Prop where
  ordered : object.Ordered
  values : ∀ name v, object.get? name = some v → P name v

theorem holds_nil (P : String → Value → Prop) : Holds P [] :=
  ⟨.nil, fun _ _ h => nomatch h⟩

namespace Holds

variable {P : String → Value → Prop}

theorem insert {v : Value} (h : Holds P object) (hv : P name v) :
    Holds P (object.insert name v) where
  ordered := ordered_insert h.ordered
  values k w hw := by
    rw [get?_insert] at hw
    split at hw
    · rename_i hk
      obtain rfl := Option.some.inj hw
      exact hk ▸ hv
    · exact h.values k w hw

theorem clear (hdone : Holds P done)
    (h : ∀ c ∈ cs, ∀ v, present c.name c.dropsNull object = some v → P c.name (c.clear v)) :
    Holds P (clear cs object done) := by
  induction cs generalizing done with
  | nil => exact hdone
  | cons c rest ih =>
    obtain ⟨hc, hrest⟩ := List.forall_mem_cons.1 h
    refine ih ?_ hrest
    split
    · rename_i v hv
      exact hdone.insert (hc v hv)
    · exact hdone

theorem forall_mem (h : Holds P object) : ∀ e ∈ object, P e.1 e.2 :=
  fun e he => h.values e.1 e.2 (get?_of_mem h.ordered he)

theorem canonical (h : Holds P object) (hP : ∀ name v, P name v → v.Canonical) :
    (Value.object object).Canonical :=
  ⟨h.ordered, Value.canonicalFields_iff.2 fun e he => hP e.1 e.2 (h.forall_mem e he)⟩

end Holds

theorem canonical_clear (h : ∀ c ∈ cs, ∀ v, present c.name c.dropsNull object = some v →
    (c.clear v).Canonical) : (Value.object (clear cs object [])).Canonical :=
  ((holds_nil fun _ v => v.Canonical).clear h).canonical fun _ _ => id

theorem within_clear : (clear cs object []).Within (cs.map Clearing.name) := by
  have hholds : (clear cs object []).Holds fun name _ => name ∈ cs.map Clearing.name :=
    (holds_nil _).clear fun c hc _ _ => List.mem_map_of_mem hc
  intro name hname
  obtain ⟨e, he, rfl⟩ := List.mem_map.1 hname
  exact hholds.forall_mem e he

end Fields

namespace Schema

mutual

/-- The value without the nulls that stand for the absence of a field or of a named slot. -/
def cleared : Schema → Value → Value
  | .tuple fields, v =>
    match v with
    | .object object => .object (Fields.clear (clearings false fields) object [])
    | v => v
  | .lookup fields, v =>
    match v with
    | .object object => .object (Fields.clear (clearings true fields) object [])
    | v => v
  | .slots seats, v =>
    match v with
    | .list items => .list (clearedSlots seats items)
    | v => v
  | .namedSlots seats, v =>
    match v with
    | .object object => .object (Fields.clear (clearingsNamed seats) object [])
    | v => v
  | .each item, v =>
    match v with
    | .list items => .list (items.map (cleared item))
    | v => v
  | .nullable inner, v => if v.isNull then v else cleared inner v
  | .identity, v => v
  | .literal _, v => v

/-- What becomes of declared fields, of which only the optional ones leave out nulls, or all do. -/
def clearings (all : Bool) : List (Declared Schema) → List Clearing
  | [] => []
  | ⟨name, schema, isOptional⟩ :: rest =>
    ⟨name, isOptional || all, cleared schema⟩ :: clearings all rest

/-- What becomes of named slots. -/
def clearingsNamed : List (String × Schema) → List Clearing
  | [] => []
  | (name, schema) :: rest => ⟨name, true, cleared schema⟩ :: clearingsNamed rest

/-- The items of slots, cleared. -/
def clearedSlots : List Schema → List Value → List Value
  | schema :: rest, v :: items =>
    (if v.isNull then v else cleared schema v) :: clearedSlots rest items
  | _, items => items

end

theorem clearings_eq (all : Bool) (fields : List (Declared Schema)) : clearings all fields =
    fields.map fun d => ⟨d.name, d.isOptional || all, cleared d.schema⟩ := by
  induction fields with
  | nil => rfl
  | cons d rest ih => rw [clearings, ih, List.map_cons]

theorem clearingsNamed_eq (seats : List (String × Schema)) :
    clearingsNamed seats = seats.map fun seat => ⟨seat.1, true, cleared seat.2⟩ := by
  induction seats with
  | nil => rfl
  | cons seat rest ih => rw [clearingsNamed, ih, List.map_cons]

/-! ## Clearing changes nothing on the wire -/

theorem isNull_cleared (S : Schema) (v : Value) : (S.cleared v).isNull = v.isNull := by
  induction S using Schema.induction with
  | identity | literal => rfl
  | tuple | lookup | slots | namedSlots | each => cases v <;> rfl
  | nullable inner ih =>
    rw [cleared]
    split
    · rfl
    · exact ih

/-- A value is present under its name, unless it is a null that may be left out. -/
theorem present_eq (name : String) (isOptional : Bool) (object : Fields) :
    present name isOptional object =
      (object.get? name).filter fun v => !(isOptional && v.isNull) := by
  rw [present]
  cases object.get? name with
  | none => rfl
  | some v => cases v <;> cases isOptional <;> rfl

/-- What is left is present as before. -/
theorem present_clear {cs : List Clearing} (hnames : (cs.map Clearing.name).Nodup) {c : Clearing}
    (hc : c ∈ cs) (hclear : ∀ v, (c.clear v).isNull = v.isNull) (object : Fields) :
    present c.name c.dropsNull (Fields.clear cs object []) =
      (present c.name c.dropsNull object).map c.clear := by
  rw [present_eq, Fields.get?_clear hnames hc (Fields.get?_nil _), present_eq]
  cases object.get? c.name with
  | none => rfl
  | some v =>
    rw [Option.filter_some]
    split
    · rename_i hv
      rw [Option.map_some, Option.filter_some, hclear, if_pos hv]
    · rfl

section

variable {object object' : Fields} {fields : List (Declared Schema)}
  {named : List (String × Schema)} {seats : List Schema}

/-- The values, if any, are encoded the same. -/
def EncodedAlike (S : Schema) (a b : Option Value) : Prop := a.map S.encode = b.map S.encode

theorem EncodedAlike.cases {S : Schema} {a b : Option Value} (h : EncodedAlike S a b) :
    (a = none ∧ b = none) ∨ ∃ v w, a = some v ∧ b = some w ∧ S.encode v = S.encode w := by
  cases b with
  | none => exact .inl ⟨Option.map_eq_none_iff.1 h, rfl⟩
  | some w =>
    obtain ⟨v, hv, heq⟩ := Option.map_eq_some_iff.1 h
    exact .inr ⟨v, w, hv, rfl, heq⟩

/-- A tuple is encoded by what is present under its names. -/
theorem encodeTuple_congr (h : ∀ d ∈ fields, EncodedAlike d.schema
    (present d.name d.isOptional object') (present d.name d.isOptional object)) :
    encodeTuple fields object' = encodeTuple fields object := by
  induction fields with
  | nil => rfl
  | cons d rest ih =>
    obtain ⟨hd, hrest⟩ := List.forall_mem_cons.1 h
    obtain ⟨name, schema, isOptional⟩ := d
    rw [encodeTuple, encodeTuple, ih hrest]
    rcases hd.cases with ⟨hnone, hnone'⟩ | ⟨v, w, hv, hw, heq⟩
    · rw [hnone, hnone']
    · simp only [hv, hw, heq]

/-- So is a lookup, which passes over every null. -/
theorem encodeLookup_congr {i : Nat} (h : ∀ d ∈ fields, EncodedAlike d.schema
    (present d.name true object') (present d.name true object)) :
    encodeLookup fields i object' = encodeLookup fields i object := by
  have hpresent (name : String) (schema : Schema) (isOptional : Bool)
      (rest : List (Declared Schema)) (i : Nat) (object : Fields) :
      encodeLookup (⟨name, schema, isOptional⟩ :: rest) i object =
        (present name true object).elim (encodeLookup rest (i + 1) object) fun v =>
          (encode schema v).under (.field name) >>= fun w =>
            encodeLookup rest (i + 1) object >>= fun ws => pure (.list [.ofNat i, w] :: ws) := by
    rw [encodeLookup, present]
    cases object.get? name with
    | none => rfl
    | some v => cases v <;> rfl
  induction fields generalizing i with
  | nil => rfl
  | cons d rest ih =>
    obtain ⟨hd, hrest⟩ := List.forall_mem_cons.1 h
    obtain ⟨name, schema, isOptional⟩ := d
    rw [hpresent, hpresent, ih hrest]
    rcases hd.cases with ⟨hnone, hnone'⟩ | ⟨v, w, hv, hw, heq⟩
    · rw [hnone, hnone']
    · rw [hv, hw, Option.elim_some, Option.elim_some, heq]

/-- And so are named slots. -/
theorem encodeNamed_congr (h : ∀ seat ∈ named, EncodedAlike seat.2
    (present seat.1 true object') (present seat.1 true object)) :
    encodeNamed named object' = encodeNamed named object := by
  have hslot (name : String) (schema : Schema) (object : Fields) :
      encode (.nullable schema) ((object.get? name).getD .null) =
        ((present name true object).map (encode schema)).getD (.ok .null) := by
    rw [encode, present]
    cases object.get? name with
    | none => rfl
    | some v => cases v <;> rfl
  induction named with
  | nil => rfl
  | cons seat rest ih =>
    obtain ⟨hseat, hrest⟩ := List.forall_mem_cons.1 h
    obtain ⟨name, schema⟩ := seat
    rw [encodeNamed, encodeNamed, encode_slot, encode_slot, hslot, hslot, hseat, ih hrest]

theorem encodeSlots_cleared (h : ∀ s ∈ seats, ∀ v, encode s (s.cleared v) = encode s v)
    (items : List Value) (i : Nat) :
    encodeSlots seats i (clearedSlots seats items) = encodeSlots seats i items := by
  induction seats generalizing items i with
  | nil => rfl
  | cons schema rest ih =>
    obtain ⟨hschema, hrest⟩ := List.forall_mem_cons.1 h
    cases items with
    | nil => rfl
    | cons v items =>
      rw [clearedSlots, encodeSlots, encodeSlots, ih hrest]
      cases hv : v.isNull with
      | true => rw [if_pos rfl, hv]
      | false => rw [if_neg Bool.false_ne_true, isNull_cleared, hv, hschema]

theorem length_clearedSlots (seats : List Schema) (items : List Value) :
    (clearedSlots seats items).length = items.length := by
  induction seats generalizing items with
  | nil => rfl
  | cons schema rest ih =>
    cases items with
    | nil => rfl
    | cons v items => rw [clearedSlots, List.length_cons, ih, List.length_cons]

theorem mapItems_map {f : Value → Transformed Value} {g : Value → Value}
    (h : ∀ v, f (g v) = f v) (items : List Value) (i : Nat) :
    mapItems f i (items.map g) = mapItems f i items := by
  induction items generalizing i with
  | nil => rfl
  | cons v rest ih => rw [List.map_cons, mapItems, mapItems, h, ih]

end

theorem map_name_clearings (all : Bool) (fields : List (Declared Schema)) :
    (clearings all fields).map Clearing.name = fields.map Declared.name := by
  rw [clearings_eq, List.map_map]
  rfl

theorem map_name_clearingsNamed (seats : List (String × Schema)) :
    (clearingsNamed seats).map Clearing.name = seats.map Prod.fst := by
  rw [clearingsNamed_eq, List.map_map]
  rfl

section

variable {fields : List (Declared Schema)} {d : Declared Schema} {seats : List (String × Schema)}
  {seat : String × Schema}

theorem mem_clearings_tuple (hd : d ∈ fields) :
    ⟨d.name, d.isOptional, d.schema.cleared⟩ ∈ clearings false fields := by
  rw [clearings_eq, List.mem_map]
  exact ⟨d, hd, by rw [Bool.or_false]⟩

theorem mem_clearings_lookup (hd : d ∈ fields) :
    ⟨d.name, true, d.schema.cleared⟩ ∈ clearings true fields := by
  rw [clearings_eq, List.mem_map]
  exact ⟨d, hd, by rw [Bool.or_true]⟩

theorem mem_clearingsNamed (hseat : seat ∈ seats) :
    ⟨seat.1, true, seat.2.cleared⟩ ∈ clearingsNamed seats := by
  rw [clearingsNamed_eq]
  exact List.mem_map_of_mem hseat

end

/-- What a field or slot is after clearing is encoded as before. -/
theorem encodedAlike_of_clearing {cs : List Clearing} (hnames : (cs.map Clearing.name).Nodup)
    {name : String} {dropsNull : Bool} {S : Schema} (hc : ⟨name, dropsNull, S.cleared⟩ ∈ cs)
    (h : ∀ v, S.encode (S.cleared v) = S.encode v) (object : Fields) :
    EncodedAlike S (present name dropsNull (Fields.clear cs object []))
      (present name dropsNull object) := by
  rw [EncodedAlike, present_clear hnames hc (isNull_cleared S) object, Option.map_map]
  exact congrArg (Option.map · _) (funext h)

/-- A value is encoded the same without the nulls that stand for absence. -/
theorem encode_cleared {S : Schema} (hS : S.Proper) (v : Value) :
    S.encode (S.cleared v) = S.encode v := by
  induction S using Schema.induction generalizing v with
  | identity | literal => rfl
  | tuple fields ih =>
    cases v with
    | object object =>
      have hproper := properFields_iff.1 hS.2
      have hnames := (map_name_clearings false fields).symm ▸ hS.1
      rw [cleared, encode, encode, encodeTuple_congr fun d hd =>
        encodedAlike_of_clearing hnames (mem_clearings_tuple hd) (ih d hd (hproper d hd)) object]
    | _ => rfl
  | lookup fields ih =>
    cases v with
    | object object =>
      have hproper := properFields_iff.1 hS.2.2
      have hnames := (map_name_clearings true fields).symm ▸ hS.1
      rw [cleared, encode, encode, encodeLookup_congr fun d hd =>
        encodedAlike_of_clearing hnames (mem_clearings_lookup hd) (ih d hd (hproper d hd)) object]
    | _ => rfl
  | slots seats ih =>
    cases v with
    | list items =>
      have hproper := properSlots_iff.1 hS
      rw [cleared, encode, encode, length_clearedSlots,
        encodeSlots_cleared fun s hs => ih s hs (hproper s hs)]
    | _ => rfl
  | namedSlots seats ih =>
    cases v with
    | object object =>
      have hproper := properNamed_iff.1 hS.2
      have hnames := (map_name_clearingsNamed seats).symm ▸ hS.1
      rw [cleared, encode, encode, encodeNamed_congr fun seat hseat =>
        encodedAlike_of_clearing hnames (mem_clearingsNamed hseat)
          (ih seat hseat (hproper seat hseat)) object]
    | _ => rfl
  | each item ih =>
    cases v with
    | list items => rw [cleared, encode, encode, mapItems_map (ih hS)]
    | _ => rfl
  | nullable inner ih =>
    rw [cleared]
    cases hv : v.isNull with
    | true => rfl
    | false => rw [if_neg Bool.false_ne_true, encode, encode, isNull_cleared, hv, ih hS]

end Schema

end FrameRpc
