import FrameRpc.Proofs.Parts
import Mathlib.Logic.Relation

/-!
# Growing schemas

A schema that both sides have agreed on may grow at its ends: new literals behind the old ones, new
optional fields behind the fields of a tuple, new fields of a lookup, new named slots. What is
inside grows in the same way, and a schema may grow at many places (`Schema.Extends`).

Positions are what goes over the wire, and those of the old parts stay. So whoever has the grown
schema still understands whoever has the old one: every wire value that the old schema decodes, the
new one decodes to the same (`Schema.decode_of_extends`). What is declared in turn is decoded in
turn (`Schema.decodeTuple_append`, `Schema.decodeSlots_append`, `Schema.decodeNamed_append`), and
what was declared at the end finds nothing there.
-/

namespace FrameRpc

namespace Schema

/-- A schema grows at one place. -/
inductive Grows : Schema → Schema → Prop where
  /-- New literals. -/
  | literal (values added : List Value) : Grows (.literal values) (.literal (values ++ added))
  /-- New fields of a tuple, which may be absent. -/
  | tuple (fields added : List (Declared Schema)) (h : ∀ d ∈ added, d.isOptional = true) :
    Grows (.tuple fields) (.tuple (fields ++ added))
  /-- New fields of a lookup. -/
  | lookup (fields added : List (Declared Schema)) :
    Grows (.lookup fields) (.lookup (fields ++ added))
  /-- New named slots. -/
  | namedSlots (seats added : List (String × Schema)) :
    Grows (.namedSlots seats) (.namedSlots (seats ++ added))
  /-- The place is in a field of a tuple. -/
  | inTuple {s t : Schema} (before after : List (Declared Schema)) (name : String)
    (isOptional : Bool) (h : Grows s t) :
    Grows (.tuple (before ++ ⟨name, s, isOptional⟩ :: after))
      (.tuple (before ++ ⟨name, t, isOptional⟩ :: after))
  /-- The place is in a field of a lookup. -/
  | inLookup {s t : Schema} (before after : List (Declared Schema)) (name : String)
    (isOptional : Bool) (h : Grows s t) :
    Grows (.lookup (before ++ ⟨name, s, isOptional⟩ :: after))
      (.lookup (before ++ ⟨name, t, isOptional⟩ :: after))
  /-- The place is in a slot. -/
  | inSlots {s t : Schema} (before after : List Schema) (h : Grows s t) :
    Grows (.slots (before ++ s :: after)) (.slots (before ++ t :: after))
  /-- The place is in a named slot. -/
  | inNamedSlots {s t : Schema} (before after : List (String × Schema)) (name : String)
    (h : Grows s t) :
    Grows (.namedSlots (before ++ (name, s) :: after)) (.namedSlots (before ++ (name, t) :: after))
  /-- The place is in the items of a list. -/
  | inEach {s t : Schema} (h : Grows s t) : Grows (.each s) (.each t)
  /-- The place is behind a null. -/
  | inNullable {s t : Schema} (h : Grows s t) : Grows (.nullable s) (.nullable t)

/-- The second schema is the first one, grown at any number of places. -/
def Extends : Schema → Schema → Prop := Relation.ReflTransGen Grows

/-- What the schema `S` decodes, `T` decodes to the same. -/
def Understands (T S : Schema) : Prop := ∀ w v, S.decode w = .ok v → T.decode w = .ok v

/-! ## What is declared in turn is decoded in turn -/

theorem decodeTuple_append (fields added : List (Declared Schema)) (i : Nat) (items : List Value)
    (done : Fields) :
    decodeTuple (fields ++ added) i items done = decodeTuple fields i items done >>=
      decodeTuple added (i + fields.length) (items.drop fields.length) := by
  induction fields generalizing i items done with
  | nil => rfl
  | cons d rest ih =>
    obtain ⟨name, schema, isOptional⟩ := d
    rw [List.length_cons, ← Nat.add_assoc, Nat.add_right_comm]
    cases items with
    | nil =>
      rw [List.cons_append, decodeTuple, decodeTuple]
      split
      · rw [ih, List.drop_nil, List.drop_nil]
      · rfl
    | cons w items =>
      rw [List.cons_append, decodeTuple, decodeTuple, List.drop_succ_cons]
      split
      · exact ih ..
      · cases decode schema w with
        | error e => rfl
        | ok v => exact ih ..

theorem decodeSlots_append (seats added : List Schema) (i : Nat) (items : List Value) :
    decodeSlots (seats ++ added) i items = do
      let vs ← decodeSlots seats i items
      let us ← decodeSlots added (i + seats.length) (items.drop seats.length)
      return vs ++ us := by
  induction seats generalizing i items with
  | nil =>
    rw [List.nil_append, decodeSlots]
    exact (bind_pure _).symm
  | cons schema rest ih =>
    rw [List.cons_append, decodeSlots, decodeSlots, decode_slot, decode_slot, ih]
    rw [List.length_cons, ← Nat.add_assoc, Nat.add_right_comm, ← List.drop_tail]
    simp only [bind_assoc, pure_bind, List.cons_append]

theorem decodeNamed_append (seats added : List (String × Schema)) (i : Nat) (items : List Value)
    (done : Fields) :
    decodeNamed (seats ++ added) i items done = decodeNamed seats i items done >>=
      decodeNamed added (i + seats.length) (items.drop seats.length) := by
  induction seats generalizing i items done with
  | nil => rfl
  | cons seat rest ih =>
    obtain ⟨name, schema⟩ := seat
    rw [List.cons_append, decodeNamed, decodeNamed, decode_slot, decode_slot]
    rw [List.length_cons, ← Nat.add_assoc, Nat.add_right_comm, ← List.drop_tail]
    simp only [bind_assoc, ih]

/-! ## One place grows -/

variable {S T : Schema}

/-- A field or slot whose schema has grown: a null is passed over before and after. -/
theorem Understands.nullable (h : T.Understands S) : (nullable T).Understands (.nullable S) := by
  intro w v hv
  rw [decode] at hv ⊢
  cases hw : w.isNull with
  | true =>
    rw [hw] at hv
    exact hv
  | false =>
    rw [hw] at hv
    exact h w v hv

theorem entryAt_append {α : Type} {entries added : List α} {i : Int} {a : α}
    (h : entryAt entries i = .ok a) : entryAt (entries ++ added) i = .ok a := by
  rw [entryAt] at h ⊢
  split at h
  · rename_i hentry
    split at hentry
    · rename_i hle
      have hlt := (List.getElem?_eq_some_iff.1 hentry).1
      rw [if_pos hle, List.getElem?_append_left hlt, hentry]
      exact h
    · cases hentry
  · cases h

theorem understands_literal (values added : List Value) :
    (literal (values ++ added)).Understands (.literal values) := by
  intro w v hv
  rw [decode, entryOf] at hv ⊢
  split at hv
  · exact entryAt_append hv
  · cases hv

/-- Fields that may be absent, and are, add nothing. -/
theorem decodeTuple_of_absent {fields : List (Declared Schema)}
    (h : ∀ d ∈ fields, d.isOptional = true) (i : Nat) (object : Fields) :
    decodeTuple fields i [] object = .ok object := by
  induction fields generalizing i with
  | nil => rfl
  | cons d rest ih =>
    obtain ⟨hd, hrest⟩ := List.forall_mem_cons.1 h
    rw [decodeTuple, if_pos hd, ih hrest]

/-- A tuple with as many fields at least, which decode as many items as before to the same. -/
theorem understands_tuple_of {fields fields' : List (Declared Schema)}
    (hlength : fields.length ≤ fields'.length)
    (h : ∀ (items : List Value) (object : Fields), items.length ≤ fields.length →
      decodeTuple fields 0 items [] = .ok object → decodeTuple fields' 0 items [] = .ok object) :
    (tuple fields').Understands (.tuple fields) := by
  intro w v hv
  cases w with
  | list items =>
    rw [decode] at hv ⊢
    split at hv
    · nomatch hv
    · rename_i hitems
      obtain ⟨object, hobject, rfl⟩ := Transformed.map_eq_ok.1 hv
      rw [if_neg (by omega), h items object (Nat.not_lt.1 hitems) hobject]
      rfl
  | _ => nomatch hv

theorem understands_tuple (fields : List (Declared Schema)) {added : List (Declared Schema)}
    (h : ∀ d ∈ added, d.isOptional = true) :
    (tuple (fields ++ added)).Understands (.tuple fields) := by
  refine understands_tuple_of (by simp) fun items object hlength hobject => ?_
  rw [decodeTuple_append, hobject, Transformed.ok_bind, List.drop_eq_nil_of_le hlength,
    decodeTuple_of_absent h]

/-- Slots that have no item add nothing. -/
theorem decodeNamed_of_absent (seats : List (String × Schema)) (i : Nat) (object : Fields) :
    decodeNamed seats i [] object = .ok object := by
  induction seats generalizing i with
  | nil => rfl
  | cons seat rest ih => exact ih (i + 1)

/-- Named slots, as many at least, which decode as many items as before to the same. -/
theorem understands_namedSlots_of {seats seats' : List (String × Schema)}
    (hlength : seats.length ≤ seats'.length)
    (h : ∀ (items : List Value) (object : Fields), items.length ≤ seats.length →
      decodeNamed seats 0 items [] = .ok object → decodeNamed seats' 0 items [] = .ok object) :
    (namedSlots seats').Understands (.namedSlots seats) := by
  intro w v hv
  cases w with
  | list items =>
    rw [decode] at hv ⊢
    split at hv
    · nomatch hv
    · rename_i hitems
      obtain ⟨object, hobject, rfl⟩ := Transformed.map_eq_ok.1 hv
      rw [if_neg (by omega), h items object (Nat.not_lt.1 hitems) hobject]
      rfl
  | _ => nomatch hv

theorem understands_namedSlots (seats added : List (String × Schema)) :
    (namedSlots (seats ++ added)).Understands (.namedSlots seats) := by
  refine understands_namedSlots_of (by simp) fun items object hlength hobject => ?_
  rw [decodeNamed_append, hobject, Transformed.ok_bind, List.drop_eq_nil_of_le hlength,
    decodeNamed_of_absent]

/-- Pairs are decoded the same by entries that decode more. -/
theorem decodePairs_mono {count count' pos : Nat}
    {entry entry' : Nat → Value → Option (String × Transformed Value)}
    (h : ∀ i w name v, entry i w = some (name, .ok v) → entry' i w = some (name, .ok v))
    {pairs : List Value} {object object' : Fields}
    (hpairs : decodePairs count entry pos pairs object = .ok object') :
    decodePairs count' entry' pos pairs object = .ok object' := by
  induction pairs generalizing pos object with
  | nil => exact hpairs
  | cons pair rest ih =>
    rw [decodePairs_cons_eq] at hpairs
    obtain ⟨⟨name, v⟩, hpair, hrest⟩ := Transformed.bind_eq_ok.1 hpairs
    obtain ⟨index, w, i, rfl, hindex, hentry⟩ :=
      decodePair_eq_ok (Transformed.under_eq_ok.1 hpair)
    rw [decodePairs_cons hindex (h i w name v hentry)]
    exact ih hrest

/-- A lookup is understood by one that has its fields, and decodes what they decode. -/
theorem understands_lookup {fields fields' : List (Declared Schema)}
    (h : ∀ (i : Nat) (d : Declared Schema), fields[i]? = some d →
      ∃ d', fields'[i]? = some d' ∧ d'.name = d.name ∧ d'.schema.Understands d.schema) :
    (lookup fields').Understands (.lookup fields) := by
  intro w v hv
  cases w with
  | list pairs =>
    obtain ⟨object, hobject, rfl⟩ := Transformed.map_eq_ok.1 hv
    rw [decode, decodePairs_mono (fun i w name v hentry => ?_) hobject]
    · rfl
    · rw [decodeEntry_eq] at hentry ⊢
      obtain ⟨d, hd, heq⟩ := Option.map_eq_some_iff.1 hentry
      obtain ⟨d', hd', hname, hunderstands⟩ := h i d hd
      obtain ⟨rfl, hdecode⟩ := Prod.mk.inj heq
      rw [hd', Option.map_some, hname, hunderstands w v hdecode]
  | _ => nomatch hv

/-! ## A place inside grows -/

theorem understands_inTuple (h : T.Understands S) (before after : List (Declared Schema))
    (name : String) (isOptional : Bool) :
    (tuple (before ++ ⟨name, T, isOptional⟩ :: after)).Understands
      (.tuple (before ++ ⟨name, S, isOptional⟩ :: after)) := by
  -- What comes before the place is decoded as before, and so is what comes after it.
  have hplace (i : Nat) (items : List Value) (object object' : Fields)
      (hobject : decodeTuple (⟨name, S, isOptional⟩ :: after) i items object = .ok object') :
      decodeTuple (⟨name, T, isOptional⟩ :: after) i items object = .ok object' := by
    cases items with
    | nil => exact hobject
    | cons w items =>
      rw [decodeTuple] at hobject ⊢
      split at hobject
      · rename_i hnull
        rw [if_pos hnull, hobject]
      · rename_i hnull
        obtain ⟨v, hv, hrest⟩ := Transformed.bind_eq_ok.1 hobject
        rw [if_neg hnull, h w v (Transformed.under_eq_ok.1 hv), Transformed.under_ok,
          Transformed.ok_bind, hrest]
  refine understands_tuple_of (by simp) fun items object _ hobject => ?_
  rw [decodeTuple_append] at hobject ⊢
  obtain ⟨object', hbefore, hafter⟩ := Transformed.bind_eq_ok.1 hobject
  rw [hbefore, Transformed.ok_bind, hplace _ _ _ _ hafter]

theorem understands_inLookup (h : T.Understands S) (before after : List (Declared Schema))
    (name : String) (isOptional : Bool) :
    (lookup (before ++ ⟨name, T, isOptional⟩ :: after)).Understands
      (.lookup (before ++ ⟨name, S, isOptional⟩ :: after)) := by
  refine understands_lookup fun i d hd => ?_
  by_cases hlt : i < before.length
  · rw [List.getElem?_append_left hlt] at hd ⊢
    exact ⟨d, hd, rfl, fun _ _ => id⟩
  · rw [List.getElem?_append_right (Nat.not_lt.1 hlt)] at hd ⊢
    cases hi : i - before.length with
    | zero =>
      rw [hi] at hd
      obtain rfl := Option.some.inj hd
      exact ⟨_, rfl, rfl, h⟩
    | succ k =>
      rw [hi] at hd
      exact ⟨d, hd, rfl, fun _ _ => id⟩

theorem understands_inSlots (h : T.Understands S) (before after : List Schema) :
    (slots (before ++ T :: after)).Understands (.slots (before ++ S :: after)) := by
  have hplace (i : Nat) (items vs : List Value)
      (hvs : decodeSlots (S :: after) i items = .ok vs) :
      decodeSlots (T :: after) i items = .ok vs := by
    rw [decodeSlots, decode_slot] at hvs ⊢
    obtain ⟨v, hv, hrest⟩ := Transformed.bind_eq_ok.1 hvs
    rw [h.nullable _ v (Transformed.under_eq_ok.1 hv)]
    exact hrest
  intro w v hv
  cases w with
  | list items =>
    rw [decode] at hv ⊢
    split at hv
    · cases hv
    · rename_i hlength
      obtain ⟨vs, hvs, rfl⟩ := Transformed.map_eq_ok.1 hv
      rw [decodeSlots_append] at hvs
      obtain ⟨us, hbefore, hrest⟩ := Transformed.bind_eq_ok.1 hvs
      obtain ⟨us', hafter, heq⟩ := Transformed.bind_eq_ok.1 hrest
      rw [if_neg (by simpa using hlength), decodeSlots_append, hbefore, Transformed.ok_bind,
        hplace _ _ _ hafter, Transformed.ok_bind, heq]
      rfl
  | _ => cases hv

theorem understands_inNamedSlots (h : T.Understands S) (before after : List (String × Schema))
    (name : String) :
    (namedSlots (before ++ (name, T) :: after)).Understands
      (.namedSlots (before ++ (name, S) :: after)) := by
  have hplace (i : Nat) (items : List Value) (object object' : Fields)
      (hobject : decodeNamed ((name, S) :: after) i items object = .ok object') :
      decodeNamed ((name, T) :: after) i items object = .ok object' := by
    rw [decodeNamed, decode_slot] at hobject ⊢
    obtain ⟨v, hv, hrest⟩ := Transformed.bind_eq_ok.1 hobject
    rw [h.nullable _ v (Transformed.under_eq_ok.1 hv)]
    exact hrest
  refine understands_namedSlots_of (by simp) fun items object _ hobject => ?_
  rw [decodeNamed_append] at hobject ⊢
  obtain ⟨object', hbefore, hafter⟩ := Transformed.bind_eq_ok.1 hobject
  rw [hbefore, Transformed.ok_bind, hplace _ _ _ _ hafter]

theorem mapItems_mono {f g : Value → Transformed Value}
    (hfg : ∀ w v, f w = .ok v → g w = .ok v) {i : Nat} {items vs : List Value}
    (hvs : mapItems f i items = .ok vs) : mapItems g i items = .ok vs := by
  induction items generalizing i vs with
  | nil => exact hvs
  | cons w rest ih =>
    rw [mapItems] at hvs ⊢
    obtain ⟨v, hv, hrest⟩ := Transformed.bind_eq_ok.1 hvs
    obtain ⟨us, hus, heq⟩ := Transformed.bind_eq_ok.1 hrest
    rw [hfg w v (Transformed.under_eq_ok.1 hv), Transformed.under_ok, Transformed.ok_bind, ih hus,
      Transformed.ok_bind, heq]

theorem understands_inEach (h : T.Understands S) : (each T).Understands (.each S) := by
  intro w v hv
  cases w with
  | list items =>
    obtain ⟨vs, hvs, rfl⟩ := Transformed.map_eq_ok.1 hv
    rw [decode, mapItems_mono h hvs]
    rfl
  | _ => nomatch hv

/-- A schema grown at one place understands what it was before. -/
theorem understands_of_grows (h : Grows S T) : T.Understands S := by
  induction h with
  | literal values added => exact understands_literal values added
  | tuple fields added h => exact understands_tuple fields h
  | lookup fields added =>
    refine understands_lookup fun i d hd => ⟨d, ?_, rfl, fun _ _ => id⟩
    rw [List.getElem?_append_left (List.getElem?_eq_some_iff.1 hd).1]
    exact hd
  | namedSlots seats added => exact understands_namedSlots seats added
  | inTuple before after name isOptional _ ih =>
    exact understands_inTuple ih before after name isOptional
  | inLookup before after name isOptional _ ih =>
    exact understands_inLookup ih before after name isOptional
  | inSlots before after _ ih => exact understands_inSlots ih before after
  | inNamedSlots before after name _ ih => exact understands_inNamedSlots ih before after name
  | inEach _ ih => exact understands_inEach ih
  | inNullable _ ih => exact ih.nullable

/-- **Growing is backward compatible.** What a schema decodes, every schema that extends it decodes
    to the same value. -/
theorem decode_of_extends (h : Extends S T) {w v : Value} (hv : S.decode w = .ok v) :
    T.decode w = .ok v := by
  induction h with
  | refl => exact hv
  | tail _ hgrows ih => exact understands_of_grows hgrows w v ih

/-- Players, each with a role and perhaps with marks. -/
def playersSchema : Schema :=
  .each (.tuple [⟨"role", .literal [.text "tank"], false⟩,
    ⟨"marks", .nullable (.lookup [⟨"vet", .identity, true⟩]), true⟩])

/-- The same with one more role, one more mark, and a field more for every player. -/
def grownPlayersSchema : Schema :=
  .each (.tuple [⟨"role", .literal [.text "tank", .text "dps"], false⟩,
    ⟨"marks", .nullable (.lookup [⟨"vet", .identity, true⟩, ⟨"new", .identity, false⟩]), true⟩,
    ⟨"seat", .namedSlots [("left", .identity)], true⟩])

theorem extends_grownPlayersSchema : playersSchema.Extends grownPlayersSchema :=
  .tail (.tail (.tail .refl
    (.inEach (.inTuple [] _ _ _ (.literal _ [.text "dps"]))))
    (.inEach (.inTuple [_] [] _ _ (.inNullable (.lookup _ [⟨"new", .identity, false⟩])))))
    (.inEach (.tuple [_, _] [⟨"seat", .namedSlots [("left", .identity)], true⟩] (by simp)))

/-- A player whose mark is set twice, and one without marks. -/
def playersWire : Value :=
  .list [.list [.ofNat 0, .list [.list [.ofNat 0, .bool false], .list [.ofNat 0, .bool true]]],
    .list [.ofNat 0]]

/-- The same players, by name. -/
def playersValue : Value :=
  .list [.object [("marks", .object [("vet", .bool true)]), ("role", .text "tank")],
    .object [("role", .text "tank")]]

/-- The grown schema understands a wire form that no encoder produces. -/
theorem decode_of_extends_players : playersSchema.Extends grownPlayersSchema ∧
    playersSchema.decode playersWire = .ok playersValue ∧
    grownPlayersSchema.decode playersWire = .ok playersValue := by
  have hdecode : playersSchema.decode playersWire = .ok playersValue := rfl
  exact ⟨extends_grownPlayersSchema, hdecode,
    decode_of_extends extends_grownPlayersSchema hdecode⟩

end Schema

end FrameRpc
