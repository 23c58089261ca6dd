import FrameRpc.Proofs.SchemaRoundTrip

/-!
# Schemas by their parts

A schema is proved to have a property from the schemas of its parts, its fields and slots
(`Schema.induction`); what a transform does to a list of parts is then an induction on the list.

A transform of several parts succeeds if each of them does, and fails with the error of the first
one that does not, as seen from outside (`Transformed.bind_eq_ok`, `Transformed.bind_eq_error`).
-/

namespace FrameRpc

namespace Transformed

variable {α β : Type} {s : Segment} {e : SchemaError}

theorem under_eq_ok {x : Transformed α} {a : α} : under s x = .ok a ↔ x = .ok a := by
  cases x with
  | error e => exact ⟨fun h => (nomatch h), fun h => (nomatch h)⟩
  | ok b => exact .rfl

theorem under_eq_error {x : Transformed α} :
    under s x = .error e ↔ ∃ e', x = .error e' ∧ e'.under s = e := by
  cases x with
  | error e' => exact ⟨fun h => ⟨e', rfl, Except.error.inj h⟩, fun ⟨_, rfl, h⟩ => congrArg _ h⟩
  | ok b => exact ⟨fun h => (nomatch h), fun ⟨_, h, _⟩ => (nomatch h)⟩

theorem bind_eq_ok {x : Transformed α} {f : α → Transformed β} {b : β} :
    x >>= f = .ok b ↔ ∃ a, x = .ok a ∧ f a = .ok b := by
  cases x with
  | error e => exact ⟨fun h => (nomatch h), fun ⟨_, h, _⟩ => (nomatch h)⟩
  | ok a => exact ⟨fun h => ⟨a, rfl, h⟩, fun ⟨_, rfl, h⟩ => h⟩

theorem bind_eq_error {x : Transformed α} {f : α → Transformed β} :
    x >>= f = .error e ↔ x = .error e ∨ ∃ a, x = .ok a ∧ f a = .error e := by
  cases x with
  | error e' =>
    refine ⟨fun h => .inl (congrArg _ (Except.error.inj h)), ?_⟩
    rintro (h | ⟨_, h, _⟩)
    · exact congrArg _ (Except.error.inj h)
    · nomatch h
  | ok a =>
    refine ⟨fun h => .inr ⟨a, rfl, h⟩, ?_⟩
    rintro (h | ⟨_, h, hf⟩)
    · nomatch h
    · cases h
      exact hf

theorem map_eq_ok {x : Transformed α} {f : α → β} {b : β} :
    x.map f = .ok b ↔ ∃ a, x = .ok a ∧ f a = b := by
  cases x with
  | error e => exact ⟨fun h => (nomatch h), fun ⟨_, h, _⟩ => (nomatch h)⟩
  | ok a => exact ⟨fun h => ⟨a, rfl, Except.ok.inj h⟩, fun ⟨_, rfl, h⟩ => congrArg _ h⟩

theorem map_eq_error {x : Transformed α} {f : α → β} : x.map f = .error e ↔ x = .error e := by
  cases x with
  | error e' =>
    exact ⟨fun h => congrArg _ (Except.error.inj h), fun h => congrArg _ (Except.error.inj h)⟩
  | ok a => exact ⟨fun h => (nomatch h), fun h => (nomatch h)⟩

theorem bind_pure_eq_error {x : Transformed α} {f : α → β} :
    (x >>= fun a => pure (f a)) = .error e ↔ x = .error e :=
  map_eq_error

end Transformed

namespace Schema

/-! ## Induction -/

/-- A property that every schema inherits from its parts holds of all schemas. -/
@[elab_as_elim]
theorem induction {motive : Schema → Prop} (identity : motive .identity)
    (tuple : ∀ fields, (∀ d ∈ fields, motive d.schema) → motive (.tuple fields))
    (literal : ∀ values, motive (.literal values))
    (lookup : ∀ fields, (∀ d ∈ fields, motive d.schema) → motive (.lookup fields))
    (slots : ∀ seats, (∀ s ∈ seats, motive s) → motive (.slots seats))
    (namedSlots : ∀ seats, (∀ seat ∈ seats, motive seat.2) → motive (.namedSlots seats))
    (each : ∀ item, motive item → motive (.each item))
    (nullable : ∀ inner, motive inner → motive (.nullable inner)) (S : Schema) : motive S := by
  -- The lists of parts, and each part that has a name, have motives of their own.
  refine @Schema.rec motive (fun fields => ∀ d ∈ fields, motive d.schema)
    (fun seats => ∀ s ∈ seats, motive s) (fun seats => ∀ seat ∈ seats, motive seat.2)
    (fun d => motive d.schema) (fun seat => motive seat.2)
    identity tuple literal lookup slots namedSlots each nullable ?_ ?_ ?_ ?_ ?_ ?_ ?_ ?_ S
  · exact fun _ h => absurd h List.not_mem_nil
  · exact fun _ _ hhead htail => List.forall_mem_cons.2 ⟨hhead, htail⟩
  · exact fun _ h => absurd h List.not_mem_nil
  · exact fun _ _ hhead htail => List.forall_mem_cons.2 ⟨hhead, htail⟩
  · exact fun _ h => absurd h List.not_mem_nil
  · exact fun _ _ hhead htail => List.forall_mem_cons.2 ⟨hhead, htail⟩
  · exact fun _ _ _ h => h
  · exact fun _ _ h => h

/-! ## Properties of all parts -/

theorem properFields_iff {fields : List (Declared Schema)} :
    ProperFields fields ↔ ∀ d ∈ fields, d.schema.Proper := by
  induction fields with
  | nil => exact ⟨fun _ _ h => (nomatch h), fun _ => trivial⟩
  | cons d rest ih => rw [List.forall_mem_cons, ← ih, ProperFields]

theorem properSlots_iff {seats : List Schema} : ProperSlots seats ↔ ∀ s ∈ seats, s.Proper := by
  induction seats with
  | nil => exact ⟨fun _ _ h => (nomatch h), fun _ => trivial⟩
  | cons s rest ih => rw [List.forall_mem_cons, ← ih, ProperSlots]

theorem properNamed_iff {seats : List (String × Schema)} :
    ProperNamed seats ↔ ∀ seat ∈ seats, seat.2.Proper := by
  induction seats with
  | nil => exact ⟨fun _ _ h => (nomatch h), fun _ => trivial⟩
  | cons seat rest ih => rw [List.forall_mem_cons, ← ih, ProperNamed]

theorem wellFormedTuple_iff {fields : List (Declared Schema)} {object : Fields} :
    WellFormedTuple fields object ↔ ∀ d ∈ fields,
      (object.get? d.name = none → d.isOptional = true) ∧ ∀ v, object.get? d.name = some v →
        (d.isOptional = true → v ≠ .null) ∧ d.schema.WellFormed v := by
  induction fields with
  | nil => exact ⟨fun _ _ h => (nomatch h), fun _ => trivial⟩
  | cons d rest ih =>
    rw [List.forall_mem_cons, ← ih, WellFormedTuple]
    refine and_congr_left fun _ => ?_
    cases object.get? d.name with
    | none => simp
    | some v => simp

theorem wellFormedLookup_iff {fields : List (Declared Schema)} {object : Fields} :
    WellFormedLookup fields object ↔ ∀ d ∈ fields, ∀ v, object.get? d.name = some v →
      v ≠ .null ∧ d.schema.WellFormed v := by
  induction fields with
  | nil => exact ⟨fun _ _ h => (nomatch h), fun _ => trivial⟩
  | cons d rest ih => rw [List.forall_mem_cons, ← ih, WellFormedLookup]

theorem wellFormedNamed_iff {seats : List (String × Schema)} {object : Fields} :
    WellFormedNamed seats object ↔ ∀ seat ∈ seats, ∀ v, object.get? seat.1 = some v →
      v ≠ .null ∧ seat.2.WellFormed v := by
  induction seats with
  | nil => exact ⟨fun _ _ h => (nomatch h), fun _ => trivial⟩
  | cons seat rest ih => rw [List.forall_mem_cons, ← ih, WellFormedNamed]

section

variable {fields : List (Declared Schema)} {seats : List Schema} {named : List (String × Schema)}

theorem mem_literalsOfFields {d : Declared Schema} (hd : d ∈ fields) {l : Value}
    (hl : l ∈ d.schema.literals) : l ∈ literalsOfFields fields := by
  induction fields with
  | nil => nomatch hd
  | cons d' rest ih =>
    rw [literalsOfFields, List.mem_append]
    rcases List.mem_cons.1 hd with rfl | hd
    · exact .inl hl
    · exact .inr (ih hd)

theorem mem_literalsOfSlots {s : Schema} (hs : s ∈ seats) {l : Value} (hl : l ∈ s.literals) :
    l ∈ literalsOfSlots seats := by
  induction seats with
  | nil => nomatch hs
  | cons s' rest ih =>
    rw [literalsOfSlots, List.mem_append]
    rcases List.mem_cons.1 hs with rfl | hs
    · exact .inl hl
    · exact .inr (ih hs)

theorem mem_literalsOfNamed {seat : String × Schema} (hseat : seat ∈ named) {l : Value}
    (hl : l ∈ seat.2.literals) : l ∈ literalsOfNamed named := by
  induction named with
  | nil => nomatch hseat
  | cons seat' rest ih =>
    rw [literalsOfNamed, List.mem_append]
    rcases List.mem_cons.1 hseat with rfl | hseat
    · exact .inl hl
    · exact .inr (ih hseat)

end

/-! ## Lists of parts -/

theorem get?_of_present {object : Fields} {name : String} {isOptional : Bool}
    {x : Value} (h : present name isOptional object = some x) : object.get? name = some x := by
  rw [present] at h
  split at h
  · rename_i hnull
    split at h
    · cases h
    · rw [hnull, h]
  · exact h

theorem get?_of_missing {object : Fields} {name : String} (h : present name false object = none) :
    object.get? name = none := by
  rw [present] at h
  split at h
  · cases h
  · exact h

theorem decodeEntry_eq (fields : List (Declared Schema)) (i : Nat) (w : Value) :
    decodeEntry fields i w = fields[i]?.map fun d => (d.name, decode d.schema w) := by
  induction fields generalizing i with
  | nil => rfl
  | cons d rest ih =>
    cases i with
    | zero => rfl
    | succ i => exact ih i

/-- Decodes a pair of a lookup of `count` entries: the name of the entry, and its value. -/
def decodePair (count : Nat) (entry : Nat → Value → Option (String × Transformed Value))
    (pair : Value) : Transformed (String × Value) := do
  let p ← pairOf pair
  match p.1.signedInt? with
  | none => (unexpected .integer p.1).under (.index 0)
  | some i =>
    match (if 0 ≤ i then entry i.toNat p.2 else none) with
    | some (name, decoded) => (decoded.under (.index 1)).map fun v => (name, v)
    | none => .error ((SchemaError.here (.unknownIndex i count)).under (.index 0))

theorem pairOf_eq_ok {v index w : Value} (h : pairOf v = .ok (index, w)) :
    v = .list [index, w] := by
  unfold pairOf at h
  split at h
  · cases h
    rfl
  · nomatch h

section

variable {count pos : Nat} {entry : Nat → Value → Option (String × Transformed Value)}
  {pair : Value} {rest : List Value} {object : Fields} {name : String} {v : Value}

/-- The pairs of a lookup are decoded one after the other. -/
theorem decodePairs_cons_eq : decodePairs count entry pos (pair :: rest) object
    = (decodePair count entry pair).under (.index pos) >>= fun e =>
      decodePairs count entry (pos + 1) rest (object.insert e.1 e.2) := by
  rw [decodePairs, decodePair]
  cases pairOf pair with
  | error e => rfl
  | ok p =>
    obtain ⟨index, w⟩ := p
    simp only [Transformed.under_ok, Transformed.ok_bind]
    cases index.signedInt? with
    | none => rfl
    | some i =>
      dsimp only
      generalize (if 0 ≤ i then entry i.toNat w else none) = found
      cases found with
      | none => rfl
      | some named =>
        obtain ⟨name, decoded⟩ := named
        cases decoded <;> rfl

theorem decodePair_eq_ok (h : decodePair count entry pair = .ok (name, v)) :
    ∃ index w i, pair = .list [index, w] ∧ index.signedInt? = some (Int.ofNat i) ∧
      entry i w = some (name, .ok v) := by
  obtain ⟨⟨index, w⟩, hpair, h⟩ := Transformed.bind_eq_ok.1 h
  dsimp only at h
  split at h
  · nomatch Transformed.under_eq_ok.1 h
  · rename_i i hi
    split at h
    · rename_i hentry
      obtain ⟨_, hv, heq⟩ := Transformed.map_eq_ok.1 h
      obtain ⟨rfl, rfl⟩ := Prod.mk.inj heq
      obtain rfl := Transformed.under_eq_ok.1 hv
      split at hentry
      · rename_i hle
        refine ⟨index, w, i.toNat, pairOf_eq_ok hpair, ?_, hentry⟩
        rw [hi, Int.ofNat_eq_natCast, Int.toNat_of_nonneg hle]
      · nomatch hentry
    · nomatch h

end

end Schema

end FrameRpc
