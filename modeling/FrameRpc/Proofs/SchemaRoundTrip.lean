import FrameRpc.Proofs.Domain
import FrameRpc.Proofs.Objects

/-!
# Schemas round-trip

Every value in the domain of a proper schema is encoded, and what it is encoded as decodes to the
value (`Schema.decode_encode_of_wellFormed`). The one place where a value comes back as another is a
literal: a value equal to a declared literal comes back as the literal, and the two zeros are equal.
So the induction is over a relation that containers inherit (`Value.Congruence`) and that declared
literals have to everything equal to them (`Settles`): equality of values is such a relation, and
where no zero is declared so is being the same.

An object is put together field by field. What decoding the fields with some of its names does to
the fields decoded before them is `Fields.Restores`: these names get the values that the object
has, and all others keep theirs.
-/

namespace FrameRpc

variable {R : Value → Value → Prop}

namespace Transformed

@[simp]
theorem under_ok {α : Type} (s : Segment) (a : α) : under s (.ok a) = .ok a := rfl

@[simp]
theorem ok_bind {α β : Type} (a : α) (f : α → Transformed β) :
    ((.ok a : Transformed α) >>= f) = f a := rfl

end Transformed

namespace Value

theorem Canonical.of_mem_list {items : List Value} (h : CanonicalList items) :
    ∀ v ∈ items, v.Canonical := by
  induction items with
  | nil => exact fun _ hv => absurd hv List.not_mem_nil
  | cons w rest ih => exact List.forall_mem_cons.2 ⟨h.1, ih h.2⟩

theorem Canonical.of_get? {fields : Fields} (h : CanonicalFields fields) {name : String}
    {v : Value} (hv : fields.get? name = some v) : v.Canonical := by
  induction fields with
  | nil => nomatch hv
  | cons e rest ih =>
    obtain ⟨n, w⟩ := e
    rw [Fields.get?_cons] at hv
    split at hv
    · cases hv
      exact h.1
    · exact ih h.2 hv

end Value

namespace Fields

/-- Of the fields `done` before, those with these names now have the values of the object, and all
    others are as they were. -/
structure Restores (R : Value → Value → Prop) (names : List String)
    (object done done' : Fields) : Prop where
  ordered : done.Ordered → done'.Ordered
  declared : ∀ n ∈ names, Option.Rel R (done'.get? n) ((object.get? n).or (done.get? n))
  others : ∀ n, n ∉ names → done'.get? n = done.get? n

namespace Restores

variable {name : String} {names : List String} {object done done' : Fields} {v v' : Value}

theorem nil : Restores R [] object done done :=
  ⟨id, fun _ h => absurd h List.not_mem_nil, fun _ _ => rfl⟩

theorem put (hname : name ∉ names) (hv : object.get? name = some v) (hR : R v' v)
    (h : Restores R names object (done.insert name v') done') :
    Restores R (name :: names) object done done' where
  ordered hdone := h.ordered (ordered_insert hdone)
  declared n hn := by
    rcases List.mem_cons.1 hn with rfl | hn
    · rw [h.others n hname, get?_insert, if_pos rfl, hv]
      exact .some hR
    · have hne : n ≠ name := fun heq => hname (heq ▸ hn)
      have hdeclared := h.declared n hn
      rwa [get?_insert, if_neg hne] at hdeclared
  others n hn := by
    obtain ⟨hne, hn⟩ := List.ne_and_not_mem_of_not_mem_cons hn
    rw [h.others n hn, get?_insert, if_neg hne]

theorem skip (hR : ∀ v, R v v) (hname : name ∉ names) (hv : object.get? name = none)
    (h : Restores R names object done done') :
    Restores R (name :: names) object done done' where
  ordered := h.ordered
  declared n hn := by
    rcases List.mem_cons.1 hn with rfl | hn
    · rw [h.others n hname, hv, Option.none_or]
      cases done.get? n with
      | none => exact .none
      | some w => exact .some (hR w)
    · exact h.declared n hn
  others n hn := h.others n (List.ne_and_not_mem_of_not_mem_cons hn).2

/-- Once all names of an object are restored, so is the object. -/
theorem related (hR : Value.Congruence R) (h : Restores R names object [] done')
    (hobject : object.Ordered) (hwithin : Within names object) :
    R (.object done') (.object object) := by
  refine hR.object (forall₂_of_alike (h.ordered .nil) hobject fun n => ?_)
  by_cases hn : n ∈ names
  · have hdeclared := h.declared n hn
    rwa [get?_nil, Option.or_none] at hdeclared
  · have hnone : object.get? n = none :=
      get?_eq_none fun e he heq => hn (hwithin (heq ▸ List.mem_map_of_mem he))
    rw [h.others n hn, hnone]
    exact .none

end Restores

end Fields

/-- These literals are related to everything that equals them. -/
def Settles (R : Value → Value → Prop) (literals : List Value) : Prop :=
  ∀ l ∈ literals, ∀ v, l.agrees v = true → R l v

theorem settles_append {ls ms : List Value} :
    Settles R (ls ++ ms) ↔ Settles R ls ∧ Settles R ms :=
  List.forall_mem_append

namespace Schema

/-- The value is encoded, and comes back up to `R`. -/
def Returns (R : Value → Value → Prop) (S : Schema) (v : Value) : Prop :=
  ∃ w v', S.encode v = .ok w ∧ S.decode w = .ok v' ∧ R v' v

/-! ## Indices -/

theorem signedInt?_int {n : WideInt} (h : n.toInt < indexRange) :
    (Value.int n).signedInt? = some n.toInt :=
  if_pos h

theorem signedInt?_ofNat {n : Nat} (h : n < indexRange) :
    (Value.ofNat n).signedInt? = some (n : Int) := by
  have hn : (UInt64.ofNat n).toNat = n := UInt64.toNat_ofNat_of_lt' (Nat.lt_trans h (by decide))
  have hint : (WideInt.ofUnsigned (UInt64.ofNat n)).toInt = n := congrArg Int.ofNat hn
  rw [Value.ofNat, signedInt?_int (hint ▸ Int.ofNat_lt.2 h), hint]

theorem entryAt_declared {α : Type} {entries : List α} (i : Fin entries.length) :
    entryAt entries i.val = .ok (entries.get i) := by
  simp [entryAt]

theorem decode_literal {values : List Value} {i : Nat} (hlt : i < values.length)
    (hlength : values.length ≤ indexRange) :
    decode (.literal values) (.ofNat i) = .ok values[i] := by
  rw [decode, entryOf, signedInt?_ofNat (Nat.lt_of_lt_of_le hlt hlength)]
  exact entryAt_declared ⟨i, hlt⟩

theorem returns_literal {values : List Value} (hlength : values.length ≤ indexRange)
    (hR : Settles R values) {v : Value} (hv : ∃ l ∈ values, l.agrees v = true) :
    Returns R (.literal values) v := by
  obtain ⟨i, hi⟩ := Option.isSome_iff_exists.1 (List.findIdx?_isSome.trans (List.any_eq_true.2 hv))
  obtain ⟨hlt, hagrees, -⟩ := List.findIdx?_eq_some_iff_getElem.1 hi
  refine ⟨.ofNat i, values[i], ?_, decode_literal hlt hlength,
    hR _ (List.getElem_mem hlt) v hagrees⟩
  rw [encode, indexOf, hi]

/-! ## Lists -/

theorem mapItems_returns {f g : Value → Transformed Value} {items : List Value}
    (h : ∀ x ∈ items, ∃ w v', f x = .ok w ∧ g w = .ok v' ∧ R v' x) :
    ∃ ws, (∀ i, mapItems f i items = .ok ws) ∧
      ∃ vs, (∀ i, mapItems g i ws = .ok vs) ∧ List.Forall₂ R vs items := by
  induction items with
  | nil => exact ⟨[], fun _ => rfl, [], fun _ => rfl, .nil⟩
  | cons x rest ih =>
    obtain ⟨⟨w, v', hf, hg, hR⟩, hrest⟩ := List.forall_mem_cons.1 h
    obtain ⟨ws, hws, vs, hvs, hall⟩ := ih hrest
    refine ⟨w :: ws, fun i => ?_, v' :: vs, fun i => ?_, .cons hR hall⟩
    · rw [mapItems, hf, Transformed.under_ok, Transformed.ok_bind, hws]
      rfl
    · rw [mapItems, hg, Transformed.under_ok, Transformed.ok_bind, hvs]
      rfl

/-! ## One field, one slot

A slot is a nullable value of its schema, on either side. -/

theorem encode_slot {α : Type} (s : Schema) (v : Value) (seg : Segment)
    (f : Value → Transformed α) :
    (if v.isNull then (.ok .null : Transformed Value) >>= f else (encode s v).under seg >>= f)
      = (encode (.nullable s) v).under seg >>= f := by
  rw [encode]
  split <;> rfl

theorem decode_slot {α : Type} (s : Schema) (w : Value) (seg : Segment)
    (f : Value → Transformed α) :
    (if w.isNull then (.ok .null : Transformed Value) >>= f else (decode s w).under seg >>= f)
      = (decode (.nullable s) w).under seg >>= f := by
  rw [decode]
  split <;> rfl

section

variable {name : String} {schema : Schema} {isOptional : Bool} {rest : List (Declared Schema)}
  {others : List Schema} {seats : List (String × Schema)} {object : Fields} {v w : Value}
  {vs ws : List Value} {i : Nat}

theorem present_of_ne_null (hv : object.get? name = some v) (hne : isOptional = true → v ≠ .null) :
    present name isOptional object = some v := by
  rw [present, hv]
  cases v with
  | null =>
    cases isOptional with
    | true => exact absurd rfl (hne rfl)
    | false => rfl
  | _ => rfl

theorem encodeTuple_put (hv : present name isOptional object = some v)
    (hw : encode schema v = .ok w) (hws : encodeTuple rest object = .ok ws) :
    encodeTuple (⟨name, schema, isOptional⟩ :: rest) object = .ok (w :: ws) := by
  rw [encodeTuple, hv]
  simp only [hw, Transformed.under_ok, Transformed.ok_bind, hws]
  rfl

theorem encodeTuple_skip (hget : object.get? name = none) (hws : encodeTuple rest object = .ok ws) :
    encodeTuple (⟨name, schema, true⟩ :: rest) object = .ok (.null :: ws) := by
  rw [encodeTuple, present, hget]
  simp only [Transformed.ok_bind, if_true, hws]
  rfl

theorem decodeTuple_put (hw : isOptional = true → w.isNull = false) (hv : decode schema w = .ok v)
    (done : Fields) : decodeTuple (⟨name, schema, isOptional⟩ :: rest) i (w :: ws) done
      = decodeTuple rest (i + 1) ws (done.insert name v) := by
  have hskip : (w.isNull && isOptional) = false := by
    cases isOptional with
    | false => exact Bool.and_false _
    | true => rw [hw rfl]; rfl
  rw [decodeTuple, hskip, hv, Transformed.under_ok]
  rfl

theorem encodeLookup_skip (h : (object.get? name).getD .null = .null) :
    encodeLookup (⟨name, schema, isOptional⟩ :: rest) i object
      = encodeLookup rest (i + 1) object := by
  rw [encodeLookup]
  cases hget : object.get? name with
  | none => rfl
  | some v =>
    rw [hget, Option.getD_some] at h
    rw [h]

theorem encodeLookup_put (hget : object.get? name = some v) (hne : v ≠ .null)
    (hw : encode schema v = .ok w) (hws : encodeLookup rest (i + 1) object = .ok ws) :
    encodeLookup (⟨name, schema, isOptional⟩ :: rest) i object
      = .ok (.list [.ofNat i, w] :: ws) := by
  rw [encodeLookup, hget]
  cases v with
  | null => exact absurd rfl hne
  | _ =>
    simp only [hw, Transformed.under_ok, Transformed.ok_bind, hws]
    rfl

theorem decodePairs_cons {count pos i : Nat} {index w v : Value} {name : String}
    {pairs : List Value} {entry : Nat → Value → Option (String × Transformed Value)} {done : Fields}
    (hindex : index.signedInt? = some (i : Int)) (hentry : entry i w = some (name, .ok v)) :
    decodePairs count entry pos (.list [index, w] :: pairs) done
      = decodePairs count entry (pos + 1) pairs (done.insert name v) := by
  rw [decodePairs, pairOf, Transformed.under_ok, Transformed.ok_bind]
  simp only [hindex, Transformed.ok_bind, Int.natCast_nonneg, if_true, Int.toNat_natCast, hentry,
    Transformed.under_ok]

/-- The entries of the fields behind the first one have indices from the next on. -/
theorem entry_shift {d : Declared Schema}
    {entry : Nat → Value → Option (String × Transformed Value)}
    (hentry : ∀ k w, entry (i + k) w = decodeEntry (d :: rest) k w) (k : Nat) (w : Value) :
    entry (i + 1 + k) w = decodeEntry rest k w := by
  rw [Nat.add_assoc, Nat.add_comm 1, hentry]
  rfl

theorem entry_head {entry : Nat → Value → Option (String × Transformed Value)}
    (hentry : ∀ k w, entry (i + k) w = decodeEntry (⟨name, schema, isOptional⟩ :: rest) k w)
    (hv : decode schema w = .ok v) : entry i w = some (name, .ok v) := by
  rw [← Nat.add_zero i, hentry, decodeEntry, hv]

theorem encodeSlots_cons (hw : encode (.nullable schema) v = .ok w)
    (hws : encodeSlots others (i + 1) vs = .ok ws) :
    encodeSlots (schema :: others) i (v :: vs) = .ok (w :: ws) := by
  rw [encodeSlots, encode_slot, hw, Transformed.under_ok, Transformed.ok_bind, hws]
  rfl

theorem decodeSlots_cons (hv : decode (.nullable schema) (ws.headD .null) = .ok v)
    (hvs : decodeSlots others (i + 1) ws.tail = .ok vs) :
    decodeSlots (schema :: others) i ws = .ok (v :: vs) := by
  rw [decodeSlots, decode_slot, hv, Transformed.under_ok, Transformed.ok_bind, hvs]
  rfl

theorem encodeNamed_cons (hw : encode (.nullable schema) ((object.get? name).getD .null) = .ok w)
    (hws : encodeNamed seats object = .ok ws) :
    encodeNamed ((name, schema) :: seats) object = .ok (w :: ws) := by
  rw [encodeNamed, encode_slot, hw, Transformed.under_ok, Transformed.ok_bind, hws]
  rfl

theorem decodeNamed_cons (hv : decode (.nullable schema) w = .ok v) (done : Fields) :
    decodeNamed ((name, schema) :: seats) i (w :: ws) done
      = decodeNamed seats (i + 1) ws (if v.isNull then done else done.insert name v) := by
  rw [decodeNamed, List.headD_cons, decode_slot, hv, Transformed.under_ok, Transformed.ok_bind,
    List.tail_cons]

end

/-! ## The induction -/

variable (hR : Value.Congruence R)
include hR

theorem returns_nullable {inner : Schema} {v : Value} (hv : v = .null ∨ Returns R inner v) :
    Returns R (.nullable inner) v := by
  rcases hv with rfl | ⟨w, v', hw, hv', hrelated⟩
  · exact ⟨.null, .null, rfl, rfl, hR.refl _⟩
  · cases hnull : v.isNull with
    | true =>
      obtain rfl := isNull_eq_true_iff.1 hnull
      exact ⟨.null, .null, rfl, rfl, hR.refl _⟩
    | false =>
      refine ⟨w, v', ?_, ?_, hrelated⟩
      · rw [encode, hnull]
        exact hw
      · rw [decode, isNull_of_encode inner hnull hw]
        exact hv'

mutual

/-- What a value in the domain is encoded as decodes to the value, up to `R`. -/
theorem returns : (S : Schema) → S.Proper → Settles R S.literals → {v : Value} → v.Canonical →
    S.WellFormed v → Returns R S v
  | .identity, _, _, v, _, _ => ⟨v, v, rfl, rfl, hR.refl v⟩
  | .tuple fields, hproper, hliterals, _, hcanonical, hv => by
    obtain ⟨object, rfl, hwithin, hfields⟩ := hv
    obtain ⟨ws, hws, hlength, hdecode⟩ :=
      returnsTuple fields hproper.1 hproper.2 hliterals hcanonical.2 hfields
    obtain ⟨done, hdone, hrestores⟩ := hdecode 0 []
    refine ⟨.list ws, .object done, ?_, ?_, hrestores.related hR hcanonical.1 hwithin⟩
    · rw [encode, hws]
      rfl
    · rw [decode, if_neg (by omega), hdone]
      rfl
  | .literal values, hproper, hliterals, _, _, hv => returns_literal hproper hliterals hv
  | .lookup fields, hproper, hliterals, _, hcanonical, hv => by
    obtain ⟨object, rfl, hwithin, hfields⟩ := hv
    obtain ⟨pairs, hpairs, hdecode⟩ := returnsLookup fields hproper.1 hproper.2.2 hliterals
      hcanonical.2 hfields 0 (by rw [Nat.zero_add]; exact hproper.2.1)
    obtain ⟨done, hdone, hrestores⟩ :=
      hdecode (fun i w => decodeEntry fields i w) (fun k w => by rw [Nat.zero_add])
        fields.length 0 []
    refine ⟨.list pairs, .object done, ?_, ?_, hrestores.related hR hcanonical.1 hwithin⟩
    · rw [encode, hpairs]
      rfl
    · rw [decode, hdone]
      rfl
  | .slots seats, hproper, hliterals, _, hcanonical, hv => by
    obtain ⟨items, rfl, hitems⟩ := hv
    obtain ⟨ws, hws, hlength, vs, hvs, hall⟩ :=
      returnsSlots seats hproper hliterals hcanonical hitems
    refine ⟨.list (dropTrailingNulls ws), .list vs, ?_, ?_, hR.list hall⟩
    · rw [encode, if_neg (Nat.not_lt.2 (Nat.le_of_eq (WellFormedSlots.length_eq hitems))), hws]
      rfl
    · have hle := length_dropTrailingNulls_le ws
      rw [decode, if_neg (by omega), decodeSlots_dropTrailingNulls, hvs]
      rfl
  | .namedSlots seats, hproper, hliterals, _, hcanonical, hv => by
    obtain ⟨object, rfl, hwithin, hseats⟩ := hv
    obtain ⟨ws, hws, hlength, hdecode⟩ :=
      returnsNamed seats hproper.1 hproper.2 hliterals hcanonical.2 hseats
    obtain ⟨done, hdone, hrestores⟩ := hdecode 0 []
    refine ⟨.list (dropTrailingNulls ws), .object done, ?_, ?_,
      hrestores.related hR hcanonical.1 hwithin⟩
    · rw [encode, hws]
      rfl
    · have hle := length_dropTrailingNulls_le ws
      rw [decode, if_neg (by omega), decodeNamed_dropTrailingNulls, hdone]
      rfl
  | .each item, hproper, hliterals, _, hcanonical, hv => by
    obtain ⟨items, rfl, hitems⟩ := hv
    obtain ⟨ws, hws, vs, hvs, hall⟩ := mapItems_returns fun x hx =>
      returns item hproper hliterals (Value.Canonical.of_mem_list hcanonical x hx) (hitems x hx)
    refine ⟨.list ws, .list vs, ?_, ?_, hR.list hall⟩
    · rw [encode, hws]
      rfl
    · rw [decode, hvs]
      rfl
  | .nullable inner, hproper, hliterals, _, hcanonical, hv =>
    returns_nullable hR (hv.imp_right (returns inner hproper hliterals hcanonical))

theorem returnsTuple : (fields : List (Declared Schema)) → (fields.map Declared.name).Nodup →
    ProperFields fields → Settles R (literalsOfFields fields) → {object : Fields} →
    Value.CanonicalFields object → WellFormedTuple fields object →
    ∃ ws, encodeTuple fields object = .ok ws ∧ ws.length = fields.length ∧
      ∀ i done, ∃ done', decodeTuple fields i ws done = .ok done' ∧
        Fields.Restores R (fields.map Declared.name) object done done'
  | [], _, _, _, _, _, _ => ⟨[], rfl, rfl, fun _ done => ⟨done, rfl, .nil⟩⟩
  | ⟨name, schema, isOptional⟩ :: rest, hnames, hproper, hliterals, object, hcanonical,
      hfields => by
    obtain ⟨hname, hnames⟩ := List.nodup_cons.1 hnames
    obtain ⟨hschema, hrest⟩ := settles_append.1 hliterals
    obtain ⟨hfield, hfields⟩ := hfields
    obtain ⟨ws, hws, hlength, hdecode⟩ :=
      returnsTuple rest hnames hproper.2 hrest hcanonical hfields
    cases hget : object.get? name with
    | none =>
      -- Only an optional field is absent, and null stands for it.
      rw [hget] at hfield
      obtain rfl : isOptional = true := hfield
      refine ⟨.null :: ws, encodeTuple_skip hget hws, congrArg (· + 1) hlength, fun i done => ?_⟩
      obtain ⟨done', hdone, hrestores⟩ := hdecode (i + 1) done
      exact ⟨done', hdone, hrestores.skip hR.refl hname hget⟩
    | some v =>
      rw [hget] at hfield
      obtain ⟨w, v', hw, hv', hrelated⟩ :=
        returns schema hproper.1 hschema (Value.Canonical.of_get? hcanonical hget) hfield.2
      refine ⟨w :: ws, encodeTuple_put (present_of_ne_null hget hfield.1) hw hws,
        congrArg (· + 1) hlength, fun i done => ?_⟩
      obtain ⟨done', hdone, hrestores⟩ := hdecode (i + 1) (done.insert name v')
      refine ⟨done', ?_, hrestores.put hname hget hrelated⟩
      have hnull (ho : isOptional = true) : w.isNull = false :=
        isNull_of_encode schema (isNull_eq_false_iff.2 (hfield.1 ho)) hw
      rw [decodeTuple_put hnull hv']
      exact hdone

theorem returnsLookup : (fields : List (Declared Schema)) → (fields.map Declared.name).Nodup →
    ProperFields fields → Settles R (literalsOfFields fields) → {object : Fields} →
    Value.CanonicalFields object → WellFormedLookup fields object → (i : Nat) →
    i + fields.length ≤ indexRange →
    ∃ pairs, encodeLookup fields i object = .ok pairs ∧
      ∀ entry, (∀ k w, entry (i + k) w = decodeEntry fields k w) →
        ∀ count pos done, ∃ done', decodePairs count entry pos pairs done = .ok done' ∧
          Fields.Restores R (fields.map Declared.name) object done done'
  | [], _, _, _, _, _, _, _, _ => ⟨[], rfl, fun _ _ _ _ done => ⟨done, rfl, .nil⟩⟩
  | ⟨name, schema, isOptional⟩ :: rest, hnames, hproper, hliterals, object, hcanonical, hfields,
      i, hrange => by
    obtain ⟨hname, hnames⟩ := List.nodup_cons.1 hnames
    obtain ⟨hschema, hrest⟩ := settles_append.1 hliterals
    obtain ⟨hfield, hfields⟩ := hfields
    rw [List.length_cons] at hrange
    obtain ⟨pairs, hpairs, hdecode⟩ := returnsLookup rest hnames hproper.2 hrest hcanonical hfields
      (i + 1) (by omega)
    cases hget : object.get? name with
    | none =>
      refine ⟨pairs, ?_, fun entry hentry count pos done => ?_⟩
      · rw [encodeLookup_skip (by rw [hget]; rfl), hpairs]
      · obtain ⟨done', hdone, hrestores⟩ := hdecode entry (entry_shift hentry) count pos done
        exact ⟨done', hdone, hrestores.skip hR.refl hname hget⟩
    | some v =>
      obtain ⟨hne, hv⟩ := hfield v hget
      obtain ⟨w, v', hw, hv', hrelated⟩ :=
        returns schema hproper.1 hschema (Value.Canonical.of_get? hcanonical hget) hv
      refine ⟨.list [.ofNat i, w] :: pairs, encodeLookup_put hget hne hw hpairs,
        fun entry hentry count pos done => ?_⟩
      obtain ⟨done', hdone, hrestores⟩ :=
        hdecode entry (entry_shift hentry) count (pos + 1) (done.insert name v')
      refine ⟨done', ?_, hrestores.put hname hget hrelated⟩
      rw [decodePairs_cons (signedInt?_ofNat (by omega)) (entry_head hentry hv')]
      exact hdone

theorem returnsSlots : (seats : List Schema) → ProperSlots seats →
    Settles R (literalsOfSlots seats) → {items : List Value} → Value.CanonicalList items →
    WellFormedSlots seats items →
    ∃ ws, (∀ i, encodeSlots seats i items = .ok ws) ∧ ws.length = seats.length ∧
      ∃ vs, (∀ i, decodeSlots seats i ws = .ok vs) ∧ List.Forall₂ R vs items
  | [], _, _, _, _, rfl => ⟨[], fun _ => rfl, rfl, [], fun _ => rfl, .nil⟩
  | schema :: rest, hproper, hliterals, _, hcanonical, hitems => by
    obtain ⟨v, items, rfl, hv, hitems⟩ := hitems
    obtain ⟨hschema, hrest⟩ := settles_append.1 hliterals
    obtain ⟨w, v', hw, hv', hrelated⟩ :=
      returns_nullable hR (hv.imp_right (returns schema hproper.1 hschema hcanonical.1))
    obtain ⟨ws, hws, hlength, vs, hvs, hall⟩ :=
      returnsSlots rest hproper.2 hrest hcanonical.2 hitems
    exact ⟨w :: ws, fun i => encodeSlots_cons hw (hws (i + 1)), congrArg (· + 1) hlength, v' :: vs,
      fun i => decodeSlots_cons hv' (hvs (i + 1)), .cons hrelated hall⟩

theorem returnsNamed : (seats : List (String × Schema)) → (seats.map Prod.fst).Nodup →
    ProperNamed seats → Settles R (literalsOfNamed seats) → {object : Fields} →
    Value.CanonicalFields object → WellFormedNamed seats object →
    ∃ ws, encodeNamed seats object = .ok ws ∧ ws.length = seats.length ∧
      ∀ i done, ∃ done', decodeNamed seats i ws done = .ok done' ∧
        Fields.Restores R (seats.map Prod.fst) object done done'
  | [], _, _, _, _, _, _ => ⟨[], rfl, rfl, fun _ done => ⟨done, rfl, .nil⟩⟩
  | (name, schema) :: rest, hnames, hproper, hliterals, object, hcanonical, hseats => by
    obtain ⟨hname, hnames⟩ := List.nodup_cons.1 hnames
    obtain ⟨hschema, hrest⟩ := settles_append.1 hliterals
    obtain ⟨hseat, hseats⟩ := hseats
    obtain ⟨ws, hws, hlength, hdecode⟩ := returnsNamed rest hnames hproper.2 hrest hcanonical hseats
    have hslot : Returns R (.nullable schema) ((object.get? name).getD .null) := by
      refine returns_nullable hR ?_
      cases hget : object.get? name with
      | none => exact .inl rfl
      | some v =>
        exact .inr (returns schema hproper.1 hschema (Value.Canonical.of_get? hcanonical hget)
          (hseat v hget).2)
    obtain ⟨w, v', hw, hv', hrelated⟩ := hslot
    refine ⟨w :: ws, encodeNamed_cons hw hws, congrArg (· + 1) hlength, fun i done => ?_⟩
    obtain ⟨done', hdone, hrestores⟩ :=
      hdecode (i + 1) (if v'.isNull then done else done.insert name v')
    refine ⟨done', ?_, ?_⟩
    · rw [decodeNamed_cons hv']
      exact hdone
    · cases hget : object.get? name with
      | none =>
        have hnull : v'.isNull = true := by rw [hR.isNull_eq hrelated, hget]; rfl
        rw [if_pos hnull] at hrestores
        exact hrestores.skip hR.refl hname hget
      | some v =>
        rw [hget, Option.getD_some] at hrelated
        have hnull : v'.isNull = false := by
          rw [hR.isNull_eq hrelated, isNull_eq_false_iff]
          exact (hseat v hget).1
        rw [if_neg (by rw [hnull]; exact Bool.false_ne_true)] at hrestores
        exact hrestores.put hname hget hrelated

end

omit hR

/-- **The round trip.** A value in the domain of a proper schema is encoded, and decoding returns
    it: a value equal to it always, the very same unless a zero is declared as a literal. -/
theorem decode_encode_of_wellFormed {S : Schema} (hS : S.Proper) {v : Value} (hv : v.Canonical)
    (hdomain : S.WellFormed v) :
    ∃ w v', S.encode v = .ok w ∧ S.decode w = .ok v' ∧ v'.agrees v = true ∧
      ((∀ l ∈ S.literals, l.ZeroFree) → v' = v) := by
  obtain ⟨w, v', hw, hv', hagrees⟩ :=
    returns Value.congruence_agrees S hS (fun _ _ _ h => h) hv hdomain
  refine ⟨w, v', hw, hv', hagrees, fun hzero => ?_⟩
  obtain ⟨w₂, v₂, hw₂, hv₂, rfl⟩ :=
    returns Value.congruence_eq S hS (fun l hl _ h => Value.eq_of_agrees (hzero l hl) h) hv hdomain
  cases hw.symm.trans hw₂
  cases hv'.symm.trans hv₂
  rfl

/-- Two seats of a room: who sits there, in which role, and with which marks. -/
def roomSchema : Schema :=
  .uniform 2 (.tuple [⟨"id", .identity, false⟩,
    ⟨"marks", .lookup [⟨"vet", .nullable .identity, true⟩, ⟨"new", .identity, true⟩], true⟩,
    ⟨"role", .literal [.text "tank", .null, .text "dps"], false⟩])

theorem proper_roomSchema : roomSchema.Proper := by
  simp [roomSchema, uniform, Proper, ProperSlots, ProperFields, indexRange, List.replicate]

/-- One seat is taken and one is free. -/
def roomValue : Value :=
  .list [.object [("id", .text "ana"), ("marks", .object [("new", .bool true)]), ("role", .null)],
    .null]

/-- The round trip of the room: a null that is a literal is kept, and one that is a free seat is
    left out and comes back. -/
theorem decode_encode_room : ∃ w v', roomSchema.encode roomValue = .ok w ∧
    roomSchema.decode w = .ok v' ∧ v'.agrees roomValue = true ∧
    ((∀ l ∈ roomSchema.literals, l.ZeroFree) → v' = roomValue) := by
  refine decode_encode_of_wellFormed proper_roomSchema ?_ ?_
  · simp only [roomValue, Value.Canonical, Value.CanonicalList, Value.CanonicalFields,
      Fields.Ordered]
    decide
  · simp [roomSchema, roomValue, uniform, WellFormed, WellFormedSlots, WellFormedTuple,
      WellFormedLookup, Fields.Within, Fields.get?_nil, Fields.get?_cons, Value.agrees_refl,
      List.replicate]

end Schema

end FrameRpc
