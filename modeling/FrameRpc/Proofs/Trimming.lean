import FrameRpc.Proofs.Clearing

/-!
# Slot arrays are trimmed

The wire form of slots is as short as it can be (`Schema.trimmed_of_encode`): its last item is not
null, it decodes to the full width, and no shorter array decodes to the same value. Nothing is asked
of the schemas of the slots but that their indices fit (`Schema.Indexable`).

A slot array is seen through what it has for each slot, null where it ends (`List.getD`). Through
this view trimming changes nothing (`Schema.getD_dropTrailingNulls`), and decoding what was encoded
keeps the nulls where they are (`Schema.Fills`). An array that is shorter has a null where the wire
form has its last item, and so has what it decodes to (`Schema.Fills.exists_filled`).

Named slots are slots whose items go under the names in the end (`Schema.decodeNamed_eq`,
`Schema.encodeSlots_of_encodeNamed`).
-/

namespace FrameRpc

namespace Schema

/-! ## Indices -/

/-- Every index fits a signed word, which the length of a list in memory does. Names may be declared
    twice. -/
inductive Indexable : Schema → Prop
  | identity : Indexable .identity
  | tuple {fields} (h : ∀ d ∈ fields, Indexable d.schema) : Indexable (.tuple fields)
  | literal {values} (hlength : values.length ≤ indexRange) : Indexable (.literal values)
  | lookup {fields} (hlength : fields.length ≤ indexRange)
    (h : ∀ d ∈ fields, Indexable d.schema) : Indexable (.lookup fields)
  | slots {seats} (h : ∀ s ∈ seats, Indexable s) : Indexable (.slots seats)
  | namedSlots {seats} (h : ∀ seat ∈ seats, Indexable seat.2) : Indexable (.namedSlots seats)
  | each {item} (h : Indexable item) : Indexable (.each item)
  | nullable {inner} (h : Indexable inner) : Indexable (.nullable inner)

/-! ## Arrays by their slots -/

/-- Without the nulls at its end, a list has the same for each slot. -/
theorem getD_dropTrailingNulls (ws : List Value) (k : Nat) :
    (dropTrailingNulls ws).getD k .null = ws.getD k .null := by
  induction k generalizing ws with
  | zero =>
    have h := headD_dropTrailingNulls ws
    rwa [List.headD_eq_getD, List.headD_eq_getD] at h
  | succ k ih =>
    have hnext (us : List Value) : us.getD (k + 1) .null = us.tail.getD k .null := by
      cases us <;> rfl
    rw [hnext, hnext, tail_dropTrailingNulls, ih]

theorem ne_null_of_getLast?_dropTrailingNulls (ws : List Value) :
    ∀ w ∈ (dropTrailingNulls ws).getLast?, w ≠ .null := by
  induction ws with
  | nil =>
    intro w hw
    cases hw
  | cons v rest ih =>
    rw [dropTrailingNulls]
    split
    · split
      · intro w hw
        cases hw
      · rename_i hv
        intro w hw
        cases hw
        exact isNull_eq_false_iff.1 (Bool.eq_false_iff.2 hv)
    · rename_i kept hne
      cases hkept : dropTrailingNulls rest with
      | nil => exact absurd hkept hne
      | cons w' kept =>
        rw [hkept] at ih
        rwa [List.getLast?_cons_cons]

/-- Lists that agree have nulls for the same slots. -/
theorem isNull_getD_of_agreesList {vs us : List Value} (h : Value.agreesList vs us = true)
    (k : Nat) : (vs.getD k .null).isNull = (us.getD k .null).isNull := by
  have hforall := Value.agreesList_iff.1 h
  clear h
  induction hforall generalizing k with
  | nil => rfl
  | cons hv _ ih =>
    cases k with
    | zero => exact Value.isNull_eq_of_agrees hv
    | succ k => exact ih k

/-! ## What is encoded is decoded -/

/-- What the schema encodes it decodes, and only a null comes back as one. -/
def Decodes (S : Schema) : Prop :=
  ∀ v w, S.encode v = .ok w → ∃ v', S.decode w = .ok v' ∧ (v.isNull = false → v'.isNull = false)

/-- Of a slot, what comes back is null just when the wire form is. -/
theorem Decodes.slot {S : Schema} (h : S.Decodes) {v w : Value}
    (hw : encode (.nullable S) v = .ok w) :
    ∃ v', decode (.nullable S) w = .ok v' ∧ v'.isNull = w.isNull := by
  rw [encode] at hw
  cases hv : v.isNull with
  | true =>
    rw [hv] at hw
    cases hw
    exact ⟨.null, rfl, rfl⟩
  | false =>
    rw [hv] at hw
    obtain ⟨v', hv', hnull⟩ := h v w hw
    have hw' := isNull_of_encode S hv hw
    refine ⟨v', ?_, (hnull hv).trans hw'.symm⟩
    rw [decode, hw']
    exact hv'

section

variable {fields : List (Declared Schema)} {seats : List Schema}
  {named : List (String × Schema)} {object : Fields} {items ws vs : List Value} {i : Nat}

theorem decodeTuple_of_encodeTuple (h : ∀ d ∈ fields, d.schema.Decodes)
    (hws : encodeTuple fields object = .ok ws) :
    ws.length = fields.length ∧ ∀ j done, ∃ done', decodeTuple fields j ws done = .ok done' := by
  induction fields generalizing ws with
  | nil =>
    cases hws
    exact ⟨rfl, fun _ done => ⟨done, rfl⟩⟩
  | cons d rest ih =>
    obtain ⟨name, schema, isOptional⟩ := d
    obtain ⟨hschema, hrest⟩ := List.forall_mem_cons.1 h
    obtain ⟨w, ws', rfl, hws', ⟨rfl, rfl⟩ | ⟨v, hpresent, hw⟩⟩ := encodeTuple_eq_ok hws
    · obtain ⟨hlength, hdecode⟩ := ih hrest hws'
      exact ⟨congrArg (· + 1) hlength, fun j done => hdecode (j + 1) done⟩
    · obtain ⟨v', hv', -⟩ := hschema v w hw
      obtain ⟨hlength, hdecode⟩ := ih hrest hws'
      refine ⟨congrArg (· + 1) hlength, fun j done => ?_⟩
      have hnull := fun ho => isNull_of_encode schema (isNull_of_present hpresent ho) hw
      rw [decodeTuple_put hnull hv']
      exact hdecode (j + 1) (done.insert name v')

theorem decodePairs_of_encodeLookup (h : ∀ d ∈ fields, d.schema.Decodes)
    (hrange : i + fields.length ≤ indexRange) (hws : encodeLookup fields i object = .ok ws)
    (entry : Nat → Value → Option (String × Transformed Value))
    (hentry : ∀ k w, entry (i + k) w = decodeEntry fields k w) (count pos : Nat) (done : Fields) :
    ∃ done', decodePairs count entry pos ws done = .ok done' := by
  induction fields generalizing i ws pos done with
  | nil =>
    cases hws
    exact ⟨done, rfl⟩
  | cons d rest ih =>
    obtain ⟨name, schema, isOptional⟩ := d
    obtain ⟨hschema, hrest⟩ := List.forall_mem_cons.1 h
    rw [List.length_cons] at hrange
    by_cases hget : (object.get? name).getD .null = .null
    · -- Absent or null, the field has no pair.
      rw [encodeLookup_skip hget] at hws
      exact ih hrest (by omega) hws (entry_shift hentry) pos done
    · obtain ⟨v, hv, hne⟩ := exists_of_getD_ne_null hget
      obtain ⟨w, pairs, hw, hpairs, rfl⟩ := encodeLookup_eq_ok hv hne hws
      obtain ⟨v', hv', -⟩ := hschema v w hw
      rw [decodePairs_cons (signedInt?_ofNat (by omega)) (entry_head hentry hv')]
      exact ih hrest (by omega) hpairs (entry_shift hentry) (pos + 1) (done.insert name v')

/-- An array that is no longer than the slots, the items that it decodes to, and nulls in the same
    places of both. -/
structure Fills (seats : List Schema) (ws vs : List Value) : Prop where
  length_le : ws.length ≤ seats.length
  decoded : ∀ i, decodeSlots seats i ws = .ok vs
  isNull_eq : ∀ k, (vs.getD k .null).isNull = (ws.getD k .null).isNull

theorem Fills.cons {schema : Schema} {w v : Value} (h : Fills seats ws vs)
    (hv : decode (.nullable schema) w = .ok v) (hnull : v.isNull = w.isNull) :
    Fills (schema :: seats) (w :: ws) (v :: vs) where
  length_le := Nat.succ_le_succ h.length_le
  decoded i := decodeSlots_cons hv (h.decoded (i + 1))
  isNull_eq k := by
    cases k with
    | zero => exact hnull
    | succ k => exact h.isNull_eq k

/-- An empty array leaves another slot null. -/
theorem Fills.nil {schema : Schema} (h : Fills seats [] vs) :
    Fills (schema :: seats) [] (.null :: vs) where
  length_le := Nat.zero_le _
  decoded i := decodeSlots_cons rfl (h.decoded (i + 1))
  isNull_eq k := by
    cases k with
    | zero => rfl
    | succ k => exact h.isNull_eq k

theorem Fills.trim (h : Fills seats ws vs) : Fills seats (dropTrailingNulls ws) vs where
  length_le := Nat.le_trans (length_dropTrailingNulls_le ws) h.length_le
  decoded i := by rw [decodeSlots_dropTrailingNulls, h.decoded]
  isNull_eq k := by rw [getD_dropTrailingNulls, h.isNull_eq]

theorem fills_of_encodeSlots (h : ∀ s ∈ seats, s.Decodes)
    (hws : encodeSlots seats i items = .ok ws) : ∃ vs, Fills seats ws vs := by
  induction seats generalizing i items ws with
  | nil =>
    cases hws
    exact ⟨[], Nat.le_refl _, fun _ => rfl, fun _ => rfl⟩
  | cons schema rest ih =>
    obtain ⟨hschema, hrest⟩ := List.forall_mem_cons.1 h
    cases items with
    | nil =>
      cases hws
      obtain ⟨vs, hvs⟩ := ih hrest (encodeSlots_nil rest i)
      exact ⟨.null :: vs, hvs.nil⟩
    | cons v items =>
      rw [encodeSlots, encode_slot] at hws
      obtain ⟨w, ws', hw, hws', rfl⟩ := Transformed.exists_of_both_eq_ok hws
      obtain ⟨v', hv', hnull⟩ := hschema.slot hw
      obtain ⟨vs, hvs⟩ := ih hrest hws'
      exact ⟨v' :: vs, hvs.cons hv' hnull⟩

theorem Fills.decode_slots (h : Fills seats ws vs) :
    decode (.slots seats) (.list ws) = .ok (.list vs) := by
  rw [decode, if_neg (Nat.not_lt.2 h.length_le), h.decoded]
  rfl

theorem decode_mapItems_of_encode {S : Schema} (h : S.Decodes)
    (hws : mapItems S.encode i items = .ok ws) :
    ∃ vs, ∀ j, mapItems S.decode j ws = .ok vs := by
  induction items generalizing i ws with
  | nil =>
    cases hws
    exact ⟨[], fun _ => rfl⟩
  | cons v rest ih =>
    rw [mapItems] at hws
    obtain ⟨w, ws', hw, hws', rfl⟩ := Transformed.exists_of_both_eq_ok hws
    obtain ⟨v', hv', -⟩ := h v w hw
    obtain ⟨vs, hvs⟩ := ih hws'
    refine ⟨v' :: vs, fun j => ?_⟩
    rw [mapItems, hv', Transformed.under_ok, Transformed.ok_bind, hvs]
    rfl

/-! ## Named slots -/

/-- Sets the names to the values that are not null. -/
def gather : List String → List Value → Fields → Fields
  | name :: names, v :: vs, object =>
    gather names vs (if v.isNull then object else object.insert name v)
  | _, _, object => object

/-- Named slots are decoded as slots, and then put under their names. -/
theorem decodeNamed_eq (named : List (String × Schema)) (i : Nat) (items : List Value)
    (object : Fields) : decodeNamed named i items object
      = (decodeSlots (named.map Prod.snd) i items).map fun vs =>
        gather (named.map Prod.fst) vs object := by
  induction named generalizing i items object with
  | nil => rfl
  | cons seat rest ih =>
    obtain ⟨name, schema⟩ := seat
    simp only [decodeNamed, List.map_cons, decodeSlots, decode_slot]
    cases decode (.nullable schema) (items.headD .null) with
    | error e => rfl
    | ok v =>
      simp only [Transformed.under_ok, Transformed.ok_bind, ih]
      cases decodeSlots (rest.map Prod.snd) (i + 1) items.tail <;> rfl

theorem Fills.decode_namedSlots (h : Fills (named.map Prod.snd) ws vs) :
    decode (.namedSlots named) (.list ws)
      = .ok (.object (gather (named.map Prod.fst) vs [])) := by
  have hle := h.length_le
  rw [List.length_map] at hle
  rw [decode, if_neg (Nat.not_lt.2 hle), decodeNamed_eq, h.decoded]
  rfl

/-- Named slots are encoded as the slots that stand under their names. -/
theorem encodeSlots_of_encodeNamed (h : encodeNamed named object = .ok ws) (i : Nat) :
    encodeSlots (named.map Prod.snd) i (named.map fun seat => (object.get? seat.1).getD .null)
      = .ok ws := by
  induction named generalizing i ws with
  | nil => exact h
  | cons seat rest ih =>
    obtain ⟨name, schema⟩ := seat
    rw [encodeNamed, encode_slot] at h
    obtain ⟨w, ws, hw, hws, rfl⟩ := Transformed.exists_of_both_eq_ok h
    exact encodeSlots_cons hw (ih hws (i + 1))

theorem holds_gather {names : List String} (h : object.Holds fun _ v => v ≠ .null) :
    (gather names vs object).Holds fun _ v => v ≠ .null := by
  induction names generalizing vs object with
  | nil => exact h
  | cons name names ih =>
    cases vs with
    | nil => exact h
    | cons v vs =>
      refine ih ?_
      split
      · exact h
      · rename_i hv
        exact h.insert (isNull_eq_false_iff.1 (Bool.eq_false_iff.2 hv))

theorem get?_gather_of_notMem {names : List String} {name : String} (h : name ∉ names) :
    (gather names vs object).get? name = object.get? name := by
  induction names generalizing vs object with
  | nil => rfl
  | cons n names ih =>
    obtain ⟨hne, hnames⟩ := List.ne_and_not_mem_of_not_mem_cons h
    cases vs with
    | nil => rfl
    | cons v vs =>
      rw [gather, ih hnames]
      split
      · rfl
      · rw [Fields.get?_insert, if_neg hne]

/-- Of different names, each has the value of its slot, unless that is null. -/
theorem isSome_get?_gather {names : List String} (hnames : names.Nodup) {k : Nat} {name : String}
    (hk : names[k]? = some name) (hfresh : object.get? name = none) :
    ((gather names vs object).get? name).isSome = !(vs.getD k .null).isNull := by
  induction names generalizing vs object k with
  | nil => nomatch hk
  | cons n names ih =>
    obtain ⟨hn, hnames⟩ := List.nodup_cons.1 hnames
    cases vs with
    | nil =>
      rw [gather, hfresh]
      · rfl
      · nofun
    | cons v vs =>
      rw [gather]
      cases k with
      | zero =>
        obtain rfl := Option.some.inj hk
        rw [get?_gather_of_notMem hn, List.getD_cons_zero]
        cases hv : v.isNull with
        | true =>
          rw [if_pos rfl, hfresh]
          rfl
        | false =>
          rw [if_neg Bool.false_ne_true, Fields.get?_insert, if_pos rfl]
          rfl
      | succ k =>
        have hne : name ≠ n := fun heq => hn (heq ▸ List.mem_of_getElem? hk)
        refine ih hnames hk ?_
        split
        · exact hfresh
        · rw [Fields.get?_insert, if_neg hne, hfresh]

end

/-! ## The induction -/

theorem Indexable.decodes {S : Schema} (hS : S.Indexable) : S.Decodes := by
  induction hS with
  | identity =>
    intro v w h
    cases h
    exact ⟨v, rfl, id⟩
  | @tuple fields _ ih =>
    intro v w h
    cases v with
    | object object =>
      obtain ⟨ws, hws, rfl⟩ := Transformed.map_eq_ok.1 h
      obtain ⟨hlength, hdecode⟩ := decodeTuple_of_encodeTuple ih hws
      obtain ⟨done, hdone⟩ := hdecode 0 []
      refine ⟨.object done, ?_, fun _ => rfl⟩
      rw [decode, if_neg (by omega), hdone]
      rfl
    | _ => cases h
  | literal hlength =>
    intro v w h
    obtain ⟨v', hv'⟩ := stable_literal hlength h
    exact ⟨v', hv'.decoded, hv'.isNull⟩
  | @lookup fields hlength _ ih =>
    intro v w h
    cases v with
    | object object =>
      obtain ⟨pairs, hpairs, rfl⟩ := Transformed.map_eq_ok.1 h
      obtain ⟨done, hdone⟩ := decodePairs_of_encodeLookup ih (by rwa [Nat.zero_add]) hpairs
        (fun i w => decodeEntry fields i w) (fun k w => by rw [Nat.zero_add])
        fields.length 0 []
      refine ⟨.object done, ?_, fun _ => rfl⟩
      rw [decode, hdone]
      rfl
    | _ => cases h
  | @slots seats _ ih =>
    intro v w h
    cases v with
    | list items =>
      rw [encode] at h
      split at h
      · cases h
      · obtain ⟨ws, hws, rfl⟩ := Transformed.map_eq_ok.1 h
        obtain ⟨vs, hvs⟩ := fills_of_encodeSlots ih hws
        exact ⟨.list vs, hvs.trim.decode_slots, fun _ => rfl⟩
    | _ => cases h
  | @namedSlots named _ ih =>
    intro v w h
    cases v with
    | object object =>
      obtain ⟨ws, hws, rfl⟩ := Transformed.map_eq_ok.1 h
      obtain ⟨vs, hvs⟩ := fills_of_encodeSlots (List.forall_mem_map.2 ih)
        (encodeSlots_of_encodeNamed hws 0)
      exact ⟨.object (gather (named.map Prod.fst) vs []), hvs.trim.decode_namedSlots, fun _ => rfl⟩
    | _ => cases h
  | each _ ih =>
    intro v w h
    cases v with
    | list items =>
      obtain ⟨ws, hws, rfl⟩ := Transformed.map_eq_ok.1 h
      obtain ⟨vs, hvs⟩ := decode_mapItems_of_encode ih hws
      refine ⟨.list vs, ?_, fun _ => rfl⟩
      rw [decode, hvs]
      rfl
    | _ => cases h
  | nullable _ ih =>
    intro v w h
    obtain ⟨v', hv', hnull⟩ := ih.slot h
    refine ⟨v', hv', fun hv => hnull.trans ?_⟩
    exact isNull_of_encode _ hv h

/-! ## The wire form of slots -/

/-- A schema of `width` slots, of different names if they have names. -/
inductive Slotted : Schema → Nat → Prop
  | slots (seats) : Slotted (.slots seats) seats.length
  | namedSlots (seats) (hnames : (seats.map Prod.fst).Nodup) :
    Slotted (.namedSlots seats) seats.length

/-- A list of an item for each slot, or an object without nulls. -/
def Spread : Schema → Value → Prop
  | .slots seats, .list items => items.length = seats.length
  | .namedSlots _, .object object => ∀ e ∈ object, e.2 ≠ .null
  | _, _ => False

section

variable {seats : List Schema} {named : List (String × Schema)} {items ws ws' vs us : List Value}
  {i : Nat}

/-- Slots decode to an item each, a null from where the array ends. -/
theorem getD_of_decodeSlots (h : decodeSlots seats i items = .ok vs) :
    vs.length = seats.length ∧ ∀ k, items.length ≤ k → (vs.getD k .null).isNull = true := by
  induction seats generalizing i items vs with
  | nil =>
    cases h
    exact ⟨rfl, fun _ _ => rfl⟩
  | cons schema rest ih =>
    rw [decodeSlots, decode_slot] at h
    obtain ⟨v, vs', hv, hvs, rfl⟩ := Transformed.exists_of_both_eq_ok h
    obtain ⟨hlength, hnull⟩ := ih hvs
    refine ⟨congrArg (· + 1) hlength, fun k hk => ?_⟩
    cases k with
    | zero =>
      obtain rfl := List.eq_nil_of_length_eq_zero (Nat.le_zero.1 hk)
      cases hv
      rfl
    | succ k =>
      refine hnull k ?_
      rw [List.length_tail]
      omega

/-- An array that is shorter than a trimmed one leaves a slot null that the trimmed one fills: the
    one of its last item. -/
theorem Fills.exists_filled (h : Fills seats (dropTrailingNulls ws) vs)
    (hshorter : ws'.length < (dropTrailingNulls ws).length)
    (hus : decodeSlots seats i ws' = .ok us) :
    ∃ k < seats.length, (us.getD k .null).isNull = true ∧ (vs.getD k .null).isNull = false := by
  have hle := h.length_le
  have hne : dropTrailingNulls ws ≠ [] := List.ne_nil_of_length_pos (by omega)
  have hlast := List.getLast?_eq_some_getLast hne
  refine ⟨(dropTrailingNulls ws).length - 1, by omega,
    (getD_of_decodeSlots hus).2 _ (by omega), ?_⟩
  rw [h.isNull_eq, List.getD_eq_getElem?_getD, ← List.getLast?_eq_getElem?, hlast]
  exact isNull_eq_false_iff.2 (ne_null_of_getLast?_dropTrailingNulls ws _ hlast)

/-- Lists that fill different slots are different. -/
theorem agreesList_eq_false {k : Nat} (hv : (vs.getD k .null).isNull = true)
    (hu : (us.getD k .null).isNull = false) : Value.agreesList vs us = false :=
  Bool.eq_false_iff.2 fun h =>
    Bool.false_ne_true (hu.symm.trans ((isNull_getD_of_agreesList h k).symm.trans hv))

/-- Objects that are gathered from lists that fill different slots are different. -/
theorem agreesFields_gather_eq_false {names : List String} (hnames : names.Nodup) {k : Nat}
    (hk : k < names.length) (hv : (vs.getD k .null).isNull = true)
    (hu : (us.getD k .null).isNull = false) :
    Value.agreesFields (gather names vs []) (gather names us []) = false := by
  refine Bool.eq_false_iff.2 fun h => ?_
  have hsame := (Fields.alike_of_forall₂ (Value.agreesFields_iff.1 h)).isSome_eq names[k]
  have hname := List.getElem?_eq_getElem hk
  rw [isSome_get?_gather hnames hname rfl, isSome_get?_gather hnames hname rfl, hv, hu] at hsame
  nomatch hsame

end

/-- **Slot arrays are trimmed.** Whatever value slots encode, in their domain or not, the wire form
    is an array of at most one item for each slot, and the last one is not null. It is decoded, to
    an item for each slot or to an object without nulls; and every shorter array is refused or
    decoded to another value. -/
theorem trimmed_of_encode {S : Schema} {width : Nat} (hS : S.Slotted width)
    (hindices : S.Indexable) {v w : Value} (h : S.encode v = .ok w) :
    ∃ ws u, w = .list ws ∧ ws.length ≤ width ∧ (∀ x ∈ ws.getLast?, x ≠ .null) ∧
      S.decode w = .ok u ∧ S.Spread u ∧
      ∀ ws' u', ws'.length < ws.length → S.decode (.list ws') = .ok u' → u'.agrees u = false := by
  cases hS with
  | slots seats =>
    cases hindices with | slots hparts
    cases v with
    | list items =>
      rw [encode] at h
      split at h
      · nomatch h
      obtain ⟨ws, hws, rfl⟩ := Transformed.map_eq_ok.1 h
      obtain ⟨vs, hvs⟩ := fills_of_encodeSlots (fun s hs => (hparts s hs).decodes) hws
      refine ⟨_, .list vs, rfl, hvs.trim.length_le, ne_null_of_getLast?_dropTrailingNulls ws,
        hvs.trim.decode_slots, (getD_of_decodeSlots (hvs.decoded 0)).1,
        fun ws' u' hshorter hu' => ?_⟩
      have hle := hvs.trim.length_le
      rw [decode, if_neg (by omega)] at hu'
      obtain ⟨us, hus, rfl⟩ := Transformed.map_eq_ok.1 hu'
      obtain ⟨k, -, hnull, hfilled⟩ := hvs.trim.exists_filled hshorter hus
      exact agreesList_eq_false hnull hfilled
    | _ => nomatch h
  | namedSlots named hnames =>
    cases hindices with | namedSlots hparts
    cases v with
    | object object =>
      obtain ⟨ws, hws, rfl⟩ := Transformed.map_eq_ok.1 h
      obtain ⟨vs, hvs⟩ := fills_of_encodeSlots
        (List.forall_mem_map.2 fun seat hseat => (hparts seat hseat).decodes)
        (encodeSlots_of_encodeNamed hws 0)
      have hle := hvs.trim.length_le
      rw [List.length_map] at hle
      refine ⟨_, .object (gather (named.map Prod.fst) vs []), rfl, hle,
        ne_null_of_getLast?_dropTrailingNulls ws, hvs.trim.decode_namedSlots,
        (holds_gather (Fields.holds_nil _)).forall_mem, fun ws' u' hshorter hu' => ?_⟩
      rw [decode, if_neg (by omega), decodeNamed_eq] at hu'
      obtain ⟨object', hobject', rfl⟩ := Transformed.map_eq_ok.1 hu'
      obtain ⟨us, hus, rfl⟩ := Transformed.map_eq_ok.1 hobject'
      obtain ⟨k, hk, hnull, hfilled⟩ := hvs.trim.exists_filled hshorter hus
      rw [List.length_map] at hk
      exact agreesFields_gather_eq_false hnames (by rwa [List.length_map]) hnull hfilled
    | _ => nomatch h

/-- A mark, a pair with a gap, and a note. -/
def entrySchema : Schema :=
  .namedSlots [("mark", .literal [.null, .text "vip"]),
    ("pair", .slots [.identity, .nullable .identity]), ("note", .identity)]

/-- Behind the pair nothing is left, and the null in front of it stays. -/
theorem trimmed_of_encode_entry :
    let v : Value := .object [("mark", .null), ("note", .null), ("pair", .list [.null, .bool true])]
    let w : Value := .list [.null, .list [.null, .bool true]]
    entrySchema.Slotted 3 ∧ entrySchema.Indexable ∧ entrySchema.encode v = .ok w ∧
      ∃ ws u, w = .list ws ∧ ws.length ≤ 3 ∧ (∀ x ∈ ws.getLast?, x ≠ .null) ∧
        entrySchema.decode w = .ok u ∧ entrySchema.Spread u ∧
        ∀ ws' u', ws'.length < ws.length → entrySchema.decode (.list ws') = .ok u' →
          u'.agrees u = false := by
  intro v w
  have hslotted : entrySchema.Slotted 3 := .namedSlots _ (by decide)
  have hindices : entrySchema.Indexable := by
    refine .namedSlots fun seat hseat => ?_
    simp only [List.mem_cons, List.not_mem_nil, or_false] at hseat
    obtain rfl | rfl | rfl := hseat
    · exact .literal (by decide)
    · refine .slots fun s hs => ?_
      simp only [List.mem_cons, List.not_mem_nil, or_false] at hs
      obtain rfl | rfl := hs
      · exact .identity
      · exact .nullable .identity
    · exact .identity
  have hencode : entrySchema.encode v = .ok w := by rfl
  exact ⟨hslotted, hindices, hencode, trimmed_of_encode hslotted hindices hencode⟩

end Schema

end FrameRpc
