import FrameRpc.Proofs.Parts

/-!
# Wire forms are stable

Whatever a proper schema makes of a value is decoded, and the result is encoded as the same again
(`Schema.stable_of_encode`). The value need not be in the domain: undeclared names, nulls of
optional fields and the slots that a short list does not have are lost on the way, but all of them
are lost the first time.

Null has to be followed along, as a slot or an optional field leaves it out: what is encoded and
decoded again is null only if it was null before (`Schema.Stable.isNull`).
-/

namespace FrameRpc

namespace Transformed

variable {α β γ : Type}

/-- Two results, the one of a part and the one of the rest, are put together. -/
theorem exists_of_both_eq_ok {s : Segment} {x : Transformed α} {y : Transformed β} {f : α → β → γ}
    {c : γ} (h : (do let a ← under s x; let b ← y; return f a b) = .ok c) :
    ∃ a b, x = .ok a ∧ y = .ok b ∧ f a b = c := by
  obtain ⟨a, ha, hrest⟩ := bind_eq_ok.1 h
  obtain ⟨b, hb, hc⟩ := bind_eq_ok.1 hrest
  exact ⟨a, b, under_eq_ok.1 ha, hb, Except.ok.inj hc⟩

end Transformed

namespace Fields

/-- Of the fields `done` before, at most those with these names are others now. Objects that have
    what there is now under these names, and nothing where there is nothing, have the property. -/
structure Refills (names : List String) (done done' : Fields) (P : Fields → Prop) : Prop where
  others : ∀ n, n ∉ names → done'.get? n = done.get? n
  again : (∀ n ∈ names, done.get? n = none) →
    ∀ object : Fields, (∀ n ∈ names, object.get? n = done'.get? n) → P object

namespace Refills

variable {name : String} {names : List String} {done done' : Fields} {v : Value}
  {P Q : Fields → Prop}

theorem nil (h : ∀ object, P object) : Refills [] done done P :=
  ⟨fun _ _ => rfl, fun _ object _ => h object⟩

theorem put (hname : name ∉ names)
    (hQ : ∀ object : Fields, object.get? name = some v → P object → Q object)
    (h : Refills names (done.insert name v) done' P) : Refills (name :: names) done done' Q where
  others n hn := by
    obtain ⟨hne, hn⟩ := List.ne_and_not_mem_of_not_mem_cons hn
    rw [h.others n hn, get?_insert, if_neg hne]
  again hfresh object hobject := by
    obtain ⟨hfirst, hrest⟩ := List.forall_mem_cons.1 hobject
    rw [h.others name hname, get?_insert, if_pos rfl] at hfirst
    refine hQ object hfirst (h.again (fun n hn => ?_) object hrest)
    have hne : n ≠ name := fun heq => hname (heq ▸ hn)
    rw [get?_insert, if_neg hne]
    exact hfresh n (List.mem_cons_of_mem _ hn)

theorem skip (hname : name ∉ names)
    (hQ : ∀ object : Fields, object.get? name = none → P object → Q object)
    (h : Refills names done done' P) : Refills (name :: names) done done' Q where
  others n hn := h.others n (List.ne_and_not_mem_of_not_mem_cons hn).2
  again hfresh object hobject := by
    obtain ⟨hfirst, hrest⟩ := List.forall_mem_cons.1 hobject
    obtain ⟨hnone, hfresh⟩ := List.forall_mem_cons.1 hfresh
    rw [h.others name hname, hnone] at hfirst
    exact hQ object hfirst (h.again hfresh object hrest)

/-- What was put together from nothing has the property. -/
theorem complete (h : Refills names [] done P) : P done :=
  h.again (fun n _ => get?_nil n) done fun _ _ => rfl

end Refills

end Fields

namespace Schema

/-- What `v` is encoded as, `w`, is decoded to `v'`, which is encoded as the same again; and only a
    null has come back as one. -/
structure Stable (S : Schema) (v w v' : Value) : Prop where
  decoded : S.decode w = .ok v'
  encoded : S.encode v' = .ok w
  isNull : v.isNull = false → v'.isNull = false

/-! ## Literals -/

/-- The literal that was found is the first one that equals itself, as those before it, did they
    equal it, would equal the value. -/
theorem stable_literal {values : List Value} (hlength : values.length ≤ indexRange) {v w : Value}
    (h : indexOf values v = .ok w) : ∃ v', Stable (.literal values) v w v' := by
  rw [indexOf] at h
  split at h
  · rename_i i hi
    cases h
    obtain ⟨hlt, hagrees, hfirst⟩ := List.findIdx?_eq_some_iff_getElem.1 hi
    have hagain : values.findIdx? (·.agrees values[i]) = some i :=
      List.findIdx?_eq_some_iff_getElem.2 ⟨hlt, Value.agrees_refl _, fun j hj heq =>
        hfirst j hj (Value.agrees_trans heq hagrees)⟩
    refine ⟨values[i], decode_literal hlt hlength, ?_, fun hv => ?_⟩
    · rw [encode, indexOf, hagain]
    · rw [Value.isNull_eq_of_agrees hagrees, hv]
  · cases h

/-! ## Lists -/

theorem stable_mapItems {f g : Value → Transformed Value}
    (h : ∀ x w, f x = .ok w → ∃ x', g w = .ok x' ∧ f x' = .ok w) {items ws : List Value} {i : Nat}
    (hws : mapItems f i items = .ok ws) :
    ∃ vs, (∀ j, mapItems g j ws = .ok vs) ∧ ∀ j, mapItems f j vs = .ok ws := by
  induction items generalizing i ws with
  | nil =>
    cases hws
    exact ⟨[], fun _ => rfl, fun _ => rfl⟩
  | cons x rest ih =>
    rw [mapItems] at hws
    obtain ⟨w, ws', hw, hrest, rfl⟩ := Transformed.exists_of_both_eq_ok hws
    obtain ⟨x', hg, hf⟩ := h x w hw
    obtain ⟨vs, hdecode, hencode⟩ := ih hrest
    refine ⟨x' :: vs, fun j => ?_, fun j => ?_⟩
    · rw [mapItems, hg, Transformed.under_ok, Transformed.ok_bind, hdecode]
      rfl
    · rw [mapItems, hf, Transformed.under_ok, Transformed.ok_bind, hencode]
      rfl

theorem encodeSlots_nil (seats : List Schema) (i : Nat) : encodeSlots seats i [] = .ok [] := by
  cases seats <;> rfl

theorem dropTrailingNulls_cons_congr {ws ws' : List Value} (w : Value)
    (h : dropTrailingNulls ws = dropTrailingNulls ws') :
    dropTrailingNulls (w :: ws) = dropTrailingNulls (w :: ws') := by
  rw [dropTrailingNulls, dropTrailingNulls, h]

/-! ## Nulls -/

theorem stable_nullable {inner : Schema} {v w : Value} (h : encode (.nullable inner) v = .ok w)
    (hinner : encode inner v = .ok w → ∃ v', Stable inner v w v') :
    ∃ v', Stable (.nullable inner) v w v' := by
  rw [encode] at h
  cases hv : v.isNull with
  | true =>
    rw [hv] at h
    cases h
    exact ⟨.null, rfl, rfl, fun h => nomatch hv.symm.trans h⟩
  | false =>
    rw [hv] at h
    obtain ⟨v', hdecoded, hencoded, hnull⟩ := hinner h
    refine ⟨v', ?_, ?_, hnull⟩
    · rw [decode, isNull_of_encode inner hv h]
      exact hdecoded
    · rw [encode, hnull hv]
      exact hencoded

/-! ## Fields -/

section

variable {name : String} {schema : Schema} {isOptional : Bool} {rest : List (Declared Schema)}
  {object : Fields} {v w : Value} {ws : List Value}

theorem isNull_of_present (h : present name isOptional object = some v) (ho : isOptional = true) :
    v.isNull = false := by
  rw [present, ho] at h
  split at h
  · cases h
  · rename_i hne
    cases hv : v.isNull with
    | false => rfl
    | true => exact absurd (isNull_eq_true_iff.1 hv ▸ h) hne

/-- A field that is encoded is present, or is optional and a null stands for it. -/
theorem encodeTuple_eq_ok
    (h : encodeTuple (⟨name, schema, isOptional⟩ :: rest) object = .ok ws) :
    ∃ w ws', ws = w :: ws' ∧ encodeTuple rest object = .ok ws' ∧
      ((isOptional = true ∧ w = .null) ∨
        ∃ v, present name isOptional object = some v ∧ encode schema v = .ok w) := by
  rw [encodeTuple] at h
  cases hv : present name isOptional object with
  | some v =>
    rw [hv] at h
    obtain ⟨w, ws', hw, hws, rfl⟩ := Transformed.exists_of_both_eq_ok h
    exact ⟨w, ws', rfl, hws, .inr ⟨v, rfl, hw⟩⟩
  | none =>
    rw [hv] at h
    cases isOptional with
    | false => cases h
    | true =>
      obtain ⟨w, ws', hw, hws, rfl⟩ :=
        Transformed.exists_of_both_eq_ok (s := .field name) (x := (.ok .null : Transformed Value))
          (y := encodeTuple rest object) (f := fun w ws => w :: ws) h
      exact ⟨w, ws', rfl, hws, .inl ⟨rfl, (Except.ok.inj hw).symm⟩⟩

theorem exists_of_getD_ne_null (h : (object.get? name).getD .null ≠ .null) :
    ∃ v, object.get? name = some v ∧ v ≠ .null := by
  cases hv : object.get? name with
  | none =>
    rw [hv] at h
    exact absurd rfl h
  | some v =>
    rw [hv] at h
    exact ⟨v, rfl, h⟩

theorem encodeLookup_eq_ok {i : Nat} (hget : object.get? name = some v) (hne : v ≠ .null)
    (h : encodeLookup (⟨name, schema, isOptional⟩ :: rest) i object = .ok ws) :
    ∃ w ws', encode schema v = .ok w ∧ encodeLookup rest (i + 1) object = .ok ws' ∧
      .list [.ofNat i, w] :: ws' = ws := by
  rw [encodeLookup, hget] at h
  cases v with
  | null => exact absurd rfl hne
  | _ => exact Transformed.exists_of_both_eq_ok h

end

/-! ## The induction -/

mutual

/-- What is encoded at all is decoded, and encoded as the same again. -/
theorem stable : (S : Schema) → S.Proper → {v w : Value} → S.encode v = .ok w →
    ∃ v', Stable S v w v'
  | .identity, _, v, _, h => by
    cases h
    exact ⟨v, rfl, rfl, id⟩
  | .tuple fields, hproper, v, _, h => by
    cases v with
    | object object =>
      obtain ⟨ws, hws, rfl⟩ := Transformed.map_eq_ok.1 h
      obtain ⟨hlength, hdecode⟩ := stableTuple fields hproper.1 hproper.2 hws
      obtain ⟨done, hdone, hrefills⟩ := hdecode 0 []
      refine ⟨.object done, ?_, ?_, fun _ => rfl⟩
      · rw [decode, if_neg (by omega), hdone]
        rfl
      · rw [encode, hrefills.complete]
        rfl
    | _ => nomatch h
  | .literal values, hproper, _, _, h => stable_literal hproper h
  | .lookup fields, hproper, v, _, h => by
    cases v with
    | object object =>
      obtain ⟨pairs, hpairs, rfl⟩ := Transformed.map_eq_ok.1 h
      obtain ⟨done, hdone, hrefills⟩ := stableLookup fields hproper.1 hproper.2.2
        (by rw [Nat.zero_add]; exact hproper.2.1) hpairs
        (fun i w => decodeEntry fields i w) (fun k w => by rw [Nat.zero_add]) fields.length 0 []
      refine ⟨.object done, ?_, ?_, fun _ => rfl⟩
      · rw [decode, hdone]
        rfl
      · rw [encode, hrefills.complete]
        rfl
    | _ => nomatch h
  | .slots seats, hproper, v, w, h => by
    cases v with
    | list items =>
      rw [encode] at h
      split at h
      · nomatch h
      · obtain ⟨ws, hws, rfl⟩ := Transformed.map_eq_ok.1 h
        obtain ⟨hlength, vs, hvs, hfull, ws', hws', htrailing⟩ := stableSlots seats hproper hws
        have hle := length_dropTrailingNulls_le ws
        refine ⟨.list vs, ?_, ?_, fun _ => rfl⟩
        · rw [decode, if_neg (by omega), decodeSlots_dropTrailingNulls, hvs]
          rfl
        · rw [encode, if_neg (by omega), hws', ← htrailing]
          rfl
    | _ => nomatch h
  | .namedSlots seats, hproper, v, _, h => by
    cases v with
    | object object =>
      obtain ⟨ws, hws, rfl⟩ := Transformed.map_eq_ok.1 h
      obtain ⟨hlength, hdecode⟩ := stableNamed seats hproper.1 hproper.2 hws
      obtain ⟨done, hdone, hrefills⟩ := hdecode 0 []
      have hle := length_dropTrailingNulls_le ws
      refine ⟨.object done, ?_, ?_, fun _ => rfl⟩
      · rw [decode, if_neg (by omega), decodeNamed_dropTrailingNulls, hdone]
        rfl
      · rw [encode, hrefills.complete]
        rfl
    | _ => nomatch h
  | .each item, hproper, v, _, h => by
    cases v with
    | list items =>
      obtain ⟨ws, hws, rfl⟩ := Transformed.map_eq_ok.1 h
      obtain ⟨vs, hvs, hws'⟩ := stable_mapItems (g := decode item) (fun x w hw =>
        (stable item hproper hw).imp fun _ hx => ⟨hx.decoded, hx.encoded⟩) hws
      refine ⟨.list vs, ?_, ?_, fun _ => rfl⟩
      · rw [decode, hvs]
        rfl
      · rw [encode, hws']
        rfl
    | _ => nomatch h
  | .nullable inner, hproper, _, _, h => stable_nullable h (stable inner hproper)

theorem stableTuple : (fields : List (Declared Schema)) → (fields.map Declared.name).Nodup →
    ProperFields fields → {object : Fields} → {ws : List Value} →
    encodeTuple fields object = .ok ws →
    ws.length = fields.length ∧ ∀ i done, ∃ done', decodeTuple fields i ws done = .ok done' ∧
      Fields.Refills (fields.map Declared.name) done done' fun o => encodeTuple fields o = .ok ws
  | [], _, _, _, _, h => by
    cases h
    exact ⟨rfl, fun _ done => ⟨done, rfl, .nil fun _ => rfl⟩⟩
  | ⟨name, schema, isOptional⟩ :: rest, hnodup, hproper, object, _, h => by
    obtain ⟨hname, hnames⟩ := List.nodup_cons.1 hnodup
    obtain ⟨w, ws, rfl, hws, ⟨rfl, rfl⟩ | ⟨v, hpresent, hw⟩⟩ := encodeTuple_eq_ok h
    · -- The field was absent or an optional null, and is absent from now on.
      obtain ⟨hlength, hdecode⟩ := stableTuple rest hnames hproper.2 hws
      refine ⟨congrArg (· + 1) hlength, fun i done => ?_⟩
      obtain ⟨done', hdone, hrefills⟩ := hdecode (i + 1) done
      exact ⟨done', hdone, hrefills.skip hname fun o ho => encodeTuple_skip ho⟩
    · -- Where a null would read as absence, none was encoded, and none comes back.
      obtain ⟨v', hdecoded, hencoded, hnull⟩ := stable schema hproper.1 hw
      have hne := isNull_of_present hpresent
      obtain ⟨hlength, hdecode⟩ := stableTuple rest hnames hproper.2 hws
      refine ⟨congrArg (· + 1) hlength, fun i done => ?_⟩
      obtain ⟨done', hdone, hrefills⟩ := hdecode (i + 1) (done.insert name v')
      refine ⟨done', ?_, hrefills.put hname fun o ho hrest => ?_⟩
      · rw [decodeTuple_put (fun ho => isNull_of_encode schema (hne ho) hw) hdecoded]
        exact hdone
      · exact encodeTuple_put
          (present_of_ne_null ho fun ho => isNull_eq_false_iff.1 (hnull (hne ho))) hencoded hrest

theorem stableLookup : (fields : List (Declared Schema)) → (fields.map Declared.name).Nodup →
    ProperFields fields → {i : Nat} → i + fields.length ≤ indexRange → {object : Fields} →
    {pairs : List Value} → encodeLookup fields i object = .ok pairs →
    ∀ entry, (∀ k w, entry (i + k) w = decodeEntry fields k w) →
      ∀ count pos done, ∃ done', decodePairs count entry pos pairs done = .ok done' ∧
        Fields.Refills (fields.map Declared.name) done done' fun o =>
          encodeLookup fields i o = .ok pairs
  | [], _, _, _, _, _, _, h => by
    cases h
    exact fun _ _ _ _ done => ⟨done, rfl, .nil fun _ => rfl⟩
  | ⟨name, schema, isOptional⟩ :: rest, hnodup, hproper, i, hrange, object, _, h => by
    obtain ⟨hname, hnames⟩ := List.nodup_cons.1 hnodup
    rw [List.length_cons] at hrange
    intro entry hentry count pos done
    by_cases hget : (object.get? name).getD .null = .null
    · -- Absent or null, the field has no pair.
      rw [encodeLookup_skip hget] at h
      obtain ⟨done', hdone, hrefills⟩ := stableLookup rest hnames hproper.2 (by omega) h entry
        (entry_shift hentry) count pos done
      exact ⟨done', hdone, hrefills.skip hname fun o ho hrest => by
        rw [encodeLookup_skip (by rw [ho]; rfl), hrest]⟩
    · obtain ⟨v, hv, hne⟩ := exists_of_getD_ne_null hget
      obtain ⟨w, pairs, hw, hpairs, rfl⟩ := encodeLookup_eq_ok hv hne h
      obtain ⟨v', hdecoded, hencoded, hnull⟩ := stable schema hproper.1 hw
      obtain ⟨done', hdone, hrefills⟩ := stableLookup rest hnames hproper.2 (by omega) hpairs entry
        (entry_shift hentry) count (pos + 1) (done.insert name v')
      refine ⟨done', ?_, hrefills.put hname fun o ho hrest => ?_⟩
      · rw [decodePairs_cons (signedInt?_ofNat (by omega)) (entry_head hentry hdecoded)]
        exact hdone
      · have hne' := isNull_eq_false_iff.1 (hnull (isNull_eq_false_iff.2 hne))
        exact encodeLookup_put ho hne' hencoded hrest

theorem stableSlots : (seats : List Schema) → ProperSlots seats → {items ws : List Value} →
    {i : Nat} → encodeSlots seats i items = .ok ws →
    ws.length ≤ seats.length ∧ ∃ vs, (∀ j, decodeSlots seats j ws = .ok vs) ∧
      vs.length = seats.length ∧ ∃ ws', (∀ j, encodeSlots seats j vs = .ok ws') ∧
        dropTrailingNulls ws' = dropTrailingNulls ws
  | [], _, _, _, _, h => by
    cases h
    exact ⟨Nat.le_refl _, [], fun _ => rfl, rfl, [], fun _ => rfl, rfl⟩
  | schema :: rest, hproper, [], _, i, h => by
    -- The list is too short, and a null comes back where it has no item.
    cases h
    obtain ⟨-, vs, hvs, hfull, ws', hws', htrailing⟩ :=
      stableSlots rest hproper.2 (encodeSlots_nil rest i)
    refine ⟨Nat.zero_le _, .null :: vs, fun j => decodeSlots_cons rfl (hvs (j + 1)),
      congrArg (· + 1) hfull, .null :: ws', fun j => encodeSlots_cons rfl (hws' (j + 1)), ?_⟩
    exact dropTrailingNulls_cons_congr .null htrailing
  | schema :: rest, hproper, v :: items, _, _, h => by
    rw [encodeSlots, encode_slot] at h
    obtain ⟨w, ws, hw, hws, rfl⟩ := Transformed.exists_of_both_eq_ok h
    obtain ⟨v', hdecoded, hencoded, -⟩ := stable_nullable hw (stable schema hproper.1)
    obtain ⟨hlength, vs, hvs, hfull, ws', hws', htrailing⟩ := stableSlots rest hproper.2 hws
    refine ⟨Nat.succ_le_succ hlength, v' :: vs, fun j => ?_, congrArg (· + 1) hfull, w :: ws',
      fun j => ?_, dropTrailingNulls_cons_congr w htrailing⟩
    · exact decodeSlots_cons hdecoded (hvs (j + 1))
    · exact encodeSlots_cons hencoded (hws' (j + 1))

theorem stableNamed : (seats : List (String × Schema)) → (seats.map Prod.fst).Nodup →
    ProperNamed seats → {object : Fields} → {ws : List Value} →
    encodeNamed seats object = .ok ws →
    ws.length = seats.length ∧ ∀ i done, ∃ done', decodeNamed seats i ws done = .ok done' ∧
      Fields.Refills (seats.map Prod.fst) done done' fun o => encodeNamed seats o = .ok ws
  | [], _, _, _, _, h => by
    cases h
    exact ⟨rfl, fun _ done => ⟨done, rfl, .nil fun _ => rfl⟩⟩
  | (name, schema) :: rest, hnodup, hproper, object, _, h => by
    obtain ⟨hname, hnames⟩ := List.nodup_cons.1 hnodup
    rw [encodeNamed, encode_slot] at h
    obtain ⟨w, ws, hw, hws, rfl⟩ := Transformed.exists_of_both_eq_ok h
    obtain ⟨v', hdecoded, hencoded, -⟩ := stable_nullable hw (stable schema hproper.1)
    obtain ⟨hlength, hdecode⟩ := stableNamed rest hnames hproper.2 hws
    refine ⟨congrArg (· + 1) hlength, fun i done => ?_⟩
    obtain ⟨done', hdone, hrefills⟩ :=
      hdecode (i + 1) (if v'.isNull then done else done.insert name v')
    refine ⟨done', ?_, ?_⟩
    · rw [decodeNamed_cons hdecoded]
      exact hdone
    · cases hnull : v'.isNull with
      | true =>
        obtain rfl := isNull_eq_true_iff.1 hnull
        exact hrefills.skip hname fun o ho => encodeNamed_cons (by rw [ho]; exact hencoded)
      | false =>
        rw [hnull] at hrefills
        exact hrefills.put hname fun o ho => encodeNamed_cons (by rw [ho]; exact hencoded)

end

/-- **Wire forms are stable.** Whatever value a proper schema encodes, in its domain or not, the
    wire form is decoded, and what it is decoded to is encoded as the same wire form. Unless the
    value is null, neither of them is. -/
theorem stable_of_encode {S : Schema} (hS : S.Proper) {v w : Value} (h : S.encode v = .ok w) :
    ∃ v', S.decode w = .ok v' ∧ S.encode v' = .ok w ∧
      (v ≠ .null → w ≠ .null ∧ v' ≠ .null) := by
  obtain ⟨v', hdecoded, hencoded, hnull⟩ := stable S hS h
  refine ⟨v', hdecoded, hencoded, fun hv => ?_⟩
  have hv := isNull_eq_false_iff.2 hv
  exact ⟨isNull_eq_false_iff.1 (isNull_of_encode S hv h), isNull_eq_false_iff.1 (hnull hv)⟩

/-- A room with one seat in place of two, a name too many, and a mark that is null. -/
def untidyRoom : Value :=
  .list [.object [("id", .text "ana"), ("marks", .object [("new", .null), ("vet", .bool true)]),
    ("role", .text "dps"), ("seat", .text "left")]]

/-- The wire form of the room. -/
def roomWire : Value :=
  .list [.list [.text "ana", .list [.list [.ofNat 0, .bool true]], .ofNat 2]]

/-- The room as it comes back. -/
def tidyRoom : Value :=
  .list [.object [("id", .text "ana"), ("marks", .object [("vet", .bool true)]),
    ("role", .text "dps")], .null]

theorem stable_of_encode_untidyRoom : roomSchema.encode untidyRoom = .ok roomWire ∧
    roomSchema.decode roomWire = .ok tidyRoom ∧
    ∃ v', roomSchema.decode roomWire = .ok v' ∧ roomSchema.encode v' = .ok roomWire ∧
      (untidyRoom ≠ .null → roomWire ≠ .null ∧ v' ≠ .null) := by
  have hencode : roomSchema.encode untidyRoom = .ok roomWire := rfl
  exact ⟨hencode, rfl, stable_of_encode proper_roomSchema hencode⟩

end Schema

end FrameRpc
