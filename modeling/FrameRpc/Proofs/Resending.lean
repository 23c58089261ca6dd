import FrameRpc.Proofs.Clearing
import Mathlib.Data.List.Nodup

/-!
# Received values, sent on

Whatever a peer sends, what is decoded from it is in the domain but for nulls that stand for absence
(`Schema.tidy_of_received`). So it is encoded again, and what the next one decodes is the value
without these nulls (`Schema.encode_of_decode`). The value comes back if there are none: the domain
is closed under equality (`Schema.WellFormed.of_agrees`), and no null is in it that would be lost.

Named slots drop such nulls when they are decoded. A lookup keeps one that was sent in a pair, and
an optional field of a tuple one that is a literal (`Schema.null_lost`).
-/

namespace FrameRpc

namespace Schema

/-! ## What was decoded -/

/-- The value is decoded from a canonical one. -/
def Received (S : Schema) (v : Value) : Prop := ∃ w, w.Canonical ∧ S.decode w = .ok v

section

variable {P : String → Value → Prop} {fields : List (Declared Schema)}
  {named : List (String × Schema)} {seats : List Schema} {items vs : List Value}
  {done object : Fields} {i : Nat}

/-- The values of a decoded tuple are those that its fields decode. -/
theorem holds_of_decodeTuple (h : decodeTuple fields i items done = .ok object)
    (hitems : Value.CanonicalList items)
    (hP : ∀ d ∈ fields, ∀ v, d.schema.Received v → P d.name v) (hdone : done.Holds P) :
    object.Holds P := by
  induction fields generalizing i items done with
  | nil =>
    cases h
    exact hdone
  | cons d rest ih =>
    obtain ⟨name, schema, isOptional⟩ := d
    obtain ⟨hd, hrest⟩ := List.forall_mem_cons.1 hP
    cases items with
    | nil =>
      rw [decodeTuple] at h
      split at h
      · exact ih h trivial hrest hdone
      · cases h
    | cons w items =>
      rw [decodeTuple] at h
      split at h
      · exact ih h hitems.2 hrest hdone
      · obtain ⟨v, hv, h⟩ := Transformed.bind_eq_ok.1 h
        have hreceived : schema.Received v := ⟨w, hitems.1, Transformed.under_eq_ok.1 hv⟩
        exact ih h hitems.2 hrest (hdone.insert (hd v hreceived))

/-- A decoded tuple has its required fields. -/
theorem isSome_of_decodeTuple (h : decodeTuple fields i items done = .ok object) :
    (∀ name, (done.get? name).isSome → (object.get? name).isSome) ∧
      ∀ d ∈ fields, d.isOptional = false → (object.get? d.name).isSome := by
  induction fields generalizing i items done with
  | nil =>
    cases h
    exact ⟨fun _ => id, fun _ h => (nomatch h)⟩
  | cons d rest ih =>
    obtain ⟨name, schema, isOptional⟩ := d
    have hskip {i : Nat} {items : List Value} (ho : isOptional = true)
        (h : decodeTuple rest i items done = .ok object) :
        (∀ name, (done.get? name).isSome → (object.get? name).isSome) ∧
          ∀ d ∈ (⟨name, schema, isOptional⟩ :: rest : List (Declared Schema)),
            d.isOptional = false → (object.get? d.name).isSome := by
      obtain ⟨hkeeps, hrest⟩ := ih h
      refine ⟨hkeeps, List.forall_mem_cons.2 ⟨fun hrequired => ?_, hrest⟩⟩
      cases ho.symm.trans hrequired
    cases items with
    | nil =>
      rw [decodeTuple] at h
      split at h
      · rename_i ho
        exact hskip ho h
      · cases h
    | cons w items =>
      rw [decodeTuple] at h
      split at h
      · rename_i ho
        exact hskip (Bool.and_eq_true_iff.1 ho).2 h
      · obtain ⟨v, -, h⟩ := Transformed.bind_eq_ok.1 h
        obtain ⟨hkeeps, hrest⟩ := ih h
        refine ⟨fun k hk => hkeeps k ?_, List.forall_mem_cons.2 ⟨fun _ => hkeeps name ?_, hrest⟩⟩
        · rw [Fields.get?_insert]
          split
          · rfl
          · exact hk
        · rw [Fields.get?_insert, if_pos rfl]
          rfl

/-- The values of a decoded lookup are those that its fields decode. -/
theorem holds_of_decodePairs {count : Nat}
    (h : decodePairs count (fun i w => decodeEntry fields i w) i items done = .ok object)
    (hitems : Value.CanonicalList items)
    (hP : ∀ d ∈ fields, ∀ v, d.schema.Received v → P d.name v) (hdone : done.Holds P) :
    object.Holds P := by
  induction items generalizing i done with
  | nil =>
    cases h
    exact hdone
  | cons pair rest ih =>
    rw [decodePairs_cons_eq] at h
    obtain ⟨⟨name, v⟩, hpair, hrest⟩ := Transformed.bind_eq_ok.1 h
    obtain ⟨index, w, n, rfl, -, hentry⟩ := decodePair_eq_ok (Transformed.under_eq_ok.1 hpair)
    rw [decodeEntry_eq] at hentry
    obtain ⟨d, hd, heq⟩ := Option.map_eq_some_iff.1 hentry
    obtain ⟨rfl, hv⟩ := Prod.mk.inj heq
    have hreceived : d.schema.Received v := ⟨w, hitems.1.2.1, hv⟩
    exact ih hrest hitems.2 (hdone.insert (hP d (List.mem_of_getElem? hd) v hreceived))

/-- What a slot is decoded to is null or received. -/
theorem received_of_decode_nullable {S : Schema} {w v : Value} (hw : w.Canonical)
    (h : decode (.nullable S) w = .ok v) : v = .null ∨ S.Received v := by
  rw [decode] at h
  split at h
  · cases h
    exact .inl rfl
  · exact .inr ⟨w, hw, h⟩

theorem canonical_headD (hitems : Value.CanonicalList items) : (items.headD .null).Canonical := by
  cases items with
  | nil => trivial
  | cons w items => exact hitems.1

theorem canonicalList_tail (hitems : Value.CanonicalList items) :
    Value.CanonicalList items.tail := by
  cases items with
  | nil => trivial
  | cons w items => exact hitems.2

/-- The values of decoded named slots are those that the slots decode, and not null. -/
theorem holds_of_decodeNamed (h : decodeNamed named i items done = .ok object)
    (hitems : Value.CanonicalList items)
    (hP : ∀ seat ∈ named, ∀ v, seat.2.Received v → P seat.1 v) (hdone : done.Holds P) :
    object.Holds P := by
  induction named generalizing i items done with
  | nil =>
    cases h
    exact hdone
  | cons seat rest ih =>
    obtain ⟨name, schema⟩ := seat
    obtain ⟨hseat, hrest⟩ := List.forall_mem_cons.1 hP
    rw [decodeNamed, decode_slot] at h
    obtain ⟨v, hv, h⟩ := Transformed.bind_eq_ok.1 h
    refine ih h (canonicalList_tail hitems) hrest ?_
    rcases received_of_decode_nullable (canonical_headD hitems) (Transformed.under_eq_ok.1 hv) with
      rfl | hreceived
    · exact hdone
    · split
      · exact hdone
      · exact hdone.insert (hseat v hreceived)

/-- Decoded slots have an item for each slot, null or received. -/
theorem received_of_decodeSlots (h : decodeSlots seats i items = .ok vs)
    (hitems : Value.CanonicalList items) :
    List.Forall₂ (fun s v => v = .null ∨ s.Received v) seats vs := by
  induction seats generalizing i items vs with
  | nil =>
    cases h
    exact .nil
  | cons schema rest ih =>
    rw [decodeSlots, decode_slot] at h
    obtain ⟨v, hv, h⟩ := Transformed.bind_eq_ok.1 h
    obtain ⟨us, hus, heq⟩ := Transformed.bind_eq_ok.1 h
    obtain rfl := Except.ok.inj heq
    exact .cons
      (received_of_decode_nullable (canonical_headD hitems) (Transformed.under_eq_ok.1 hv))
      (ih hus (canonicalList_tail hitems))

theorem received_of_mapItems {S : Schema} (h : mapItems S.decode i items = .ok vs)
    (hitems : Value.CanonicalList items) : ∀ v ∈ vs, S.Received v := by
  induction items generalizing i vs with
  | nil =>
    cases h
    exact fun _ h => (nomatch h)
  | cons w rest ih =>
    obtain ⟨v, hv, h⟩ := Transformed.bind_eq_ok.1 h
    obtain ⟨us, hus, heq⟩ := Transformed.bind_eq_ok.1 h
    obtain rfl := Except.ok.inj heq
    have hreceived : S.Received v := ⟨w, hitems.1, Transformed.under_eq_ok.1 hv⟩
    exact List.forall_mem_cons.2 ⟨hreceived, ih hus hitems.2⟩

end

/-! ## What was decoded is in the domain, once cleared -/

/-- Without the nulls that stand for absence, the value is in the domain. -/
structure Tidy (S : Schema) (v : Value) : Prop where
  canonical : v.Canonical
  cleared : (S.cleared v).Canonical
  wellFormed : S.WellFormed (S.cleared v)

section

variable {fields : List (Declared Schema)} {seats : List Schema}
  {named : List (String × Schema)} {v : Value} {object : Fields}

/-- The value is tidy for a part with this name. -/
def TidyUnder {α : Type} (parts : List α) (name : α → String) (schema : α → Schema) (n : String)
    (v : Value) : Prop :=
  ∃ p ∈ parts, name p = n ∧ (schema p).Tidy v

/-- What holds of a part with the name of a part holds of this part. -/
theorem of_name_eq {α : Type} {parts : List α} {name : α → String}
    (hnames : (parts.map name).Nodup) {P : α → Prop} {a : α} (ha : a ∈ parts)
    (h : ∃ b ∈ parts, name b = name a ∧ P b) : P a := by
  obtain ⟨b, hb, heq, hP⟩ := h
  exact List.inj_on_of_nodup_map hnames hb ha heq ▸ hP

/-- An object of tidy values, with its fields cleared: what is under a name was present before. -/
theorem tidy_parts {α : Type} {parts : List α} {name : α → String} {drops : α → Bool}
    {schema : α → Schema} (hnames : (parts.map name).Nodup)
    (hobject : object.Holds (TidyUnder parts name schema))
    {cs : List Clearing} (hcs : cs = parts.map fun p => ⟨name p, drops p, (schema p).cleared⟩) :
    (Value.object object).Canonical ∧ (Value.object (Fields.clear cs object [])).Canonical ∧
      (Fields.clear cs object []).Within (parts.map name) ∧
      ∀ p ∈ parts, ∀ v, (Fields.clear cs object []).get? (name p) = some v →
        (drops p = true → v ≠ .null) ∧ (schema p).WellFormed v := by
  have htidy {p : α} (hp : p ∈ parts) {v : Value}
      (hv : present (name p) (drops p) object = some v) : (schema p).Tidy v :=
    of_name_eq hnames hp (hobject.values _ v (get?_of_present hv))
  have hnames' : cs.map Clearing.name = parts.map name := by
    rw [hcs, List.map_map]
    rfl
  refine ⟨hobject.canonical fun _ _ ⟨_, _, _, htidy⟩ => htidy.canonical,
    Fields.canonical_clear fun c hc v hv => ?_, hnames' ▸ Fields.within_clear, fun p hp v hv => ?_⟩
  · rw [hcs] at hc
    obtain ⟨p, hp, rfl⟩ := List.mem_map.1 hc
    exact (htidy hp hv).cleared
  · have hmem : ⟨name p, drops p, (schema p).cleared⟩ ∈ cs := hcs ▸ List.mem_map_of_mem hp
    rw [Fields.get?_clear (hnames'.symm ▸ hnames) hmem (Fields.get?_nil _)] at hv
    obtain ⟨x, hx, rfl⟩ := Option.map_eq_some_iff.1 hv
    refine ⟨fun hdrops => ?_, (htidy hp hx).wellFormed⟩
    rw [← isNull_eq_false_iff, isNull_cleared]
    exact isNull_of_present hx hdrops

theorem tidy_tuple (hnames : (fields.map Declared.name).Nodup)
    (ih : ∀ d ∈ fields, ∀ v, d.schema.Received v → d.schema.Tidy v)
    (h : (tuple fields).Received v) : (tuple fields).Tidy v := by
  obtain ⟨w, hw, hv⟩ := h
  cases w with
  | list items =>
    rw [decode] at hv
    split at hv
    · cases hv
    · obtain ⟨object, hobject, rfl⟩ := Transformed.map_eq_ok.1 hv
      have hholds : Fields.Holds (TidyUnder fields Declared.name Declared.schema) object :=
        holds_of_decodeTuple hobject hw (fun d hd v hv => ⟨d, hd, rfl, ih d hd v hv⟩)
          (Fields.holds_nil _)
      obtain ⟨hcanonical, hcleared, hwithin, hvalues⟩ :=
        tidy_parts hnames hholds (clearings_eq false fields)
      refine ⟨hcanonical, hcleared, _, rfl, hwithin,
        wellFormedTuple_iff.2 fun d hd => ⟨fun hnone => ?_, fun v hv => ?_⟩⟩
      · -- What is required was decoded, and is still present.
        have hnames' := (map_name_clearings false fields).symm ▸ hnames
        rw [Fields.get?_clear hnames' (mem_clearings_tuple hd) (Fields.get?_nil _),
          Option.map_eq_none_iff] at hnone
        cases ho : d.isOptional with
        | true => rfl
        | false =>
          have hsome := (isSome_of_decodeTuple hobject).2 d hd ho
          rw [ho] at hnone
          rw [get?_of_missing hnone] at hsome
          cases hsome
      · obtain ⟨hne, hwellFormed⟩ := hvalues d hd v hv
        exact ⟨fun ho => hne (by rw [ho]; rfl), hwellFormed⟩
  | _ => cases hv

theorem tidy_lookup (hnames : (fields.map Declared.name).Nodup)
    (ih : ∀ d ∈ fields, ∀ v, d.schema.Received v → d.schema.Tidy v)
    (h : (lookup fields).Received v) : (lookup fields).Tidy v := by
  obtain ⟨w, hw, hv⟩ := h
  cases w with
  | list items =>
    obtain ⟨object, hobject, rfl⟩ := Transformed.map_eq_ok.1 hv
    have hholds : Fields.Holds (TidyUnder fields Declared.name Declared.schema) object :=
      holds_of_decodePairs hobject hw (fun d hd v hv => ⟨d, hd, rfl, ih d hd v hv⟩)
        (Fields.holds_nil _)
    obtain ⟨hcanonical, hcleared, hwithin, hvalues⟩ :=
      tidy_parts hnames hholds (clearings_eq true fields)
    refine ⟨hcanonical, hcleared, _, rfl, hwithin, wellFormedLookup_iff.2 fun d hd v hv => ?_⟩
    obtain ⟨hne, hwellFormed⟩ := hvalues d hd v hv
    exact ⟨hne (Bool.or_true _), hwellFormed⟩
  | _ => cases hv

theorem tidy_namedSlots (hnames : (named.map Prod.fst).Nodup)
    (ih : ∀ seat ∈ named, ∀ v, seat.2.Received v → seat.2.Tidy v)
    (h : (namedSlots named).Received v) : (namedSlots named).Tidy v := by
  obtain ⟨w, hw, hv⟩ := h
  cases w with
  | list items =>
    rw [decode] at hv
    split at hv
    · cases hv
    · obtain ⟨object, hobject, rfl⟩ := Transformed.map_eq_ok.1 hv
      have hholds : Fields.Holds (TidyUnder named Prod.fst Prod.snd) object :=
        holds_of_decodeNamed hobject hw
          (fun seat hseat v hv => ⟨seat, hseat, rfl, ih seat hseat v hv⟩) (Fields.holds_nil _)
      obtain ⟨hcanonical, hcleared, hwithin, hvalues⟩ :=
        tidy_parts hnames hholds (clearingsNamed_eq named)
      refine ⟨hcanonical, hcleared, _, rfl, hwithin,
        wellFormedNamed_iff.2 fun seat hseat v hv => ?_⟩
      obtain ⟨hne, hwellFormed⟩ := hvalues seat hseat v hv
      exact ⟨hne rfl, hwellFormed⟩
  | _ => cases hv

theorem tidy_clearedSlots {vs : List Value}
    (h : List.Forall₂ (fun (s : Schema) v => v = .null ∨ s.Received v) seats vs)
    (ih : ∀ s ∈ seats, ∀ v, s.Received v → s.Tidy v) :
    Value.CanonicalList vs ∧ Value.CanonicalList (clearedSlots seats vs) ∧
      WellFormedSlots seats (clearedSlots seats vs) := by
  induction h with
  | nil => exact ⟨trivial, trivial, rfl⟩
  | @cons schema v seats vs hv _ hrest =>
    obtain ⟨hschema, ih⟩ := List.forall_mem_cons.1 ih
    obtain ⟨hcanonical, hcleared, hwellFormed⟩ := hrest ih
    rw [clearedSlots]
    cases hnull : v.isNull with
    | true =>
      obtain rfl := isNull_eq_true_iff.1 hnull
      exact ⟨⟨trivial, hcanonical⟩, ⟨trivial, hcleared⟩, _, _, rfl, .inl rfl, hwellFormed⟩
    | false =>
      have htidy := hschema v (hv.resolve_left (isNull_eq_false_iff.1 hnull))
      exact ⟨⟨htidy.canonical, hcanonical⟩, ⟨htidy.cleared, hcleared⟩, _, _, rfl,
        .inr htidy.wellFormed, hwellFormed⟩

theorem tidy_slots (ih : ∀ s ∈ seats, ∀ v, s.Received v → s.Tidy v)
    (h : (slots seats).Received v) : (slots seats).Tidy v := by
  obtain ⟨w, hw, hv⟩ := h
  cases w with
  | list items =>
    rw [decode] at hv
    split at hv
    · cases hv
    · obtain ⟨vs, hvs, rfl⟩ := Transformed.map_eq_ok.1 hv
      obtain ⟨hcanonical, hcleared, hwellFormed⟩ :=
        tidy_clearedSlots (received_of_decodeSlots hvs hw) ih
      exact ⟨hcanonical, hcleared, _, rfl, hwellFormed⟩
  | _ => cases hv

/-- A literal that was decoded is one of those declared. -/
theorem mem_of_decode_literal {values : List Value} {w : Value}
    (h : decode (.literal values) w = .ok v) : v ∈ values := by
  rw [decode, entryOf] at h
  split at h
  · rw [entryAt] at h
    split at h
    · rename_i hentry
      cases h
      split at hentry
      · exact List.mem_of_getElem? hentry
      · cases hentry
    · cases h
  · cases h

end

/-- **Every decoded value is in the domain** but for nulls that stand for absence. -/
theorem tidy_of_received {S : Schema} (hS : S.Proper) (hliterals : ∀ l ∈ S.literals, l.Canonical)
    {v : Value} (h : S.Received v) : S.Tidy v := by
  induction S using Schema.induction generalizing v with
  | identity =>
    obtain ⟨w, hw, hv⟩ := h
    cases hv
    exact ⟨hw, hw, trivial⟩
  | tuple fields ih =>
    have hproper := properFields_iff.1 hS.2
    exact tidy_tuple hS.1 (fun d hd v hv => ih d hd (hproper d hd)
      (fun l hl => hliterals l (mem_literalsOfFields hd hl)) hv) h
  | literal values =>
    obtain ⟨w, -, hv⟩ := h
    have hmem := mem_of_decode_literal hv
    exact ⟨hliterals v hmem, hliterals v hmem, v, hmem, Value.agrees_refl v⟩
  | lookup fields ih =>
    have hproper := properFields_iff.1 hS.2.2
    exact tidy_lookup hS.1 (fun d hd v hv => ih d hd (hproper d hd)
      (fun l hl => hliterals l (mem_literalsOfFields hd hl)) hv) h
  | slots seats ih =>
    have hproper := properSlots_iff.1 hS
    exact tidy_slots (fun s hs v hv => ih s hs (hproper s hs)
      (fun l hl => hliterals l (mem_literalsOfSlots hs hl)) hv) h
  | namedSlots seats ih =>
    have hproper := properNamed_iff.1 hS.2
    exact tidy_namedSlots hS.1 (fun seat hseat v hv => ih seat hseat (hproper seat hseat)
      (fun l hl => hliterals l (mem_literalsOfNamed hseat hl)) hv) h
  | each item ih =>
    obtain ⟨w, hw, hv⟩ := h
    cases w with
    | list items =>
      obtain ⟨vs, hvs, rfl⟩ := Transformed.map_eq_ok.1 hv
      have htidy (v : Value) (hv : v ∈ vs) : item.Tidy v :=
        ih hS hliterals (received_of_mapItems hvs hw v hv)
      exact ⟨Value.canonicalList_iff.2 fun v hv => (htidy v hv).canonical,
        Value.canonicalList_iff.2 (List.forall_mem_map.2 fun v hv => (htidy v hv).cleared),
        _, rfl, List.forall_mem_map.2 fun v hv => (htidy v hv).wellFormed⟩
    | _ => cases hv
  | nullable inner ih =>
    obtain ⟨w, hw, hv⟩ := h
    rcases received_of_decode_nullable hw hv with rfl | hreceived
    · exact ⟨trivial, trivial, .inl rfl⟩
    · have htidy := ih hS hliterals hreceived
      cases hnull : v.isNull with
      | true =>
        obtain rfl := isNull_eq_true_iff.1 hnull
        exact ⟨trivial, trivial, .inl rfl⟩
      | false =>
        have hcleared : cleared (.nullable inner) v = inner.cleared v := by
          rw [cleared, hnull, if_neg Bool.false_ne_true]
        exact ⟨htidy.canonical, hcleared ▸ htidy.cleared, .inr (hcleared ▸ htidy.wellFormed)⟩

/-! ## The domain is closed under equality -/

section

variable {object others : Fields} {v w : Value}

theorem exists_of_agrees_object (h : (Value.object object).agrees w = true) :
    ∃ others, w = .object others ∧
      List.Forall₂ (Fields.Related fun v w => v.agrees w = true) object others := by
  cases w with
  | object others => exact ⟨others, rfl, Value.agreesFields_iff.1 h⟩
  | _ => cases h

theorem exists_of_agrees_list {items : List Value} (h : (Value.list items).agrees w = true) :
    ∃ others, w = .list others ∧ List.Forall₂ (fun v w => v.agrees w = true) items others := by
  cases w with
  | list others => exact ⟨others, rfl, Value.agreesList_iff.1 h⟩
  | _ => cases h

/-- Under each name the one object has a value that equals the one of the other. -/
theorem exists_of_related {name : String}
    (h : List.Forall₂ (Fields.Related fun v w => v.agrees w = true) object others)
    (hw : others.get? name = some w) :
    ∃ v, object.get? name = some v ∧ v.agrees w = true := by
  have hvalues := Fields.alike_of_forall₂ h name
  rw [hw] at hvalues
  revert hvalues
  cases object.get? name with
  | none => exact fun h => nomatch h
  | some v =>
    rintro ⟨h⟩
    exact ⟨v, rfl, h⟩

theorem null_or_of_agrees {P : Value → Prop} (h : v.agrees w = true) (hv : v = .null ∨ P v)
    (hP : P v → P w) : w = .null ∨ P w := by
  refine hv.imp (fun hnull => ?_) hP
  rw [← isNull_eq_true_iff, ← Value.isNull_eq_of_agrees h]
  exact isNull_eq_true_iff.2 hnull

theorem WellFormedSlots.of_agrees {seats : List Schema} {items others : List Value}
    (hitems : WellFormedSlots seats items)
    (hrelated : List.Forall₂ (fun v w => v.agrees w = true) items others)
    (ih : ∀ s ∈ seats, ∀ v w, s.WellFormed v → v.agrees w = true → s.WellFormed w) :
    WellFormedSlots seats others := by
  induction seats generalizing items others with
  | nil =>
    obtain rfl : items = [] := hitems
    cases hrelated
    rfl
  | cons schema rest ihrest =>
    obtain ⟨hschema, ih⟩ := List.forall_mem_cons.1 ih
    obtain ⟨v, items, rfl, hv, hitems⟩ := hitems
    cases hrelated with
    | @cons _ w _ others hagrees hrelated =>
      have hw := null_or_of_agrees hagrees hv fun h => hschema v w h hagrees
      exact ⟨w, others, rfl, hw, ihrest hitems hrelated ih⟩

theorem ne_null_of_agrees (h : v.agrees w = true) (hv : v ≠ .null) : w ≠ .null := by
  rw [← isNull_eq_false_iff, ← Value.isNull_eq_of_agrees h]
  exact isNull_eq_false_iff.2 hv

end

theorem WellFormed.of_agrees {S : Schema} {v w : Value} (hv : S.WellFormed v)
    (h : v.agrees w = true) : S.WellFormed w := by
  induction S using Schema.induction generalizing v w with
  | identity => trivial
  | tuple fields ih =>
    obtain ⟨object, rfl, hwithin, hfields⟩ := hv
    obtain ⟨others, rfl, hrelated⟩ := exists_of_agrees_object h
    rw [wellFormedTuple_iff] at hfields
    refine ⟨others, rfl, ?_, wellFormedTuple_iff.2 fun d hd => ⟨fun hnone => ?_, fun w hw => ?_⟩⟩
    · rw [Fields.Within, Fields.map_fst_eq_of_forall₂ hrelated]
      exact hwithin
    · have hsome := (Fields.alike_of_forall₂ hrelated).isSome_eq d.name
      rw [hnone, Option.isSome_none, Option.isSome_eq_false_iff, Option.isNone_iff_eq_none] at hsome
      exact (hfields d hd).1 hsome
    · obtain ⟨v, hv, hagrees⟩ := exists_of_related hrelated hw
      obtain ⟨hne, hwellFormed⟩ := (hfields d hd).2 v hv
      exact ⟨fun ho => ne_null_of_agrees hagrees (hne ho), ih d hd hwellFormed hagrees⟩
  | literal values =>
    obtain ⟨l, hl, hagrees⟩ := hv
    exact ⟨l, hl, Value.agrees_trans hagrees h⟩
  | lookup fields ih =>
    obtain ⟨object, rfl, hwithin, hfields⟩ := hv
    obtain ⟨others, rfl, hrelated⟩ := exists_of_agrees_object h
    rw [wellFormedLookup_iff] at hfields
    refine ⟨others, rfl, ?_, wellFormedLookup_iff.2 fun d hd w hw => ?_⟩
    · rw [Fields.Within, Fields.map_fst_eq_of_forall₂ hrelated]
      exact hwithin
    · obtain ⟨v, hv, hagrees⟩ := exists_of_related hrelated hw
      obtain ⟨hne, hwellFormed⟩ := hfields d hd v hv
      exact ⟨ne_null_of_agrees hagrees hne, ih d hd hwellFormed hagrees⟩
  | slots seats ih =>
    obtain ⟨items, rfl, hitems⟩ := hv
    obtain ⟨others, rfl, hrelated⟩ := exists_of_agrees_list h
    exact ⟨others, rfl, hitems.of_agrees hrelated fun s hs _ _ => ih s hs⟩
  | namedSlots seats ih =>
    obtain ⟨object, rfl, hwithin, hseats⟩ := hv
    obtain ⟨others, rfl, hrelated⟩ := exists_of_agrees_object h
    rw [wellFormedNamed_iff] at hseats
    refine ⟨others, rfl, ?_, wellFormedNamed_iff.2 fun seat hseat w hw => ?_⟩
    · rw [Fields.Within, Fields.map_fst_eq_of_forall₂ hrelated]
      exact hwithin
    · obtain ⟨v, hv, hagrees⟩ := exists_of_related hrelated hw
      obtain ⟨hne, hwellFormed⟩ := hseats seat hseat v hv
      exact ⟨ne_null_of_agrees hagrees hne, ih seat hseat hwellFormed hagrees⟩
  | each item ih =>
    obtain ⟨items, rfl, hitems⟩ := hv
    obtain ⟨others, rfl, hrelated⟩ := exists_of_agrees_list h
    refine ⟨others, rfl, fun w hw => ?_⟩
    obtain ⟨i, hi, rfl⟩ := List.getElem_of_mem hw
    have hlt : i < items.length := hrelated.length_eq ▸ hi
    exact ih (hitems _ (List.getElem_mem hlt)) (hrelated.get hlt hi)
  | nullable inner ih => exact null_or_of_agrees h hv fun hv => ih hv h

/-! ## Sending on -/

/-- **What is received can be sent on.** A decoded value is encoded, and what it is encoded as is
    decoded, to the value without the nulls that stand for absence. The value itself comes back if
    and only if it is in the domain, that is, if there are none. -/
theorem encode_of_decode {S : Schema} (hS : S.Proper) (hliterals : ∀ l ∈ S.literals, l.Canonical)
    {w v : Value} (hw : w.Canonical) (hv : S.decode w = .ok v) :
    S.WellFormed (S.cleared v) ∧ ∃ w' v', S.encode v = .ok w' ∧ S.encode (S.cleared v) = .ok w' ∧
      S.decode w' = .ok v' ∧ v'.agrees (S.cleared v) = true ∧
      (v'.agrees v = true ↔ S.WellFormed v) := by
  obtain ⟨hcanonical, hcleared, hwellFormed⟩ := tidy_of_received hS hliterals ⟨w, hw, hv⟩
  obtain ⟨w', v', hw', hv', hagrees⟩ :=
    returns Value.congruence_agrees S hS (fun _ _ _ h => h) hcleared hwellFormed
  refine ⟨hwellFormed, w', v', encode_cleared hS v ▸ hw', hw', hv', hagrees,
    fun h => ?_, fun h => ?_⟩
  · exact (hwellFormed.of_agrees (Value.agrees_symm hagrees)).of_agrees h
  · obtain ⟨w₂, v₂, hw₂, hv₂, hagrees₂⟩ :=
      returns Value.congruence_agrees S hS (fun _ _ _ h => h) hcanonical h
    rw [encode_cleared hS] at hw'
    cases hw'.symm.trans hw₂
    cases hv'.symm.trans hv₂
    exact hagrees₂

/-- A seat with a mark that is null, and one that is set. -/
def receivedWire : Value :=
  .list [.list [.text "ana", .list [.list [.ofNat 0, .null], .list [.ofNat 1, .bool true]],
    .ofNat 0]]

/-- The room that this decodes to. -/
def receivedRoom : Value :=
  .list [.object [("id", .text "ana"), ("marks", .object [("new", .bool true), ("vet", .null)]),
    ("role", .text "tank")], .null]

theorem encode_of_decode_room : roomSchema.decode receivedWire = .ok receivedRoom ∧
    roomSchema.WellFormed (roomSchema.cleared receivedRoom) ∧
    ∃ w' v', roomSchema.encode receivedRoom = .ok w' ∧
      roomSchema.encode (roomSchema.cleared receivedRoom) = .ok w' ∧
      roomSchema.decode w' = .ok v' ∧ v'.agrees (roomSchema.cleared receivedRoom) = true ∧
      (v'.agrees receivedRoom = true ↔ roomSchema.WellFormed receivedRoom) := by
  have hdecode : roomSchema.decode receivedWire = .ok receivedRoom := rfl
  refine ⟨hdecode, encode_of_decode proper_roomSchema ?_ ?_ hdecode⟩
  · simp [roomSchema, uniform, literals, literalsOfSlots, literalsOfFields, List.replicate,
      Value.Canonical]
  · simp [receivedWire, Value.Canonical, Value.CanonicalList, Value.ofNat]

/-- A lookup with one field, which may be absent. -/
def noteSchema : Schema := .lookup [⟨"note", .identity, true⟩]

/-- A null that a peer sends in a pair is kept, but lost when it is sent on. -/
theorem null_lost : noteSchema.Proper ∧
    noteSchema.decode (.list [.list [.ofNat 0, .null]]) = .ok (.object [("note", .null)]) ∧
    noteSchema.encode (.object [("note", .null)]) = .ok (.list []) ∧
    noteSchema.decode (.list []) = .ok (.object []) ∧
    (Value.object []).agrees (.object [("note", .null)]) = false ∧
    ¬ noteSchema.WellFormed (.object [("note", .null)]) := by
  refine ⟨?_, rfl, rfl, rfl, rfl, fun h => ?_⟩
  · simp [noteSchema, Proper, ProperFields, indexRange]
  · obtain ⟨_, heq, -, hfields⟩ := h
    cases heq
    exact (hfields.1 .null rfl).1 rfl

end Schema

end FrameRpc
