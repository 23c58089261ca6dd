import FrameRpc.Proofs.Extent
import FrameRpc.Proofs.Tokens

/-!
# The grammar of MessagePack

MessagePack is a recursive format: a value is a marker byte, perhaps a length field and a body, and
the values that it nests, each of them a value again (`IsValue`). The grammar is written down here
from the bytes of the format, marker by marker. Only `0xC1` begins no value.

The library does not walk the grammar. It keeps one number, how many values are still to come, and
takes one marker after the other (`Values`). Both describe the same bytes (`isValue_iff_values`).
-/

namespace FrameRpc

namespace MessagePack

/-! ## Markers, byte by byte -/

/-- A byte that is a value by itself: a small number, nil or a truth value. -/
def IsSingle (b : UInt8) : Prop :=
  b.toNat < 0x80 ∨ 0xE0 ≤ b.toNat ∨ b ∈ [0xC0, 0xC2, 0xC3]

instance (b : UInt8) : Decidable (IsSingle b) := inferInstanceAs (Decidable (_ ∨ _ ∨ _))

/-- The markers of numbers, and how wide they are: floating-point, unsigned and signed ones. -/
def numberMarkers : List (UInt8 × Width) :=
  [(0xCA, .four), (0xCB, .eight), (0xCC, .one), (0xCD, .two), (0xCE, .four), (0xCF, .eight),
    (0xD0, .one), (0xD1, .two), (0xD2, .four), (0xD3, .eight)]

/-- The markers of byte strings and texts, and how wide their length fields are. -/
def stringMarkers : List (UInt8 × Width) :=
  [(0xC4, .one), (0xC5, .two), (0xC6, .four), (0xD9, .one), (0xDA, .two), (0xDB, .four)]

/-- The markers of extensions with a length field, and how wide it is. -/
def extensionMarkers : List (UInt8 × Width) := [(0xC7, .one), (0xC8, .two), (0xC9, .four)]

/-- The markers of extensions without one, and how many octets of data they have. -/
def fixedExtensionMarkers : List (UInt8 × Nat) :=
  [(0xD4, 1), (0xD5, 2), (0xD6, 4), (0xD7, 8), (0xD8, 16)]

/-- The markers of lists, and how wide their count fields are. -/
def listMarkers : List (UInt8 × Width) := [(0xDC, .two), (0xDD, .four)]

/-- The markers of maps, and how wide their count fields are. -/
def mapMarkers : List (UInt8 × Width) := [(0xDE, .two), (0xDF, .four)]

/-! ## Values -/

mutual

/-- The bytes of one value. -/
inductive IsValue : Bytes → Prop where
  | single {b : UInt8} (hb : IsSingle b) : IsValue [b]
  | number {b : UInt8} {w : Width} {digits : Bytes} (hb : (b, w) ∈ numberMarkers)
    (hdigits : digits.length = w.octets) : IsValue (b :: digits)
  | shortText {body : Bytes} (hbody : body.length < 32) :
    IsValue (UInt8.ofNat (0xA0 + body.length) :: body)
  /-- A text or a byte string. -/
  | string {b : UInt8} {w : Width} {field body : Bytes} (hb : (b, w) ∈ stringMarkers)
    (hfield : field.length = w.octets) (hbody : body.length = ofBigEndian field) :
    IsValue (b :: (field ++ body))
  | fixedExtension {b type : UInt8} {n : Nat} {data : Bytes} (hb : (b, n) ∈ fixedExtensionMarkers)
    (hdata : data.length = n) : IsValue (b :: type :: data)
  | extension {b type : UInt8} {w : Width} {field data : Bytes} (hb : (b, w) ∈ extensionMarkers)
    (hfield : field.length = w.octets) (hdata : data.length = ofBigEndian field) :
    IsValue (b :: (field ++ type :: data))
  | shortList {n : Nat} {items : Bytes} (hn : n < 16) (hitems : AreValues n items) :
    IsValue (UInt8.ofNat (0x90 + n) :: items)
  | list {b : UInt8} {w : Width} {field items : Bytes} (hb : (b, w) ∈ listMarkers)
    (hfield : field.length = w.octets) (hitems : AreValues (ofBigEndian field) items) :
    IsValue (b :: (field ++ items))
  | shortMap {n : Nat} {entries : Bytes} (hn : n < 16) (hentries : AreValues (2 * n) entries) :
    IsValue (UInt8.ofNat (0x80 + n) :: entries)
  | map {b : UInt8} {w : Width} {field entries : Bytes} (hb : (b, w) ∈ mapMarkers)
    (hfield : field.length = w.octets) (hentries : AreValues (2 * ofBigEndian field) entries) :
    IsValue (b :: (field ++ entries))

/-- The bytes of this many values, one behind the other. -/
inductive AreValues : Nat → Bytes → Prop where
  | nil : AreValues 0 []
  | cons {n : Nat} {v vs : Bytes} (hv : IsValue v) (hvs : AreValues n vs) :
    AreValues (n + 1) (v ++ vs)

end

/-! ## From the grammar to the count -/

/-- A marker, what it announces, and the values that it nests. -/
theorem values_of_announced {b : UInt8} {layout : Layout} {a : Announced} {data items : Bytes}
    (hlayout : (Marker.ofByte b).layout = some layout)
    (hannounced : layout.announced (data ++ items) = some a)
    (hdata : data.length = a.width + a.body) (hitems : Values a.nested items) :
    Values 1 (b :: (data ++ items)) := by
  refine .cons (n := 0) hlayout hannounced ?_ ?_
  · rw [List.length_append, hdata]
    exact Nat.le_add_right _ _
  · rw [← hdata, List.drop_left, Nat.zero_add]
    exact hitems

/-- A marker, and this many octets. -/
theorem values_fixed {b : UInt8} {data : Bytes}
    (hlayout : (Marker.ofByte b).layout = some (.fixed data.length)) : Values 1 (b :: data) := by
  have h : Values 1 (b :: (data ++ [])) :=
    values_of_announced hlayout rfl (Nat.zero_add _).symm .nil
  rwa [List.append_nil] at h

/-- A marker, a length field, and as many octets, or one more for the type. -/
theorem values_sized {b : UInt8} {w : Width} {extra : Nat} {field body : Bytes}
    (hlayout : (Marker.ofByte b).layout = some (.sized w extra))
    (hfield : field.length = w.octets) (hbody : body.length = ofBigEndian field + extra) :
    Values 1 (b :: (field ++ body)) := by
  have hannounced : (Layout.sized w extra).announced (field ++ body ++ [])
      = some ⟨field.length, ofBigEndian field + extra, 0⟩ := by
    rw [List.append_nil, announced_sized w extra hfield]
  have h := values_of_announced hlayout hannounced (by rw [List.length_append, hbody]) .nil
  rwa [List.append_nil] at h

/-- A marker, and this many values. -/
theorem values_nested {b : UInt8} {n : Nat} {items : Bytes}
    (hlayout : (Marker.ofByte b).layout = some (.nested n)) (hitems : Values n items) :
    Values 1 (b :: items) := by
  have h : Values 1 (b :: ([] ++ items)) := values_of_announced hlayout rfl rfl hitems
  exact h

/-- A marker, a count field, and `per` values for each. -/
theorem values_counted {b : UInt8} {w : Width} {per : Nat} {field items : Bytes}
    (hlayout : (Marker.ofByte b).layout = some (.counted w per))
    (hfield : field.length = w.octets) (hitems : Values (ofBigEndian field * per) items) :
    Values 1 (b :: (field ++ items)) :=
  values_of_announced hlayout (announced_counted w per hfield items) rfl hitems

theorem layout_of_isSingle : ∀ b, IsSingle b → (Marker.ofByte b).layout = some (.fixed 0) :=
  forall_byte (by decide +kernel)

section

variable {b : UInt8} {w : Width}

theorem layout_of_number (hb : (b, w) ∈ numberMarkers) :
    (Marker.ofByte b).layout = some (.fixed w.octets) :=
  (by decide : ∀ p ∈ numberMarkers, (Marker.ofByte p.1).layout = some (.fixed p.2.octets)) _ hb

theorem layout_of_string (hb : (b, w) ∈ stringMarkers) :
    (Marker.ofByte b).layout = some (.sized w 0) :=
  (by decide : ∀ p ∈ stringMarkers, (Marker.ofByte p.1).layout = some (.sized p.2 0)) _ hb

theorem layout_of_extension (hb : (b, w) ∈ extensionMarkers) :
    (Marker.ofByte b).layout = some (.sized w 1) :=
  (by decide : ∀ p ∈ extensionMarkers, (Marker.ofByte p.1).layout = some (.sized p.2 1)) _ hb

theorem layout_of_fixedExtension {n : Nat} (hb : (b, n) ∈ fixedExtensionMarkers) :
    (Marker.ofByte b).layout = some (.fixed (n + 1)) :=
  (by decide : ∀ p ∈ fixedExtensionMarkers,
    (Marker.ofByte p.1).layout = some (.fixed (p.2 + 1))) _ hb

theorem layout_of_list (hb : (b, w) ∈ listMarkers) :
    (Marker.ofByte b).layout = some (.counted w 1) :=
  (by decide : ∀ p ∈ listMarkers, (Marker.ofByte p.1).layout = some (.counted p.2 1)) _ hb

theorem layout_of_map (hb : (b, w) ∈ mapMarkers) :
    (Marker.ofByte b).layout = some (.counted w 2) :=
  (by decide : ∀ p ∈ mapMarkers, (Marker.ofByte p.1).layout = some (.counted p.2 2)) _ hb

end

mutual

theorem IsValue.values {bs : Bytes} : IsValue bs → Values 1 bs
  | .single hb => values_fixed (layout_of_isSingle _ hb)
  | .number hb hdigits => values_fixed (hdigits ▸ layout_of_number hb)
  | .shortText hbody => values_fixed (by rw [ofByte_fixText hbody]; rfl)
  | .string hb hfield hbody => values_sized (layout_of_string hb) hfield hbody
  | .fixedExtension hb hdata => values_fixed (by
      rw [layout_of_fixedExtension hb, List.length_cons, hdata])
  | .extension hb hfield hdata => values_sized (layout_of_extension hb) hfield (by
      rw [List.length_cons, hdata])
  | .shortList hn hitems => values_nested (by rw [ofByte_fixList hn]; rfl) hitems.values
  | .list hb hfield hitems => values_counted (layout_of_list hb) hfield (by
      rw [Nat.mul_one]
      exact hitems.values)
  | .shortMap hn hentries => values_nested (by rw [ofByte_fixMap hn]; rfl) hentries.values
  | .map hb hfield hentries => values_counted (layout_of_map hb) hfield (by
      rw [Nat.mul_comm]
      exact hentries.values)

theorem AreValues.values {n : Nat} {bs : Bytes} : AreValues n bs → Values n bs
  | .nil => .nil
  | .cons hv hvs => Nat.add_comm 1 _ ▸ hv.values.append hvs.values

end

/-! ## From the count to the grammar -/

/-- Where a marker with this layout stands in the grammar. -/
def Tabled (b : UInt8) : Layout → Prop
  | .fixed n => IsSingle b ∧ n = 0 ∨ b = UInt8.ofNat (0xA0 + n) ∧ n < 32 ∨
      (∃ p ∈ numberMarkers, b = p.1 ∧ n = p.2.octets) ∨
      (∃ p ∈ fixedExtensionMarkers, b = p.1 ∧ n = p.2 + 1)
  | .sized w extra => (b, w) ∈ stringMarkers ∧ extra = 0 ∨ (b, w) ∈ extensionMarkers ∧ extra = 1
  | .nested n => b = UInt8.ofNat (0x90 + n) ∧ n < 16 ∨
      b = UInt8.ofNat (0x80 + n / 2) ∧ n = 2 * (n / 2) ∧ n / 2 < 16
  | .counted w per => (b, w) ∈ listMarkers ∧ per = 1 ∨ (b, w) ∈ mapMarkers ∧ per = 2

instance (b : UInt8) : (layout : Layout) → Decidable (Tabled b layout)
  | .fixed _ => inferInstanceAs (Decidable (_ ∨ _ ∨ _ ∨ _))
  | .sized _ _ | .nested _ | .counted _ _ => inferInstanceAs (Decidable (_ ∨ _))

/-- The grammar has all markers. -/
theorem tabled_of_layout {b : UInt8} {layout : Layout}
    (h : (Marker.ofByte b).layout = some layout) : Tabled b layout := by
  have hall : ∀ b, ∀ l ∈ (Marker.ofByte b).layout.toList, Tabled b l :=
    forall_byte (by decide +kernel)
  exact hall b layout (by rw [h]; exact List.mem_cons_self)

theorem AreValues.exists_append {m n : Nat} {bs : Bytes} (h : AreValues (m + n) bs) :
    ∃ us vs, bs = us ++ vs ∧ AreValues m us ∧ AreValues n vs := by
  induction m generalizing bs with
  | zero => exact ⟨[], bs, rfl, .nil, Nat.zero_add n ▸ h⟩
  | succ m ih =>
    rw [Nat.succ_add] at h
    cases h with
    | @cons _ v vs hv hvs =>
      obtain ⟨us, vs, rfl, hus, hvs⟩ := ih hvs
      exact ⟨v ++ us, vs, (List.append_assoc ..).symm, .cons hv hus, hvs⟩

/-- The octets of a field in front of the others. -/
theorem exists_field {w : Width} {data : Bytes} {n : Nat} (h : data.length = w.octets + n) :
    ∃ field body, data = field ++ body ∧ field.length = w.octets ∧ body.length = n := by
  refine ⟨data.take w.octets, data.drop w.octets, (List.take_append_drop _ _).symm, ?_, ?_⟩
  · rw [List.length_take]
    omega
  · rw [List.length_drop]
    omega

/-- A marker, what it announces, and the values that it nests are in the grammar. -/
theorem isValue_of_announced {b : UInt8} {layout : Layout} {a : Announced} {data items : Bytes}
    (hlayout : (Marker.ofByte b).layout = some layout)
    (hannounced : layout.announced (data ++ items) = some a)
    (hdata : data.length = a.width + a.body) (hitems : AreValues a.nested items) :
    IsValue (b :: (data ++ items)) := by
  have htabled := tabled_of_layout hlayout
  cases layout with
  | fixed n =>
    obtain rfl := Option.some.inj hannounced
    -- Nothing is nested, so the data is all.
    cases hitems
    obtain rfl : data.length = n := hdata.trans (Nat.zero_add n)
    rw [List.append_nil]
    rcases htabled with ⟨hb, hn⟩ | ⟨rfl, hn⟩ | ⟨p, hp, rfl, hn⟩ | ⟨p, hp, rfl, hn⟩
    · rw [List.eq_nil_of_length_eq_zero hn]
      exact .single hb
    · exact .shortText hn
    · exact .number hp hn
    · obtain ⟨type, data, rfl⟩ := List.exists_cons_of_length_eq_add_one hn
      exact .fixedExtension hp (Nat.succ.inj hn)
  | nested n =>
    obtain rfl := Option.some.inj hannounced
    obtain rfl := List.eq_nil_of_length_eq_zero hdata
    rw [List.nil_append]
    rcases htabled with ⟨rfl, hn⟩ | ⟨rfl, hn, hlt⟩
    · exact .shortList hn hitems
    · exact .shortMap hlt (hn ▸ hitems)
  | sized w extra =>
    obtain rfl := announced_sized_eq hannounced
    obtain ⟨field, body, rfl, hfield, hbody⟩ := exists_field hdata
    cases hitems
    rw [List.append_assoc, ← hfield, List.take_left] at hbody
    rw [List.append_nil]
    rcases htabled with ⟨hb, rfl⟩ | ⟨hb, rfl⟩
    · exact .string hb hfield hbody
    · obtain ⟨type, data, rfl⟩ := List.exists_cons_of_length_eq_add_one hbody
      exact .extension hb hfield (Nat.succ.inj hbody)
  | counted w per =>
    obtain rfl := announced_counted_eq hannounced
    dsimp only at hdata hitems
    rw [Nat.add_zero] at hdata
    rw [← hdata, List.take_left] at hitems
    rcases htabled with ⟨hb, rfl⟩ | ⟨hb, rfl⟩
    · rw [Nat.mul_one] at hitems
      exact .list hb hdata hitems
    · rw [Nat.mul_comm] at hitems
      exact .map hb hdata hitems

theorem Values.areValues {n : Nat} {bs : Bytes} (h : Values n bs) : AreValues n bs := by
  induction h with
  | nil => exact .nil
  | @cons b rest layout a n hlayout hannounced hfits _ ih =>
    -- The values behind a marker are those that it nests, and then those that are still to come.
    rw [Nat.add_comm] at ih
    obtain ⟨items, others, hdrop, hitems, hothers⟩ := ih.exists_append
    have hvalue := isValue_of_announced hlayout
      (Layout.announced_take_append hannounced hfits hdrop) (List.length_take_of_le hfits) hitems
    have hall := AreValues.cons hvalue hothers
    rwa [List.cons_append, List.append_assoc, ← hdrop, List.take_append_drop] at hall

/-- **One format.** The grammar and the count of values to come describe the same bytes. -/
theorem isValue_iff_values {bs : Bytes} : IsValue bs ↔ Values 1 bs := by
  refine ⟨IsValue.values, fun h => ?_⟩
  cases h.areValues with
  | cons hv hvs =>
    cases hvs
    rwa [List.append_nil]

end MessagePack

end FrameRpc
