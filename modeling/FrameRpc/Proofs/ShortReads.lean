import FrameRpc.Proofs.Records
import Mathlib.Data.List.Induction

/-!
# What is read is short

A length field has at most four octets, and a text has no more bytes than its length field says.
So whatever is made of bytes is short enough to be written again: an item
(`MessagePack.short_of_item`), and with it a scalar and a slot (`short_of_readSlot`), a record,
whichever way it is laid out (`short_of_readRecord`), and a header (`Header.short_of_read`).
-/

namespace FrameRpc

theorem ofBigEndian_lt (bs : Bytes) : ofBigEndian bs < octetRange bs.length := by
  induction bs using List.reverseRecOn with
  | nil => exact Nat.one_pos
  | append_singleton bs b ih =>
    have hb := b.toNat_lt
    rw [ofBigEndian_concat, List.length_append, List.length_singleton, octetRange]
    omega

/-! ## Tokens -/

namespace MessagePack

/-- The length in the marker, or in the field that it announces, is one of at most four octets. -/
def Marker.isNarrow : Marker → Bool
  | .fixText n | .fixList n | .fixMap n => n < lengthRange
  | .text w | .bytes w | .list w | .map w => octetRange w.octets ≤ lengthRange
  | _ => true

theorem isNarrow_ofByte : ∀ b, (Marker.ofByte b).isNarrow = true :=
  forall_byte (by decide +kernel)

/-- The length of the body, or the number of values nested, fits a length field. -/
def Token.Measured : Token → Prop
  | .text n | .bytes n | .list n | .map n => n < lengthRange
  | _ => True

variable {bs rest : Bytes} {t : Token} {m : Marker}

theorem lt_of_isNarrow {w : Width} {data : Bytes} (hlength : data.length = w.octets)
    (hw : decide (octetRange w.octets ≤ lengthRange) = true) : ofBigEndian data < lengthRange :=
  Nat.lt_of_lt_of_le (hlength ▸ ofBigEndian_lt data) (of_decide_eq_true hw)

theorem measured_of_token (hm : m.isNarrow = true) (h : m.token bs = .ok (t, rest)) :
    t.Measured := by
  cases m with
  | fixText n | fixList n | fixMap n =>
    obtain ⟨rfl, -⟩ := Prod.mk.inj (Except.ok.inj h)
    exact of_decide_eq_true (p := n < lengthRange) hm
  | text w =>
    obtain ⟨data, -, hlength, rfl⟩ := field_eq_ok .text h
    exact lt_of_isNarrow hlength hm
  | bytes w =>
    obtain ⟨data, -, hlength, rfl⟩ := field_eq_ok .bytes h
    exact lt_of_isNarrow hlength hm
  | list w =>
    obtain ⟨data, -, hlength, rfl⟩ := field_eq_ok .list h
    exact lt_of_isNarrow hlength hm
  | map w =>
    obtain ⟨data, -, hlength, rfl⟩ := field_eq_ok .map h
    exact lt_of_isNarrow hlength hm
  | reserved => cases h
  | nil | bool | fixUnsigned | fixNegative | fixExtension =>
    obtain ⟨rfl, -⟩ := Prod.mk.inj (Except.ok.inj h)
    trivial
  | unsigned | signed | float32 | float64 | extension =>
    obtain ⟨_, -, h⟩ := exists_of_bind_eq_ok h
    obtain ⟨rfl, -⟩ := Prod.mk.inj (Except.ok.inj h)
    trivial

theorem measured_of_readToken (h : readToken bs = .ok (t, rest)) : t.Measured := by
  obtain ⟨⟨m, mid⟩, hm, ht⟩ := exists_of_bind_eq_ok h
  cases bs with
  | nil => cases hm
  | cons b bs =>
    obtain ⟨rfl, rfl⟩ := Prod.mk.inj (Except.ok.inj hm)
    exact measured_of_token (isNarrow_ofByte b) ht

end MessagePack

open MessagePack

/-! ## Items -/

/-- A text or a byte string is short enough for a length field. -/
def Item.Short : Item → Prop
  | .text s => ShortText s
  | .bytes bs => bs.length < lengthRange
  | _ => True

variable {bs rest : Bytes} {t : Token} {budget : Nat} {item : Item} {s : String}

theorem shortText_of_decode (h : Utf8.decode bs = .ok s) (hbs : bs.length < lengthRange) :
    ShortText s := by
  rwa [ShortText, Utf8.encode_eq_of_decode h]

theorem MessagePack.short_of_item (ht : t.Measured) (h : t.item budget bs = .ok (item, rest)) :
    item.Short := by
  cases t with
  | text n =>
    obtain ⟨⟨body, rest'⟩, hbody, h⟩ := exists_of_bind_eq_ok h
    obtain ⟨-, hlength⟩ := takeBytes_eq_ok hbody
    dsimp only at h
    split at h
    · rename_i s hs
      obtain ⟨rfl, -⟩ := Prod.mk.inj (Except.ok.inj h)
      exact shortText_of_decode hs (hlength ▸ ht)
    · obtain ⟨rfl, -⟩ := Prod.mk.inj (Except.ok.inj h)
      trivial
  | bytes n =>
    obtain ⟨⟨body, rest'⟩, hbody, h⟩ := exists_of_bind_eq_ok h
    obtain ⟨-, hlength⟩ := takeBytes_eq_ok hbody
    obtain ⟨rfl, -⟩ := Prod.mk.inj (Except.ok.inj h)
    exact show body.length < lengthRange from hlength ▸ ht
  | list | map | extension =>
    obtain ⟨_, -, h⟩ := exists_of_bind_eq_ok h
    obtain ⟨rfl, -⟩ := Prod.mk.inj (Except.ok.inj h)
    trivial
  | nil | bool | unsigned | signed | float =>
    obtain ⟨rfl, -⟩ := Prod.mk.inj (Except.ok.inj h)
    trivial

theorem Item.Short.asText (h : item.Short) (hs : item.asText = .ok s) : ShortText s := by
  cases item with
  | text s' =>
    obtain rfl := Except.ok.inj hs
    exact h
  | bytes bs =>
    rw [Item.asText] at hs
    split at hs
    · rename_i s' hdecode
      obtain rfl := Except.ok.inj hs
      exact shortText_of_decode hdecode h
    · cases hs
  | nil | bool | unsigned | signed | float | malformed | sequence | map | extension => cases hs

/-! ## Scalars and slots -/

theorem Item.Short.accept {s : Scalar} {a : s.Carrier} (h : item.Short)
    (ha : s.accept item = .ok a) : s.Short a := by
  cases s with
  | text => exact h.asText ha
  | u8 | u32 | i64 | f64 | bool | action => trivial

theorem short_of_readScalar {s : Scalar} {a : s.Carrier} (h : s.read budget bs = .ok (a, rest)) :
    s.Short a := by
  obtain ⟨t, mid, item, ht, hitem, ha⟩ := exists_of_readScalar h
  exact (short_of_item (measured_of_readToken ht) hitem).accept ha

theorem short_of_readSlot {k : Slot} {a : k.Carrier} (h : k.read budget bs = .ok (a, rest)) :
    k.Short a := by
  cases k with
  | required s | defaulted s => exact short_of_readScalar h
  | optional s =>
    obtain ⟨⟨m, mid⟩, -, h⟩ := exists_of_bind_eq_ok h
    dsimp only at h
    split at h
    · obtain ⟨rfl, -⟩ := Prod.mk.inj (Except.ok.inj h)
      nofun
    · obtain ⟨⟨a', rest'⟩, ha, h⟩ := exists_of_bind_eq_ok h
      obtain ⟨rfl, -⟩ := Prod.mk.inj (Except.ok.inj h)
      rintro b hb
      obtain rfl := Option.some.inj hb
      exact short_of_readScalar ha

theorem Item.Short.acceptSlot {k : Slot} {a : k.Carrier} (h : item.Short)
    (ha : k.accept item = .ok a) : k.Short a := by
  cases k with
  | required s | defaulted s => exact h.accept ha
  | optional s =>
    simp only [Slot.accept] at ha
    split at ha
    · obtain rfl := Except.ok.inj ha
      nofun
    · obtain ⟨b, hb, rfl⟩ := exists_of_map_eq_ok ha
      rintro c hc
      obtain rfl := Option.some.inj hc
      exact h.accept hb

/-! ## Records -/

/-- The values that absent fields stand for are short. -/
def ShortAbsent (fields : List RecordField) : Prop :=
  ∀ f ∈ fields, ∀ a, f.slot.absent = some a → f.slot.Short a

variable {r : RecordType} {fields : List RecordField} {index left left' : Nat} {row : Row fields}

theorem short_of_readRow (habsent : ShortAbsent fields)
    (h : readRow r budget fields index left bs = .ok ((row, left'), rest)) :
    Row.Short fields row := by
  induction fields generalizing index left left' bs rest with
  | nil => trivial
  | cons f fs ih =>
    obtain ⟨hf, hfs⟩ := List.forall_mem_cons.1 habsent
    cases left with
    | zero =>
      simp only [readRow] at h
      split at h
      · rename_i v hv
        obtain ⟨v', hv', h⟩ := exists_of_bind_eq_ok h
        obtain rfl := Except.ok.inj hv'
        obtain ⟨⟨⟨row', left''⟩, rest'⟩, hrow, h⟩ := exists_of_bind_eq_ok h
        obtain ⟨hpair, -⟩ := Prod.mk.inj (Except.ok.inj h)
        obtain ⟨rfl, -⟩ := Prod.mk.inj hpair
        exact ⟨hf v hv, ih hfs hrow⟩
      · cases h
    | succ left =>
      obtain ⟨⟨v, mid⟩, hv, h⟩ := exists_of_bind_eq_ok h
      obtain ⟨⟨⟨row', left''⟩, rest'⟩, hrow, h⟩ := exists_of_bind_eq_ok h
      obtain ⟨hpair, -⟩ := Prod.mk.inj (Except.ok.inj h)
      obtain ⟨rfl, -⟩ := Prod.mk.inj hpair
      exact ⟨short_of_readSlot hv, ih hfs hrow⟩

theorem short_of_ofItems {items : List Item} (habsent : ShortAbsent fields)
    (hitems : ∀ item ∈ items, item.Short)
    (h : Row.ofItems r fields index items = .ok (row, left)) : Row.Short fields row := by
  induction fields generalizing index items left with
  | nil => trivial
  | cons f fs ih =>
    obtain ⟨hf, hfs⟩ := List.forall_mem_cons.1 habsent
    cases items with
    | nil =>
      simp only [Row.ofItems] at h
      split at h
      · rename_i v hv
        obtain ⟨v', hv', h⟩ := exists_of_bind_eq_ok h
        obtain rfl := Except.ok.inj hv'
        obtain ⟨⟨row', left'⟩, hrow, h⟩ := exists_of_bind_eq_ok h
        obtain ⟨rfl, -⟩ := Prod.mk.inj (Except.ok.inj h)
        exact ⟨hf v hv, ih hfs hitems hrow⟩
      · cases h
    | cons item items =>
      obtain ⟨hitem, hitems⟩ := List.forall_mem_cons.1 hitems
      obtain ⟨v, hv, h⟩ := exists_of_bind_eq_ok h
      obtain ⟨⟨row', left'⟩, hrow, h⟩ := exists_of_bind_eq_ok h
      obtain ⟨rfl, -⟩ := Prod.mk.inj (Except.ok.inj h)
      exact ⟨hitem.acceptSlot hv, ih hfs hitems hrow⟩

/-- What has been read of the fields is short. -/
def Draft.Short (d : Draft fields) : Prop := ∀ i a, d i = some a → (fields.get i).slot.Short a

theorem Draft.Short.set {d : Draft fields} (h : d.Short) {i : Fin fields.length}
    {a : (fields.get i).slot.Carrier} (ha : (fields.get i).slot.Short a) : (d.set i a).Short := by
  intro j b hb
  by_cases hj : j = i
  · subst hj
    rw [Draft.set_self] at hb
    exact Option.some.inj hb ▸ ha
  · rw [Draft.set_of_ne d a hj] at hb
    exact h j b hb

theorem short_of_readDraft {d d' : Draft fields} {n : Nat} (hd : d.Short)
    (h : readDraft fields budget d n bs = .ok (d', rest)) : d'.Short := by
  induction n generalizing d bs with
  | zero =>
    obtain ⟨rfl, -⟩ := Prod.mk.inj (Except.ok.inj h)
    exact hd
  | succ n ih =>
    obtain ⟨⟨key, mid⟩, -, h⟩ := exists_of_bind_eq_ok h
    cases key with
    | none =>
      obtain ⟨⟨_, mid'⟩, -, h⟩ := exists_of_bind_eq_ok h
      exact ih hd h
    | some i =>
      dsimp only at h
      split at h
      · cases h
      · obtain ⟨⟨v, mid'⟩, hv, h⟩ := exists_of_bind_eq_ok h
        exact ih (hd.set (short_of_readSlot hv)) h

/-- The first field of a record has been read, or is absent. -/
theorem Draft.exists_of_complete {f : RecordField} {d : Draft (f :: fields)}
    {row : Row (f :: fields)} (h : d.complete = .ok row) :
    (d ⟨0, Nat.zero_lt_succ fields.length⟩ = some row.1 ∨ f.slot.absent = some row.1) ∧
      Draft.complete (fun i : Fin fields.length => d i.succ) = .ok row.2 := by
  rw [Draft.complete] at h
  split at h
  · rename_i v hv
    obtain ⟨v', hv', h⟩ := exists_of_bind_eq_ok h
    obtain rfl := Except.ok.inj hv'
    obtain ⟨row', hrow, h⟩ := exists_of_bind_eq_ok h
    obtain rfl := Except.ok.inj h
    exact ⟨.inl hv, hrow⟩
  · split at h
    · rename_i v hv
      obtain ⟨v', hv', h⟩ := exists_of_bind_eq_ok h
      obtain rfl := Except.ok.inj hv'
      obtain ⟨row', hrow, h⟩ := exists_of_bind_eq_ok h
      obtain rfl := Except.ok.inj h
      exact ⟨.inr hv, hrow⟩
    · cases h

theorem Draft.Short.complete : {fields : List RecordField} → {row : Row fields} →
    {d : Draft fields} → d.Short → ShortAbsent fields → d.complete = .ok row → Row.Short fields row
  | [], _, _, _, _, _ => trivial
  | f :: fs, row, d, hd, habsent, h => by
    obtain ⟨hf, hfs⟩ := List.forall_mem_cons.1 habsent
    obtain ⟨hfirst, hrest⟩ := Draft.exists_of_complete h
    have hlater : Draft.Short (fun i : Fin fs.length => d i.succ) := fun i => hd i.succ
    exact ⟨hfirst.elim (hd _ _) (hf _), hlater.complete hfs hrest⟩

/-- However a record is laid out, what is read of it is short. -/
theorem short_of_readRecord {row : Row r.fields} (habsent : ShortAbsent r.fields)
    (h : r.read budget bs = .ok (row, rest)) : Row.Short r.fields row := by
  obtain ⟨⟨t, mid⟩, -, h⟩ := exists_of_bind_eq_ok h
  cases t with
  | list n =>
    obtain ⟨_, -, h⟩ := exists_of_bind_eq_ok h
    obtain ⟨⟨⟨row', left⟩, rest'⟩, hrow, h⟩ := exists_of_bind_eq_ok h
    obtain ⟨row'', hexact, h⟩ := exists_of_bind_eq_ok h
    obtain ⟨rfl, -⟩ := Prod.mk.inj (Except.ok.inj h)
    obtain ⟨rfl, -⟩ := Prod.mk.inj (exactly_eq_ok hexact)
    exact short_of_readRow habsent hrow
  | map n =>
    obtain ⟨_, -, h⟩ := exists_of_bind_eq_ok h
    obtain ⟨⟨d, rest'⟩, hd, h⟩ := exists_of_bind_eq_ok h
    dsimp only at h
    split at h
    · rename_i row' hrow
      obtain ⟨rfl, -⟩ := Prod.mk.inj (Except.ok.inj h)
      exact (short_of_readDraft (fun _ _ h => by cases h) hd).complete habsent hrow
    · cases h
  | bytes n =>
    obtain ⟨⟨body, rest'⟩, -, h⟩ := exists_of_bind_eq_ok h
    dsimp only at h
    split at h
    · rename_i row' hrow
      obtain ⟨row'', hexact, h⟩ := exists_of_bind_eq_ok h
      obtain ⟨rfl, -⟩ := Prod.mk.inj (Except.ok.inj h)
      obtain rfl := exactly_eq_ok hexact
      refine short_of_ofItems habsent (fun item hitem => ?_) hrow
      obtain ⟨b, -, rfl⟩ := List.mem_map.1 hitem
      trivial
    · cases h
  | nil | bool | unsigned | signed | float | text | extension =>
    obtain ⟨_, -, h⟩ := exists_of_bind_eq_ok h
    cases h

/-! ## Headers -/

theorem Header.short_of_read {header : Header} (h : Header.read bs = .ok (header, rest)) :
    header.Short := by
  obtain ⟨⟨row, rest'⟩, hrow, h⟩ := exists_of_bind_eq_ok h
  obtain ⟨rfl, -⟩ := Prod.mk.inj (Except.ok.inj h)
  -- Only what may be left out is absent, and that holds no text then.
  have habsent : ShortAbsent type.fields := by
    intro f hf a ha
    simp only [type, List.mem_cons, List.not_mem_nil, or_false] at hf
    rcases hf with rfl | rfl | rfl | rfl | rfl | rfl <;> cases ha
    all_goals nofun
  obtain ⟨hprotocol, -, hid, -, hhandler, -, -⟩ := short_of_readRecord habsent hrow
  exact ⟨hprotocol, hid, hhandler⟩

end FrameRpc
