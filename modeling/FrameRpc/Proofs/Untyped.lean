import FrameRpc.Proofs.Nesting
import FrameRpc.Typed.Convert

/-!
# Typed values are read as dynamic ones

What is written under a shape carries no trace of it. Whoever reads it without asking for a shape
gets the dynamic value that `Shape.toValue` makes of it (`reads_untyped`): records become objects,
octets become lists of integers, and an infinity or NaN becomes null.

Of everything but records, infinities and NaN the encoding is the encoding of the dynamic value
(`Scalar.write_eq`, `write_octets_eq`). A record is written in the order of its fields, and an object
in the order of its names, so the entries of a record are read into the object one by one, just as
`RecordType.setFields` sets them (`reads_row`).
-/

namespace FrameRpc

open MessagePack

/-! ## Scalars -/

theorem writeInt_ofNat {n : Nat} (h : n < 0x10000000000000000) :
    MessagePack.write (.ofNat n) = writeNat n := by
  have hn : (UInt64.ofNat n).toNat = n := UInt64.toNat_ofNat_of_lt' h
  change writeNat (UInt64.ofNat n).toNat = _
  rw [hn]

/-- A floating-point number that is not finite is read as null. -/
theorem reads_writeFloat_untyped (budget : Nat) (x : Binary64) :
    Reads (readValue budget) (writeFloat x) (.ofFloat x) := by
  intro rest
  cases budget <;>
  · change (readToken _ >>= _) = _
    rw [reads_writeFloat]
    rfl

namespace Scalar

variable {s : Scalar} {a : s.Carrier}

/-- Scalars other than floating-point numbers are written as their dynamic values are. -/
theorem write_eq (hs : s ≠ .f64) : s.write a = MessagePack.write (s.toValue a) := by
  cases s with
  | u8 => exact (writeInt_ofNat (Nat.lt_trans a.toNat_lt (by decide))).symm
  | u32 => exact (writeInt_ofNat (Nat.lt_trans a.toNat_lt (by decide))).symm
  | f64 => exact absurd rfl hs
  | i64 | bool | text | action => rfl

theorem writable_toValue (hs : s ≠ .f64) (h : s.Short a) (budget : Nat) :
    (s.toValue a).Writable budget := by
  cases s with
  | f64 => exact absurd rfl hs
  | text => exact ⟨trivial, Nat.zero_le _, h⟩
  | action => exact ⟨trivial, Nat.zero_le _, shortText_tag a⟩
  | u8 | u32 | i64 | bool => exact ⟨trivial, Nat.zero_le _, trivial⟩

theorem reads_untyped (h : s.Short a) (budget : Nat) :
    Reads (readValue budget) (s.write a) (s.toValue a) := by
  by_cases hs : s = .f64
  · subst hs
    exact reads_writeFloat_untyped budget a
  · rw [write_eq hs]
    exact MessagePack.reads_write (writable_toValue hs h budget)

end Scalar

/-! ## Records -/

/-- A slot is written and has a dynamic value, as which it is read, or neither. -/
theorem Slot.reads_untyped {k : Slot} {a : k.Carrier} (h : k.Short a) (budget : Nat) :
    (k.write? a = none ∧ k.toValue? a = none) ∨
      ∃ bs v, k.write? a = some bs ∧ k.toValue? a = some v ∧ Reads (readValue budget) bs v := by
  cases k with
  | required s => exact .inr ⟨_, _, rfl, rfl, s.reads_untyped h budget⟩
  | defaulted s _ => exact .inr ⟨_, _, rfl, rfl, s.reads_untyped h budget⟩
  | optional s =>
    cases a with
    | none => exact .inl ⟨rfl, rfl⟩
    | some a => exact .inr ⟨_, _, rfl, rfl, s.reads_untyped (h a rfl) budget⟩

/-- The fields of a record are read into an object one after the other. -/
theorem reads_row (budget : Nat) : {fields : List RecordField} → {row : Row fields} →
    (∀ f ∈ fields, ShortText f.name) → Row.Short fields row → (first : Bool) → (done : Fields) →
    Reads (readEntries budget (readValue budget) first done (Row.count fields row))
      (Row.writeFields fields row) (RecordType.setFields fields row done)
  | [], _, _, _, _, _ => fun _ => rfl
  | f :: fs, (a, row), hnames, hrow, first, done => by
    obtain ⟨hname, hnames⟩ := List.forall_mem_cons.1 hnames
    obtain ⟨hwrite, hvalue⟩ | ⟨bs, v, hwrite, hvalue, hv⟩ := Slot.reads_untyped hrow.1 budget
    · simp only [Row.count, Row.writeFields, RecordType.setFields, hwrite, hvalue]
      rw [Option.isSome_none, if_neg Bool.false_ne_true, Nat.zero_add]
      exact reads_row budget hnames hrow.2 first done
    · simp only [Row.count, Row.writeFields, RecordType.setFields, hwrite, hvalue]
      rw [Option.isSome_some, if_pos rfl, Nat.add_comm]
      intro rest
      rw [List.append_assoc, List.append_assoc]
      change (readName first budget _ >>= _) = _
      rw [reads_writeName first budget hname]
      change (readValue budget _ >>= _) = _
      rw [hv]
      exact reads_row budget hnames hrow.2 false (done.insert f.name v) rest

/-! ## Shapes -/

theorem write_octets_eq (bs : List UInt8) :
    Shape.octets.write bs = MessagePack.write (Shape.octets.toValue bs) := by
  change listHead bs.length ++ _ = listHead (bs.map _).length ++ writeItems (bs.map _)
  rw [List.length_map, writeItems_eq, List.flatMap_map]
  congr 2
  funext b
  exact (writeInt_ofNat (Nat.lt_trans b.toNat_lt (by decide))).symm

namespace Shape

/-- If it is a record, its field names and their number fit length fields. -/
def ShortNames : Shape → Prop
  | .record r => (∀ f ∈ r.fields, ShortText f.name) ∧ r.fields.length < lengthRange
  | _ => True

/-- What is written under a shape is read as the dynamic value. -/
theorem reads_untyped {s : Shape} (hnames : s.ShortNames) {a : s.Carrier} (ha : s.Short a)
    {budget : Nat} (hdepth : (s.toValue a).depth ≤ budget) :
    Reads (readValue budget) (s.write a) (s.toValue a) := by
  cases s with
  | dynamic => exact reads_write ⟨ha.1, hdepth, ha.2⟩
  | scalar s => exact s.reads_untyped ha budget
  | optional s =>
    cases a with
    | none => exact reads_write (v := .null) ⟨trivial, Nat.zero_le _, trivial⟩
    | some a => exact s.reads_untyped (ha a rfl) budget
  | octets =>
    rw [write_octets_eq]
    have hitem : ∀ v ∈ List.map (fun b : UInt8 => Value.ofNat b.toNat) a, v.Canonical ∧ v.Short := by
      intro v hv
      obtain ⟨b, -, rfl⟩ := List.mem_map.1 hv
      exact ⟨trivial, trivial⟩
    refine reads_write ⟨Value.canonicalList_iff.2 fun v hv => (hitem v hv).1, hdepth, ?_,
      Value.shortItems_iff.2 fun v hv => (hitem v hv).2⟩
    rw [List.length_map]
    exact ha
  | record r =>
    cases budget with
    | zero => exact absurd hdepth (Nat.not_succ_le_zero _)
    | succ budget =>
      have hcount := Nat.lt_of_le_of_lt (Row.count_le r.fields a) hnames.2
      intro rest
      change readValueWith (budget + 1) (readValue budget)
        ((mapHead (Row.count r.fields a) ++ Row.writeFields r.fields a) ++ rest) = _
      rw [List.append_assoc]
      change (readToken _ >>= _) = _
      rw [reads_mapHead hcount]
      change (readEntries budget (readValue budget) true [] (Row.count r.fields a) _ >>= _) = _
      rw [reads_row budget hnames.1 ha]
      rfl

end Shape

end FrameRpc
