import FrameRpc.Proofs.Utf8
import FrameRpc.MessagePack.Write
import FrameRpc.MessagePack.Token

/-!
# Tokens are read back

What is written for a number or a truth value, and in front of a text, a list or a map,
is read as the token that it stands for, whatever bytes follow (`Reads`). Integers are written in
the narrowest form that holds them; each of the forms is read as the same number.
-/

namespace FrameRpc

namespace MessagePack

/-- The reader reads `a` from `bs`, whatever follows. -/
def Reads {α : Type} (read : Reader α) (bs : Bytes) (a : α) : Prop :=
  ∀ rest, read (bs ++ rest) = .ok (a, rest)

theorem bind_ok {α β : Type} (a : α) (f : α → Except ReadError β) : (.ok a >>= f) = f a := rfl

/-! ## Fields and bodies -/

theorem reads_takeBytes (short : ReadError) (bs : Bytes) :
    Reads (takeBytes short bs.length) bs bs := by
  intro rest
  simp only [takeBytes, List.take_left, List.drop_left, if_true]

theorem reads_takeBody (bs : Bytes) : Reads (takeBody bs.length) bs bs :=
  reads_takeBytes .noBody bs

theorem reads_takeField_ofBigEndian {w : Width} {field : Bytes} (h : field.length = w.octets) :
    Reads (takeField w) field (ofBigEndian field) := by
  intro rest
  have hread := reads_takeBytes .noData field rest
  rw [h] at hread
  rw [takeField, hread]
  rfl

theorem reads_takeField {w : Width} {n : Nat} (h : n < octetRange w.octets) :
    Reads (takeField w) (bigEndian w.octets n) n := by
  have hread := reads_takeField_ofBigEndian (length_bigEndian w.octets n)
  rwa [ofBigEndian_bigEndian h] at hread

/-- The width of the field behind a marker, and the token that its number makes. -/
def Marker.field? : Marker → Option (Width × (Nat → Token))
  | .unsigned w => some (w, fun n => .unsigned (UInt64.ofNat n))
  | .signed w => some (w, fun n => .signed (signedOf w n))
  | .float32 => some (.four, fun n => .float (Binary64.widen (UInt32.ofNat n)))
  | .float64 => some (.eight, fun n => .float ⟨UInt64.ofNat n⟩)
  | .text w => some (w, .text)
  | .bytes w => some (w, .bytes)
  | .list w => some (w, .list)
  | .map w => some (w, .map)
  | .extension w => some (w, .extension)
  | _ => none

/-- A marker byte with its field is read as its token. -/
theorem reads_field {marker : UInt8} {w : Width} (make : Nat → Token) {n : Nat}
    (hmarker : (Marker.ofByte marker).field? = some (w, make)) (hn : n < octetRange w.octets) :
    Reads readToken (field marker w n) (make n) := by
  intro rest
  change (Marker.ofByte marker).token (bigEndian w.octets n ++ rest) = _
  have hfield := reads_takeField hn rest
  cases hm : Marker.ofByte marker <;> rw [hm] at hmarker <;> cases hmarker <;>
    exact congrArg (· >>= _) hfield

/-! ## Numbers -/

/-- What holds of the first 256 numbers as bytes holds of every byte. -/
theorem forall_byte {p : UInt8 → Prop} (h : ∀ n < 256, p (UInt8.ofNat n)) (b : UInt8) : p b := by
  have hb := h b.toNat b.toNat_lt
  rwa [UInt8.ofNat_toNat] at hb

theorem ofByte_fixUnsigned {n : Nat} (h : n < 0x80) :
    Marker.ofByte (UInt8.ofNat n) = .fixUnsigned n := by
  rw [Marker.ofByte, Utf8.toNat_ofNat (by omega)]
  exact if_pos h

theorem reads_unsigned_field {marker : UInt8} {w : Width} {n : Nat}
    (hmarker : Marker.ofByte marker = .unsigned w) (hn : n < octetRange w.octets) :
    Reads readToken (field marker w n) (.unsigned (UInt64.ofNat n)) :=
  reads_field (fun n => .unsigned (UInt64.ofNat n)) (by rw [hmarker]; rfl) hn

theorem reads_writeNat {n : Nat} (h : n < 0x10000000000000000) :
    Reads readToken (writeNat n) (.unsigned (UInt64.ofNat n)) := by
  rw [writeNat]
  split
  · rename_i hn
    intro rest
    change (Marker.ofByte (UInt8.ofNat n)).token rest = _
    rw [ofByte_fixUnsigned hn]
    rfl
  split
  · rename_i hn
    exact reads_unsigned_field (w := .one) rfl hn
  split
  · rename_i hn
    exact reads_unsigned_field (w := .two) rfl hn
  split
  · rename_i hn
    exact reads_unsigned_field (w := .four) rfl hn
  · exact reads_unsigned_field (w := .eight) rfl h

theorem ofByte_fixNegative {n : Nat} (h : n < 0x20) :
    Marker.ofByte (UInt8.ofNat (0xFF - n)) = .fixNegative n := by
  rw [Marker.ofByte, Utf8.toNat_ofNat (by omega)]
  rw [if_neg (by omega), if_neg (by omega), if_neg (by omega), if_neg (by omega),
    if_neg (by omega)]
  congr 1
  omega

/-- The two's complement of `n` in a field of any width is `-(n + 1)`. -/
theorem signedOf_complement {w : Width} {n : Nat} (h : 2 * n < octetRange w.octets) :
    signedOf w (octetRange w.octets - 1 - n) = Int64.ofInt (Int.negSucc n) := by
  have hn : n < 0x8000000000000000 := by
    cases w <;> simp only [Width.octets, octetRange] at h <;> omega
  rw [← Int64.toInt_inj, Int64.toInt_ofInt_of_le (by omega) (by omega)]
  -- Each width has a machine integer of its own, which takes the upper half of its range for
  -- negative numbers.
  cases w with
  | one =>
    simp only [Width.octets, octetRange] at h ⊢
    rw [signedOf, Int8.toInt_toInt64, Int8.toInt_ofNat']
    simp only [Int.bmod, Int8.size]
    omega
  | two =>
    simp only [Width.octets, octetRange] at h ⊢
    rw [signedOf, Int16.toInt_toInt64, Int16.toInt_ofNat']
    simp only [Int.bmod, Int16.size]
    omega
  | four =>
    simp only [Width.octets, octetRange] at h ⊢
    rw [signedOf, Int32.toInt_toInt64, Int32.toInt_ofNat']
    simp only [Int.bmod, Int32.size]
    omega
  | eight =>
    simp only [Width.octets, octetRange] at h ⊢
    rw [signedOf, Int64.toInt_ofNat']
    simp only [Int.bmod, Int64.size]
    omega

/-- A signed field of the complement of `n`. -/
theorem reads_signed_field {marker : UInt8} {w : Width} {n : Nat}
    (hmarker : Marker.ofByte marker = .signed w) (hn : 2 * n < octetRange w.octets) :
    Reads readToken (field marker w (octetRange w.octets - 1 - n))
      (.signed (Int64.ofInt (Int.negSucc n))) := by
  rw [← signedOf_complement hn]
  exact reads_field (fun n => .signed (signedOf w n)) (by rw [hmarker]; rfl) (by omega)

theorem reads_writeNegative {n : Nat} (h : n < 0x8000000000000000) :
    Reads readToken (writeNegative n) (.signed (Int64.ofInt (Int.negSucc n))) := by
  rw [writeNegative]
  split
  · rename_i hn
    intro rest
    change (Marker.ofByte (UInt8.ofNat (0xFF - n))).token rest = _
    rw [ofByte_fixNegative hn]
    rfl
  split
  · rename_i hn
    exact reads_signed_field (w := .one) rfl (show 2 * n < 0x100 by omega)
  split
  · rename_i hn
    exact reads_signed_field (w := .two) rfl (show 2 * n < 0x10000 by omega)
  split
  · rename_i hn
    exact reads_signed_field (w := .four) rfl (show 2 * n < 0x100000000 by omega)
  · exact reads_signed_field (w := .eight) rfl (show 2 * n < 0x10000000000000000 by omega)

theorem reads_writeFloat (x : Binary64) : Reads readToken (writeFloat x) (.float x) := by
  have h : Reads readToken (writeFloat x) (.float ⟨UInt64.ofNat x.bits.toNat⟩) :=
    reads_field (fun n => .float ⟨UInt64.ofNat n⟩) rfl x.bits.toNat_lt
  rwa [UInt64.ofNat_toNat] at h

theorem reads_writeBool (b : Bool) : Reads readToken (writeBool b) (.bool b) := by
  intro rest
  cases b <;> rfl

/-! ## Heads -/

theorem ofByte_fixText {n : Nat} (h : n < 32) :
    Marker.ofByte (UInt8.ofNat (0xA0 + n)) = .fixText n := by
  rw [Marker.ofByte, Utf8.toNat_ofNat (by omega)]
  rw [if_neg (by omega), if_neg (by omega), if_neg (by omega), if_pos (by omega),
    Nat.add_sub_cancel_left]

theorem ofByte_fixList {n : Nat} (h : n < 16) :
    Marker.ofByte (UInt8.ofNat (0x90 + n)) = .fixList n := by
  rw [Marker.ofByte, Utf8.toNat_ofNat (by omega)]
  rw [if_neg (by omega), if_neg (by omega), if_pos (by omega), Nat.add_sub_cancel_left]

theorem ofByte_fixMap {n : Nat} (h : n < 16) :
    Marker.ofByte (UInt8.ofNat (0x80 + n)) = .fixMap n := by
  rw [Marker.ofByte, Utf8.toNat_ofNat (by omega)]
  rw [if_neg (by omega), if_pos (by omega), Nat.add_sub_cancel_left]

theorem reads_textHead {n : Nat} (h : n < 0x100000000) :
    Reads readToken (textHead n) (.text n) := by
  rw [textHead]
  split
  · rename_i hn
    intro rest
    change (Marker.ofByte (UInt8.ofNat (0xA0 + n))).token rest = _
    rw [ofByte_fixText hn]
    rfl
  split
  · rename_i hn
    exact reads_field (w := .one) .text rfl hn
  split
  · rename_i hn
    exact reads_field (w := .two) .text rfl hn
  · exact reads_field (w := .four) .text rfl h

theorem reads_listHead {n : Nat} (h : n < 0x100000000) :
    Reads readToken (listHead n) (.list n) := by
  rw [listHead]
  split
  · rename_i hn
    intro rest
    change (Marker.ofByte (UInt8.ofNat (0x90 + n))).token rest = _
    rw [ofByte_fixList hn]
    rfl
  split
  · rename_i hn
    exact reads_field (w := .two) .list rfl hn
  · exact reads_field (w := .four) .list rfl h

theorem reads_mapHead {n : Nat} (h : n < 0x100000000) : Reads readToken (mapHead n) (.map n) := by
  rw [mapHead]
  split
  · rename_i hn
    intro rest
    change (Marker.ofByte (UInt8.ofNat (0x80 + n))).token rest = _
    rw [ofByte_fixMap hn]
    rfl
  split
  · rename_i hn
    exact reads_field (w := .two) .map rfl hn
  · exact reads_field (w := .four) .map rfl h

end MessagePack

end FrameRpc
