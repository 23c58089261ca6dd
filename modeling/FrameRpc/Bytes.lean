/-!
# Byte strings

A byte string is a list of octets. Lengths and integers are laid out big-endian: `bigEndian w n`
writes the low `w` octets of `n`, the most significant one first, and `ofBigEndian` reads any
number of octets back. On a number below `octetRange w`, the least that `w` octets cannot hold,
the two are inverse (`ofBigEndian_bigEndian`).
-/

namespace FrameRpc

/-- A byte string. -/
abbrev Bytes := List UInt8

/-- The least number that `w` octets cannot hold. -/
def octetRange : Nat → Nat
  | 0 => 1
  | w + 1 => 256 * octetRange w

/-- The low `w` octets of `n`, the most significant one first. -/
def bigEndian : Nat → Nat → Bytes
  | 0, _ => []
  | w + 1, n => bigEndian w (n / 256) ++ [UInt8.ofNat n]

/-- The number whose octets these are, the most significant one first. -/
def ofBigEndian (bs : Bytes) : Nat :=
  bs.foldl (fun n b => n * 256 + b.toNat) 0

@[simp]
theorem length_bigEndian (w n : Nat) : (bigEndian w n).length = w := by
  induction w generalizing n with
  | zero => rfl
  | succ w ih => rw [bigEndian, List.length_append, ih, List.length_singleton]

@[simp]
theorem ofBigEndian_nil : ofBigEndian [] = 0 := rfl

@[simp]
theorem ofBigEndian_concat (bs : Bytes) (b : UInt8) :
    ofBigEndian (bs ++ [b]) = ofBigEndian bs * 256 + b.toNat := by
  rw [ofBigEndian, List.foldl_append]
  rfl

/-- Writing keeps the number modulo the range of its width. -/
theorem ofBigEndian_bigEndian_mod (w n : Nat) :
    ofBigEndian (bigEndian w n) = n % octetRange w := by
  induction w generalizing n with
  | zero => rw [octetRange, Nat.mod_one]; rfl
  | succ w ih =>
    rw [bigEndian, ofBigEndian_concat, ih, octetRange, UInt8.toNat_ofNat', Nat.mod_mul,
      Nat.mul_comm, Nat.add_comm]

/-- What fits its width is read back. -/
theorem ofBigEndian_bigEndian {w n : Nat} (h : n < octetRange w) :
    ofBigEndian (bigEndian w n) = n := by
  rw [ofBigEndian_bigEndian_mod, Nat.mod_eq_of_lt h]

end FrameRpc
