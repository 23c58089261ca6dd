import FrameRpc.Text.Utf8

/-!
# Texts are read back

`Utf8.decode` reads what `Utf8.encode` writes (`decode_encode`), character by character: in each
of the four forms (`decodeOnto_one` to `decodeOnto_four`) the lead byte tells the form, the bytes
behind it are ones that it admits, and their bits put together are the character. Conversely, the
bytes that it reads are the only ones that are written for the text (`encode_eq_of_decode`).
-/

namespace FrameRpc

namespace Utf8

theorem toNat_ofNat {n : Nat} (h : n < 256) : (UInt8.ofNat n).toNat = n := by
  rw [UInt8.toNat_ofNat']
  exact Nat.mod_eq_of_lt h

theorem isTail_ofNat {n : Nat} (h : n < 64) : isTail (UInt8.ofNat (0x80 + n)) = true := by
  simp only [isTail, toNat_ofNat (show 0x80 + n < 256 by omega), Bool.and_eq_true,
    decide_eq_true_eq]
  omega

/-- The first two bytes of a character of three admit each other. -/
theorem admitsThird_ofNat {n : Nat} (hlow : 0x800 ≤ n) (hhigh : n < 0x10000)
    (hvalid : n < 0xD800 ∨ 0xDFFF < n) :
    admitsThird (UInt8.ofNat (0xE0 + n / 4096)) (UInt8.ofNat (0x80 + n / 64 % 64)) = true := by
  have ha : (UInt8.ofNat (0xE0 + n / 4096)).toNat = 0xE0 + n / 4096 := toNat_ofNat (by omega)
  have hb : (UInt8.ofNat (0x80 + n / 64 % 64)).toNat = 0x80 + n / 64 % 64 := toNat_ofNat (by omega)
  rw [admitsThird]
  split
  · rename_i h
    have := congrArg UInt8.toNat h
    rw [ha] at this
    simp only [hb, Bool.and_eq_true, decide_eq_true_eq]
    have : (0xE0 : UInt8).toNat = 0xE0 := rfl
    omega
  · split
    · rename_i h
      have := congrArg UInt8.toNat h
      rw [ha] at this
      simp only [hb, Bool.and_eq_true, decide_eq_true_eq]
      have : (0xED : UInt8).toNat = 0xED := rfl
      omega
    · exact isTail_ofNat (by omega)

/-- The first two bytes of a character of four admit each other. -/
theorem admitsFourth_ofNat {n : Nat} (hlow : 0x10000 ≤ n) (hhigh : n < 0x110000) :
    admitsFourth (UInt8.ofNat (0xF0 + n / 262144)) (UInt8.ofNat (0x80 + n / 4096 % 64))
      = true := by
  have ha : (UInt8.ofNat (0xF0 + n / 262144)).toNat = 0xF0 + n / 262144 := toNat_ofNat (by omega)
  have hb : (UInt8.ofNat (0x80 + n / 4096 % 64)).toNat = 0x80 + n / 4096 % 64 :=
    toNat_ofNat (by omega)
  rw [admitsFourth]
  split
  · rename_i h
    have := congrArg UInt8.toNat h
    rw [ha] at this
    simp only [hb, Bool.and_eq_true, decide_eq_true_eq]
    have : (0xF0 : UInt8).toNat = 0xF0 := rfl
    omega
  · split
    · rename_i h
      have := congrArg UInt8.toNat h
      rw [ha] at this
      simp only [hb, Bool.and_eq_true, decide_eq_true_eq]
      have : (0xF4 : UInt8).toNat = 0xF4 := rfl
      omega
    · exact isTail_ofNat (by omega)

theorem valid_toNat (c : Char) : c.toNat < 0xD800 ∨ 0xDFFF < c.toNat ∧ c.toNat < 0x110000 :=
  c.valid

/-! ## The four forms -/

theorem decodeOnto_one (done : List Char) (pos : Nat) (rest : Bytes) {n : Nat} (h : n < 0x80) :
    decodeOnto done pos (UInt8.ofNat n :: rest)
      = decodeOnto (Char.ofNat n :: done) (pos + 1) rest := by
  rw [decodeOnto.eq_def]
  simp only [toNat_ofNat (show n < 256 by omega), if_pos h]

theorem decodeOnto_two (done : List Char) (pos : Nat) (rest : Bytes) {n : Nat} (hlow : 0x80 ≤ n)
    (hhigh : n < 0x800) :
    decodeOnto done pos (UInt8.ofNat (0xC0 + n / 64) :: UInt8.ofNat (0x80 + n % 64) :: rest)
      = decodeOnto (Char.ofNat n :: done) (pos + 2) rest := by
  have ha : (UInt8.ofNat (0xC0 + n / 64)).toNat = 0xC0 + n / 64 := toNat_ofNat (by omega)
  have hb : (UInt8.ofNat (0x80 + n % 64)).toNat = 0x80 + n % 64 := toNat_ofNat (by omega)
  have hn : (0xC0 + n / 64) % 32 * 64 + (0x80 + n % 64) % 64 = n := by omega
  rw [decodeOnto.eq_def]
  simp only [ha, hb, hn, isTail_ofNat (show n % 64 < 64 by omega), if_true,
    if_neg (show ¬0xC0 + n / 64 < 0x80 by omega), if_neg (show ¬0xC0 + n / 64 < 0xC2 by omega),
    if_pos (show 0xC0 + n / 64 < 0xE0 by omega)]

theorem decodeOnto_three (done : List Char) (pos : Nat) (rest : Bytes) {n : Nat}
    (hlow : 0x800 ≤ n) (hhigh : n < 0x10000) (hvalid : n < 0xD800 ∨ 0xDFFF < n) :
    decodeOnto done pos (UInt8.ofNat (0xE0 + n / 4096) :: UInt8.ofNat (0x80 + n / 64 % 64)
        :: UInt8.ofNat (0x80 + n % 64) :: rest)
      = decodeOnto (Char.ofNat n :: done) (pos + 3) rest := by
  have ha : (UInt8.ofNat (0xE0 + n / 4096)).toNat = 0xE0 + n / 4096 := toNat_ofNat (by omega)
  have hb : (UInt8.ofNat (0x80 + n / 64 % 64)).toNat = 0x80 + n / 64 % 64 := toNat_ofNat (by omega)
  have hc : (UInt8.ofNat (0x80 + n % 64)).toNat = 0x80 + n % 64 := toNat_ofNat (by omega)
  have hn : (0xE0 + n / 4096) % 16 * 4096 + (0x80 + n / 64 % 64) % 64 * 64
      + (0x80 + n % 64) % 64 = n := by omega
  rw [decodeOnto.eq_def]
  simp only [ha, hb, hc, hn, admitsThird_ofNat hlow hhigh hvalid,
    isTail_ofNat (show n % 64 < 64 by omega), if_true,
    if_neg (show ¬0xE0 + n / 4096 < 0x80 by omega), if_neg (show ¬0xE0 + n / 4096 < 0xC2 by omega),
    if_neg (show ¬0xE0 + n / 4096 < 0xE0 by omega), if_pos (show 0xE0 + n / 4096 < 0xF0 by omega)]

theorem decodeOnto_four (done : List Char) (pos : Nat) (rest : Bytes) {n : Nat}
    (hlow : 0x10000 ≤ n) (hhigh : n < 0x110000) :
    decodeOnto done pos (UInt8.ofNat (0xF0 + n / 262144) :: UInt8.ofNat (0x80 + n / 4096 % 64)
        :: UInt8.ofNat (0x80 + n / 64 % 64) :: UInt8.ofNat (0x80 + n % 64) :: rest)
      = decodeOnto (Char.ofNat n :: done) (pos + 4) rest := by
  have ha : (UInt8.ofNat (0xF0 + n / 262144)).toNat = 0xF0 + n / 262144 := toNat_ofNat (by omega)
  have hb : (UInt8.ofNat (0x80 + n / 4096 % 64)).toNat = 0x80 + n / 4096 % 64 :=
    toNat_ofNat (by omega)
  have hc : (UInt8.ofNat (0x80 + n / 64 % 64)).toNat = 0x80 + n / 64 % 64 := toNat_ofNat (by omega)
  have hd : (UInt8.ofNat (0x80 + n % 64)).toNat = 0x80 + n % 64 := toNat_ofNat (by omega)
  have hn : (0xF0 + n / 262144) % 8 * 262144 + (0x80 + n / 4096 % 64) % 64 * 4096
      + (0x80 + n / 64 % 64) % 64 * 64 + (0x80 + n % 64) % 64 = n := by omega
  rw [decodeOnto.eq_def]
  simp only [ha, hb, hc, hd, hn, admitsFourth_ofNat hlow hhigh,
    isTail_ofNat (show n / 64 % 64 < 64 by omega), isTail_ofNat (show n % 64 < 64 by omega),
    if_true,
    if_neg (show ¬0xF0 + n / 262144 < 0x80 by omega),
    if_neg (show ¬0xF0 + n / 262144 < 0xC2 by omega),
    if_neg (show ¬0xF0 + n / 262144 < 0xE0 by omega),
    if_neg (show ¬0xF0 + n / 262144 < 0xF0 by omega),
    if_pos (show 0xF0 + n / 262144 < 0xF5 by omega)]

theorem decodeOnto_encodeChar (done : List Char) (pos : Nat) (c : Char) (rest : Bytes) :
    decodeOnto done pos (encodeChar c ++ rest)
      = decodeOnto (c :: done) (pos + (encodeChar c).length) rest := by
  have hvalid := valid_toNat c
  have hc : Char.ofNat c.toNat = c := Char.ofNat_toNat c
  rw [encodeChar]
  split
  · rename_i h
    exact (decodeOnto_one done pos rest h).trans (by rw [hc]; rfl)
  split
  · rename_i h h'
    exact (decodeOnto_two done pos rest (Nat.le_of_not_lt h) h').trans (by rw [hc]; rfl)
  split
  · rename_i h h' h''
    refine (decodeOnto_three done pos rest (Nat.le_of_not_lt h') h'' ?_).trans (by rw [hc]; rfl)
    exact hvalid.imp_right And.left
  · rename_i h h' h''
    refine (decodeOnto_four done pos rest (Nat.le_of_not_lt h'') ?_).trans (by rw [hc]; rfl)
    omega

/-! ## Texts -/

theorem decodeOnto_flatMap (done cs : List Char) (pos : Nat) :
    decodeOnto done pos (cs.flatMap encodeChar) = .ok (done.reverse ++ cs) := by
  induction cs generalizing done pos with
  | nil => rw [List.flatMap_nil, decodeOnto, List.append_nil]
  | cons c cs ih =>
    rw [List.flatMap_cons, decodeOnto_encodeChar, ih, List.reverse_cons, List.append_assoc,
      List.singleton_append]

theorem decode_encode (s : String) : decode (encode s) = .ok s := by
  rw [decode, encode, decodeOnto_flatMap]
  exact congrArg Except.ok String.ofList_toList

/-! ## Bytes are written back -/

theorem toNat_char {n : Nat} (h : n.isValidChar) : (Char.ofNat n).toNat = n := by
  rw [Char.ofNat, dif_pos h]
  rfl

theorem isTail_iff {b : UInt8} : isTail b = true ↔ 0x80 ≤ b.toNat ∧ b.toNat ≤ 0xBF := by
  rw [isTail, Bool.and_eq_true, decide_eq_true_eq, decide_eq_true_eq]

/-- The second byte of a character continues it. One lead byte asks for more, lest the form be too
    long, and another for less. -/
theorem of_admits {a b x y : UInt8} {low high : Nat} (hlow : 0x80 ≤ low) (hhigh : high ≤ 0xBF)
    (hxy : x ≠ y)
    (h : (if a = x then decide (low ≤ b.toNat) && decide (b.toNat ≤ 0xBF)
      else if a = y then decide (0x80 ≤ b.toNat) && decide (b.toNat ≤ high)
      else isTail b) = true) :
    isTail b = true ∧ (a = x → low ≤ b.toNat) ∧ (a = y → b.toNat ≤ high) := by
  rw [isTail_iff]
  split at h
  · rename_i hx
    rw [Bool.and_eq_true, decide_eq_true_eq, decide_eq_true_eq] at h
    exact ⟨⟨Nat.le_trans hlow h.1, h.2⟩, fun _ => h.1, fun hy => absurd (hx.symm.trans hy) hxy⟩
  · rename_i hx
    split at h
    · rw [Bool.and_eq_true, decide_eq_true_eq, decide_eq_true_eq] at h
      exact ⟨⟨h.1, Nat.le_trans h.2 hhigh⟩, fun hx' => absurd hx' hx, fun _ => h.2⟩
    · rename_i hy
      exact ⟨isTail_iff.1 h, fun hx' => absurd hx' hx, fun hy' => absurd hy' hy⟩

theorem ofNat_eq {b : UInt8} {n : Nat} (h : n = b.toNat) : UInt8.ofNat n = b := by
  rw [h, UInt8.ofNat_toNat]

theorem encodeChar_one {a : UInt8} (h : a.toNat < 0x80) :
    encodeChar (Char.ofNat a.toNat) = [a] := by
  rw [encodeChar, toNat_char (.inl (by omega))]
  exact (if_pos h).trans (by rw [UInt8.ofNat_toNat])

theorem encodeChar_two {a b : UInt8} (hlow : 0xC2 ≤ a.toNat) (hhigh : a.toNat < 0xE0)
    (hb : isTail b = true) :
    encodeChar (Char.ofNat (a.toNat % 32 * 64 + b.toNat % 64)) = [a, b] := by
  rw [isTail_iff] at hb
  rw [encodeChar, toNat_char (.inl (by omega))]
  rw [if_neg (by omega), if_pos (by omega), ofNat_eq (b := a) (by omega),
    ofNat_eq (b := b) (by omega)]

theorem encodeChar_three {a b c : UInt8} (hlow : 0xE0 ≤ a.toNat) (hhigh : a.toNat < 0xF0)
    (hb : admitsThird a b = true) (hc : isTail c = true) :
    encodeChar (Char.ofNat (a.toNat % 16 * 4096 + b.toNat % 64 * 64 + c.toNat % 64))
      = [a, b, c] := by
  obtain ⟨hb, hlong, hsurrogate⟩ := of_admits (by omega) (by omega) (by decide) hb
  rw [← UInt8.toNat_inj] at hlong hsurrogate
  rw [isTail_iff] at hb hc
  have hfirst : (0xE0 : UInt8).toNat = 0xE0 := rfl
  have hlast : (0xED : UInt8).toNat = 0xED := rfl
  rw [encodeChar, toNat_char (by rw [Nat.isValidChar]; omega)]
  rw [if_neg (by omega), if_neg (by omega), if_pos (by omega), ofNat_eq (b := a) (by omega),
    ofNat_eq (b := b) (by omega), ofNat_eq (b := c) (by omega)]

theorem encodeChar_four {a b c d : UInt8} (hlow : 0xF0 ≤ a.toNat) (hhigh : a.toNat < 0xF5)
    (hb : admitsFourth a b = true) (hc : isTail c = true) (hd : isTail d = true) :
    encodeChar (Char.ofNat (a.toNat % 8 * 262144 + b.toNat % 64 * 4096 + c.toNat % 64 * 64
      + d.toNat % 64)) = [a, b, c, d] := by
  obtain ⟨hb, hlong, hend⟩ := of_admits (by omega) (by omega) (by decide) hb
  rw [← UInt8.toNat_inj] at hlong hend
  rw [isTail_iff] at hb hc hd
  have hfirst : (0xF0 : UInt8).toNat = 0xF0 := rfl
  have hlast : (0xF4 : UInt8).toNat = 0xF4 := rfl
  rw [encodeChar, toNat_char (by rw [Nat.isValidChar]; omega)]
  rw [if_neg (by omega), if_neg (by omega), if_neg (by omega), ofNat_eq (b := a) (by omega),
    ofNat_eq (b := b) (by omega), ofNat_eq (b := c) (by omega), ofNat_eq (b := d) (by omega)]

theorem flatMap_of_decodeOnto {done cs : List Char} {pos : Nat} {bs : Bytes}
    (h : decodeOnto done pos bs = .ok cs) :
    cs.flatMap encodeChar = done.reverse.flatMap encodeChar ++ bs := by
  -- The bytes of a character go from those that are left to those that have been read.
  have hnext (done : List Char) {c : Char} {front rest : Bytes} (hc : encodeChar c = front)
      (hrest : cs.flatMap encodeChar = (c :: done).reverse.flatMap encodeChar ++ rest) :
      cs.flatMap encodeChar = done.reverse.flatMap encodeChar ++ (front ++ rest) := by
    rw [hrest, List.reverse_cons, List.flatMap_append, List.flatMap_singleton, hc,
      List.append_assoc]
  fun_induction decodeOnto done pos bs with
  | case1 done pos => rw [← Except.ok.inj h, List.append_nil]
  | case2 done pos a rest ha ih => exact hnext done (encodeChar_one ha) (ih h)
  | case5 done pos a _ hlow hhigh b rest hb ih =>
    exact hnext done (encodeChar_two (Nat.le_of_not_lt hlow) hhigh hb) (ih h)
  | case9 done pos a _ _ hlow hhigh b hb c rest hc ih =>
    exact hnext done (encodeChar_three (Nat.le_of_not_lt hlow) hhigh hb hc) (ih h)
  | case15 done pos a _ _ _ hlow hhigh b hb c hc d rest hd ih =>
    exact hnext done (encodeChar_four (Nat.le_of_not_lt hlow) hhigh hb hc hd) (ih h)
  | _ => cases h

/-- Bytes that are read as a text are those that it is written as. -/
theorem encode_eq_of_decode {bs : Bytes} {s : String} (h : decode bs = .ok s) : encode s = bs := by
  rw [decode] at h
  cases hcs : decodeOnto [] 0 bs with
  | error why =>
    rw [hcs] at h
    cases h
  | ok cs =>
    rw [hcs] at h
    rw [← Except.ok.inj h, encode, String.toList_ofList]
    exact flatMap_of_decodeOnto hcs

end Utf8

end FrameRpc
