import FrameRpc.Bytes

/-!
# UTF-8

`Utf8.encode` writes a text as bytes. `Utf8.decode` reads bytes back, and where they are not
UTF-8 says how far they were (`Failure.validUpTo`) and how many of the following bytes cannot
begin a character (`Failure.length`), or that the bytes end inside a character. The second byte
of a character decides whether its lead byte stands alone: a lead byte followed by a byte that
no character continues with is one bad byte, not two.
-/

namespace FrameRpc

namespace Utf8

/-- Why bytes are not UTF-8. -/
structure Failure where
  /-- The number of leading bytes that are UTF-8. -/
  validUpTo : Nat
  /-- The number of bytes after them that no character begins with; none when the bytes end inside
      a character. -/
  length : Option Nat
  deriving DecidableEq, Repr

/-- The wording of a failure. -/
def Failure.message (f : Failure) : String :=
  match f.length with
  | some n => s!"invalid utf-8 sequence of {n} bytes from index {f.validUpTo}"
  | none => s!"incomplete utf-8 byte sequence from index {f.validUpTo}"

/-- The bytes of a character. -/
def encodeChar (c : Char) : Bytes :=
  let n := c.toNat
  if n < 0x80 then [UInt8.ofNat n]
  else if n < 0x800 then
    [UInt8.ofNat (0xC0 + n / 64), UInt8.ofNat (0x80 + n % 64)]
  else if n < 0x10000 then
    [UInt8.ofNat (0xE0 + n / 4096), UInt8.ofNat (0x80 + n / 64 % 64), UInt8.ofNat (0x80 + n % 64)]
  else
    [UInt8.ofNat (0xF0 + n / 262144), UInt8.ofNat (0x80 + n / 4096 % 64),
      UInt8.ofNat (0x80 + n / 64 % 64), UInt8.ofNat (0x80 + n % 64)]

/-- The bytes of a text. -/
def encode (s : String) : Bytes := s.toList.flatMap encodeChar

/-- A byte that continues a character. -/
def isTail (b : UInt8) : Bool := 0x80 ≤ b.toNat && b.toNat ≤ 0xBF

/-- The second bytes that a lead byte of a three-byte character admits: neither a shorter form nor
    a surrogate. -/
def admitsThird (a b : UInt8) : Bool :=
  if a = 0xE0 then 0xA0 ≤ b.toNat && b.toNat ≤ 0xBF
  else if a = 0xED then 0x80 ≤ b.toNat && b.toNat ≤ 0x9F
  else isTail b

/-- The second bytes that a lead byte of a four-byte character admits: neither a shorter form nor
    a number beyond the last character. -/
def admitsFourth (a b : UInt8) : Bool :=
  if a = 0xF0 then 0x90 ≤ b.toNat && b.toNat ≤ 0xBF
  else if a = 0xF4 then 0x80 ≤ b.toNat && b.toNat ≤ 0x8F
  else isTail b

/-- Reads the characters of the bytes from position `pos` on, behind those already read. -/
def decodeOnto (done : List Char) (pos : Nat) : Bytes → Except Failure (List Char)
  | [] => .ok done.reverse
  | a :: rest =>
    if a.toNat < 0x80 then decodeOnto (Char.ofNat a.toNat :: done) (pos + 1) rest
    else if a.toNat < 0xC2 then .error ⟨pos, some 1⟩
    else if a.toNat < 0xE0 then
      match rest with
      | [] => .error ⟨pos, none⟩
      | b :: rest =>
        if isTail b then
          decodeOnto (Char.ofNat (a.toNat % 32 * 64 + b.toNat % 64) :: done) (pos + 2) rest
        else .error ⟨pos, some 1⟩
    else if a.toNat < 0xF0 then
      match rest with
      | [] => .error ⟨pos, none⟩
      | b :: rest =>
        if admitsThird a b then
          match rest with
          | [] => .error ⟨pos, none⟩
          | c :: rest =>
            if isTail c then
              decodeOnto
                (Char.ofNat (a.toNat % 16 * 4096 + b.toNat % 64 * 64 + c.toNat % 64) :: done)
                (pos + 3) rest
            else .error ⟨pos, some 2⟩
        else .error ⟨pos, some 1⟩
    else if a.toNat < 0xF5 then
      match rest with
      | [] => .error ⟨pos, none⟩
      | b :: rest =>
        if admitsFourth a b then
          match rest with
          | [] => .error ⟨pos, none⟩
          | c :: rest =>
            if isTail c then
              match rest with
              | [] => .error ⟨pos, none⟩
              | d :: rest =>
                if isTail d then
                  decodeOnto
                    (Char.ofNat (a.toNat % 8 * 262144 + b.toNat % 64 * 4096 + c.toNat % 64 * 64
                      + d.toNat % 64) :: done) (pos + 4) rest
                else .error ⟨pos, some 3⟩
            else .error ⟨pos, some 2⟩
        else .error ⟨pos, some 1⟩
    else .error ⟨pos, some 1⟩

/-- The text of which these are the bytes. -/
def decode (bs : Bytes) : Except Failure String :=
  (decodeOnto [] 0 bs).map String.ofList

end Utf8

end FrameRpc
