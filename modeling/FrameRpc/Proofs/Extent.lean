import FrameRpc.Frame.Header
import FrameRpc.MessagePack.Scan

/-!
# The extent of a value

Where a value ends is a matter of markers and length fields alone: `Values n bs` says that `bs` is
the encodings of `n` values, one behind the other. A marker is followed by what it announces, its
length field and body, and by as many more values as it nests.

A reader that reads anything has taken the encoding of exactly one value, whatever it reads it as
(`Takes`): the readers of dynamic values and of shapes, and the one that passes over a
value.
-/

namespace FrameRpc

namespace MessagePack

/-! ## Complete values -/

/-- `bs` is the encodings of `n` values, one behind the other. -/
inductive Values : Nat → Bytes → Prop where
  | nil : Values 0 []
  /-- A marker, what it announces, and the values left over with those that it nests. -/
  | cons {b : UInt8} {rest : Bytes} {layout : Layout} {a : Announced} {n : Nat}
    (hlayout : (Marker.ofByte b).layout = some layout) (hannounced : layout.announced rest = some a)
    (hfits : a.width + a.body ≤ rest.length)
    (hrest : Values (n + a.nested) (rest.drop (a.width + a.body))) : Values (n + 1) (b :: rest)

/-- A length field does not depend on what follows it. -/
theorem Layout.announced_append {layout : Layout} {rest : Bytes} {a : Announced}
    (h : layout.announced rest = some a) (more : Bytes) :
    layout.announced (rest ++ more) = some a := by
  cases layout with
  | fixed n => exact h
  | nested n => exact h
  | sized w extra | counted w per =>
    simp only [announced] at h ⊢
    split at h
    · rename_i hlen
      have hle : w.octets ≤ rest.length := by
        rw [← hlen, List.length_take]
        exact Nat.min_le_right _ _
      rw [List.take_append_of_le_length hle, if_pos hlen]
      exact h
    · nomatch h

/-- At the front of the same bytes a marker announces the same. -/
theorem Layout.announced_unique {layout : Layout} {rest rest' s t : Bytes} {a a' : Announced}
    (h : layout.announced rest = some a) (h' : layout.announced rest' = some a')
    (hsame : rest ++ s = rest' ++ t) : a = a' := by
  have heq := Layout.announced_append h s
  rw [hsame, Layout.announced_append h' t] at heq
  exact (Option.some.inj heq).symm

theorem Layout.announced_width_le {layout : Layout} {rest : Bytes} {a : Announced}
    (h : layout.announced rest = some a) : a.width ≤ rest.length := by
  cases layout with
  | fixed n | nested n =>
    obtain rfl := Option.some.inj h
    exact Nat.zero_le _
  | sized w extra | counted w per =>
    simp only [announced] at h
    split at h
    · rename_i hlen
      obtain rfl := Option.some.inj h
      rw [← hlen, List.length_take]
      exact Nat.min_le_right _ _
    · cases h

/-- On a shorter string of bytes a marker announces the same, or its length field is cut off. -/
theorem Layout.announced_of_append_eq {layout : Layout} {rest short coming tail : Bytes}
    {a : Announced} (h : layout.announced rest = some a) (hshort : short ++ coming = rest ++ tail) :
    layout.announced short = if a.width ≤ short.length then some a else none := by
  by_cases hle : a.width ≤ short.length
  · rw [if_pos hle]
    cases layout with
    | fixed n | nested n => exact h
    | sized w extra | counted w per =>
      have htake : short.take a.width = rest.take a.width := by
        calc short.take a.width = (short ++ coming).take a.width :=
              (List.take_append_of_le_length hle).symm
          _ = (rest ++ tail).take a.width := by rw [hshort]
          _ = rest.take a.width := List.take_append_of_le_length (announced_width_le h)
      simp only [announced] at h ⊢
      split at h
      · obtain rfl := Option.some.inj h
        rename_i hlen
        rw [htake, if_pos hlen]
      · cases h
  · rw [if_neg hle]
    cases layout with
    | fixed n | nested n =>
      obtain rfl := Option.some.inj h
      exact absurd (Nat.zero_le _) hle
    | sized w extra | counted w per =>
      simp only [announced] at h ⊢
      split at h
      · obtain rfl := Option.some.inj h
        rw [if_neg fun hlen => hle ?_]
        rw [← hlen, List.length_take]
        exact Nat.min_le_right _ _
      · cases h

/-- What is announced is announced in front of fewer values as well. -/
theorem Layout.announced_take_append {layout : Layout} {rest front tail : Bytes} {a : Announced}
    (h : layout.announced rest = some a) (hfits : a.width + a.body ≤ rest.length)
    (hdrop : rest.drop (a.width + a.body) = front ++ tail) :
    layout.announced (rest.take (a.width + a.body) ++ front) = some a := by
  have hsplit : rest.take (a.width + a.body) ++ front ++ tail = rest ++ [] := by
    rw [List.append_assoc, ← hdrop, List.take_append_drop, List.append_nil]
  rw [announced_of_append_eq h hsplit]
  refine if_pos ?_
  rw [List.length_append, List.length_take_of_le hfits]
  omega

theorem Values.append {m n : Nat} {u v : Bytes} (hu : Values m u) (hv : Values n v) :
    Values (m + n) (u ++ v) := by
  induction hu with
  | nil => rwa [Nat.zero_add, List.nil_append]
  | cons hlayout hannounced hfits _ ih =>
    rw [Nat.add_right_comm, List.cons_append]
    refine .cons hlayout (Layout.announced_append hannounced v) ?_ ?_
    · rw [List.length_append]
      omega
    · rw [List.drop_append_of_le_length hfits, Nat.add_right_comm]
      exact ih

/-- Every value takes a byte at least. -/
theorem Values.le_length {n : Nat} {bs : Bytes} (h : Values n bs) : n ≤ bs.length := by
  induction h with
  | nil => exact Nat.le_refl 0
  | cons _ _ hfits _ ih =>
    rw [List.length_drop] at ih
    rw [List.length_cons]
    omega

theorem Values.ne_nil {n : Nat} {bs : Bytes} (h : Values (n + 1) bs) : bs ≠ [] :=
  List.ne_nil_of_length_pos (Nat.lt_of_lt_of_le (Nat.succ_pos n) h.le_length)

/-! ## Values that are cut off -/

/-- `u` is the encodings of `m` values up to a place where one of them ends or is entered, with `n`
    values still to come. -/
inductive Partway (n : Nat) : Nat → Bytes → Prop where
  | here : Partway n n []
  /-- A marker and what it announces, and the values left over with those that it nests. -/
  | marker {b : UInt8} {rest : Bytes} {layout : Layout} {a : Announced} {m : Nat}
    (hlayout : (Marker.ofByte b).layout = some layout) (hannounced : layout.announced rest = some a)
    (hfits : a.width + a.body ≤ rest.length)
    (hrest : Partway n (m + a.nested) (rest.drop (a.width + a.body))) : Partway n (m + 1) (b :: rest)

/-- Nothing is still to come behind whole values. -/
theorem values_iff_partway {m : Nat} {u : Bytes} : Values m u ↔ Partway 0 m u := by
  constructor
  · intro h
    induction h with
    | nil => exact .here
    | cons hlayout hannounced hfits _ ih => exact .marker hlayout hannounced hfits ih
  · intro h
    induction h with
    | here => exact .nil
    | marker hlayout hannounced hfits _ ih => exact .cons hlayout hannounced hfits ih

theorem Partway.trans {k m n : Nat} {u v : Bytes} (hu : Partway n m u) (hv : Partway k n v) :
    Partway k m (u ++ v) := by
  induction hu with
  | here => exact hv
  | marker hlayout hannounced hfits _ ih =>
    rw [List.cons_append]
    refine .marker hlayout (Layout.announced_append hannounced v) ?_ ?_
    · rw [List.length_append]
      omega
    · rw [List.drop_append_of_le_length hfits]
      exact ih

/-- In front of a part of the values that follow a marker, it stands in front of a part of all. -/
theorem Partway.cons {b : UInt8} {rest u tail : Bytes} {layout : Layout} {a : Announced} {m n : Nat}
    (hlayout : (Marker.ofByte b).layout = some layout) (hannounced : layout.announced rest = some a)
    (hfits : a.width + a.body ≤ rest.length) (hdrop : rest.drop (a.width + a.body) = u ++ tail)
    (h : Partway n (m + a.nested) u) :
    Partway n (m + 1) (b :: (rest.take (a.width + a.body) ++ u)) := by
  have hlength : (rest.take (a.width + a.body)).length = a.width + a.body :=
    List.length_take_of_le hfits
  refine .marker hlayout (Layout.announced_take_append hannounced hfits hdrop) ?_ ?_
  · rw [List.length_append, hlength]
    exact Nat.le_add_right _ _
  · rwa [List.drop_left' hlength]

/-- The values still to come complete those that are cut off. -/
theorem Partway.values {m n : Nat} {u v : Bytes} (hu : Partway n m u) (hv : Values n v) :
    Values m (u ++ v) :=
  values_iff_partway.2 (hu.trans (values_iff_partway.1 hv))

/-- Where values are still to come, a marker without a layout stands in their way. -/
theorem Partway.append_ne {m n : Nat} {u w tail tail' : Bytes} {b : UInt8}
    (h : Partway (n + 1) m u) (hb : (Marker.ofByte b).layout = none) (hw : Values m w) :
    u ++ b :: tail ≠ w ++ tail' := by
  induction h generalizing w with
  | here =>
    cases hw with
    | cons hlayout _ _ _ =>
      intro heq
      rw [List.nil_append, List.cons_append] at heq
      rw [← (List.cons.inj heq).1, hb] at hlayout
      nomatch hlayout
  | marker hlayout hannounced hfits _ ih =>
    cases hw with
    | cons hlayout' hannounced' hfits' hrest' =>
      intro heq
      rw [List.cons_append, List.cons_append] at heq
      obtain ⟨rfl, hrest⟩ := List.cons.inj heq
      obtain rfl := Option.some.inj (hlayout.symm.trans hlayout')
      obtain rfl := Layout.announced_unique hannounced hannounced' hrest
      refine ih hrest' ?_
      rw [← List.drop_append_of_le_length hfits, hrest, List.drop_append_of_le_length hfits']

/-! ## Tokens -/

section

variable {α β γ : Type} {bs rest : Bytes}

theorem exists_of_bind_eq_ok {ε : Type} {x : Except ε α} {f : α → Except ε β} {b : β}
    (h : x >>= f = .ok b) : ∃ a, x = .ok a ∧ f a = .ok b := by
  cases x with
  | error e => nomatch h
  | ok a => exact ⟨a, rfl, h⟩

theorem exists_of_map_eq_ok {ε : Type} {x : Except ε α} {f : α → β} {b : β}
    (h : x.map f = .ok b) : ∃ a, x = .ok a ∧ f a = b := by
  cases x with
  | error e => nomatch h
  | ok a => exact ⟨a, rfl, Except.ok.inj h⟩

theorem takeBytes_eq_ok {short : ReadError} {n : Nat} {front : Bytes}
    (h : takeBytes short n bs = .ok (front, rest)) : bs = front ++ rest ∧ front.length = n := by
  simp only [takeBytes] at h
  split at h
  · rename_i hlen
    obtain ⟨rfl, rfl⟩ := Prod.mk.inj (Except.ok.inj h)
    exact ⟨(List.take_append_drop n bs).symm, hlen⟩
  · nomatch h

theorem takeField_eq_ok {w : Width} {n : Nat} (h : takeField w bs = .ok (n, rest)) :
    ∃ data : Bytes, bs = data ++ rest ∧ data.length = w.octets ∧ ofBigEndian data = n := by
  obtain ⟨⟨data, rest'⟩, ht, h⟩ := exists_of_bind_eq_ok h
  obtain ⟨rfl, rfl⟩ := Prod.mk.inj (Except.ok.inj h)
  obtain ⟨hbs, hlen⟩ := takeBytes_eq_ok ht
  exact ⟨data, hbs, hlen, rfl⟩

/-- The bytes behind a token that belong to the same value. -/
def Token.body : Token → Nat
  | .text n | .bytes n => n
  | .extension n => n + 1
  | _ => 0

/-- The values behind a token that belong to the same value. -/
def Token.nested : Token → Nat
  | .list n => n
  | .map n => 2 * n
  | _ => 0

/-- `head` is the front of a value, up to the end of its token. -/
def Heads (t : Token) (head : Bytes) : Prop :=
  ∀ body back n, body.length = t.body → Values (n + t.nested) back →
    Values (n + 1) (head ++ (body ++ back))

/-- A marker alone is the front of a value. -/
theorem heads_marker {b : UInt8} {layout : Layout} {t : Token}
    (hlayout : (Marker.ofByte b).layout = some layout)
    (hannounced : ∀ rest, layout.announced rest = some ⟨0, t.body, t.nested⟩) : Heads t [b] := by
  intro body back n hbody hback
  rw [List.singleton_append]
  refine .cons hlayout (hannounced _) ?_ ?_
  · rw [Nat.zero_add, List.length_append, hbody]
    exact Nat.le_add_right _ _
  · rw [Nat.zero_add, ← hbody, List.drop_left]
    exact hback

/-- A marker and its length field are the front of a value. -/
theorem heads_field {b : UInt8} {layout : Layout} {t : Token} {data : Bytes}
    (hlayout : (Marker.ofByte b).layout = some layout)
    (hannounced : ∀ rest,
      layout.announced (data ++ rest) = some ⟨data.length, t.body, t.nested⟩) :
    Heads t (b :: data) := by
  intro body back n hbody hback
  rw [List.cons_append]
  refine .cons hlayout (hannounced _) ?_ ?_
  · rw [List.length_append, List.length_append, hbody]
    dsimp only
    omega
  · rw [← hbody, ← List.append_assoc, ← List.length_append, List.drop_left]
    exact hback

/-- A marker and its number are a value. -/
theorem heads_number {b : UInt8} {w : Nat} {t : Token} {data : Bytes}
    (hlayout : (Marker.ofByte b).layout = some (.fixed w)) (hdata : data.length = w)
    (hbody : t.body = 0) (hnested : t.nested = 0) : Heads t (b :: data) := by
  intro body back n hlen hback
  obtain rfl := List.eq_nil_of_length_eq_zero (hlen.trans hbody)
  rw [hnested] at hback
  rw [List.nil_append, List.cons_append]
  refine .cons hlayout rfl ?_ ?_
  · rw [List.length_append]
    dsimp only
    omega
  · rw [Nat.zero_add, ← hdata, List.drop_left]
    exact hback

/-- A length field is there if anything is announced. -/
theorem announced_sized_eq {w : Width} {extra : Nat} {a : Announced}
    (h : (Layout.sized w extra).announced bs = some a) :
    a = ⟨w.octets, ofBigEndian (bs.take w.octets) + extra, 0⟩ := by
  simp only [Layout.announced] at h
  split at h
  · exact (Option.some.inj h).symm
  · nomatch h

theorem announced_counted_eq {w : Width} {per : Nat} {a : Announced}
    (h : (Layout.counted w per).announced bs = some a) :
    a = ⟨w.octets, 0, ofBigEndian (bs.take w.octets) * per⟩ := by
  simp only [Layout.announced] at h
  split at h
  · exact (Option.some.inj h).symm
  · nomatch h

theorem announced_sized (w : Width) (extra : Nat) {data : Bytes} (h : data.length = w.octets)
    (rest : Bytes) : (Layout.sized w extra).announced (data ++ rest)
      = some ⟨data.length, ofBigEndian data + extra, 0⟩ := by
  simp only [Layout.announced, ← h, List.take_left, if_true]

theorem announced_counted (w : Width) (per : Nat) {data : Bytes} (h : data.length = w.octets)
    (rest : Bytes) : (Layout.counted w per).announced (data ++ rest)
      = some ⟨data.length, 0, ofBigEndian data * per⟩ := by
  simp only [Layout.announced, ← h, List.take_left, if_true]

/-- A field with what a marker makes of it. -/
theorem field_eq_ok {w : Width} {t : Token} (make : Nat → Token)
    (h : (do let (n, rest) ← takeField w bs; return (make n, rest)) = .ok (t, rest)) :
    ∃ data : Bytes, bs = data ++ rest ∧ data.length = w.octets ∧ make (ofBigEndian data) = t := by
  obtain ⟨⟨n, rest'⟩, hf, h⟩ := exists_of_bind_eq_ok h
  obtain ⟨rfl, rfl⟩ := Prod.mk.inj (Except.ok.inj h)
  obtain ⟨data, hbs, hlen, rfl⟩ := takeField_eq_ok hf
  exact ⟨data, hbs, hlen, rfl⟩

theorem heads_of_token {b : UInt8} {t : Token} (h : (Marker.ofByte b).token bs = .ok (t, rest)) :
    ∃ data : Bytes, bs = data ++ rest ∧ Heads t (b :: data) := by
  cases hm : Marker.ofByte b with
  | reserved => rw [hm] at h; nomatch h
  | nil | bool _ | fixUnsigned _ | fixNegative _ | fixText _ | fixList _ | fixMap _
  | fixExtension _ =>
    rw [hm] at h
    obtain ⟨rfl, rfl⟩ := Prod.mk.inj (Except.ok.inj h)
    exact ⟨[], rfl, heads_marker (by rw [hm]; rfl) fun _ => rfl⟩
  | unsigned w =>
    rw [hm] at h
    obtain ⟨data, hbs, hlen, rfl⟩ := field_eq_ok (fun n => .unsigned (UInt64.ofNat n)) h
    exact ⟨data, hbs, heads_number (by rw [hm]; rfl) hlen rfl rfl⟩
  | signed w =>
    rw [hm] at h
    obtain ⟨data, hbs, hlen, rfl⟩ := field_eq_ok (fun n => .signed (signedOf w n)) h
    exact ⟨data, hbs, heads_number (by rw [hm]; rfl) hlen rfl rfl⟩
  | float32 =>
    rw [hm] at h
    obtain ⟨data, hbs, hlen, rfl⟩ :=
      field_eq_ok (fun n => .float (Binary64.widen (UInt32.ofNat n))) h
    exact ⟨data, hbs, heads_number (by rw [hm]; rfl) hlen rfl rfl⟩
  | float64 =>
    rw [hm] at h
    obtain ⟨data, hbs, hlen, rfl⟩ := field_eq_ok (fun n => .float ⟨UInt64.ofNat n⟩) h
    exact ⟨data, hbs, heads_number (by rw [hm]; rfl) hlen rfl rfl⟩
  | text w =>
    rw [hm] at h
    obtain ⟨data, hbs, hlen, rfl⟩ := field_eq_ok .text h
    exact ⟨data, hbs, heads_field (by rw [hm]; rfl) (announced_sized w 0 hlen)⟩
  | bytes w =>
    rw [hm] at h
    obtain ⟨data, hbs, hlen, rfl⟩ := field_eq_ok .bytes h
    exact ⟨data, hbs, heads_field (by rw [hm]; rfl) (announced_sized w 0 hlen)⟩
  | extension w =>
    rw [hm] at h
    obtain ⟨data, hbs, hlen, rfl⟩ := field_eq_ok .extension h
    exact ⟨data, hbs, heads_field (by rw [hm]; rfl) (announced_sized w 1 hlen)⟩
  | list w =>
    rw [hm] at h
    obtain ⟨data, hbs, hlen, rfl⟩ := field_eq_ok .list h
    refine ⟨data, hbs, heads_field (by rw [hm]; rfl) fun rest => ?_⟩
    rw [announced_counted w 1 hlen, Nat.mul_one]
    rfl
  | map w =>
    rw [hm] at h
    obtain ⟨data, hbs, hlen, rfl⟩ := field_eq_ok .map h
    refine ⟨data, hbs, heads_field (by rw [hm]; rfl) fun rest => ?_⟩
    rw [announced_counted w 2 hlen, Nat.mul_comm]
    rfl

theorem heads_of_readToken {t : Token} (h : readToken bs = .ok (t, rest)) :
    ∃ head, bs = head ++ rest ∧ Heads t head := by
  cases bs with
  | nil => nomatch h
  | cons b bs =>
    obtain ⟨data, rfl, hheads⟩ := heads_of_token (show (Marker.ofByte b).token bs = _ from h)
    exact ⟨b :: data, rfl, hheads⟩

/-! ## What readers take -/

/-- `rest` is what `n` values leave of `bs`. -/
def Takes (n : Nat) (bs rest : Bytes) : Prop := ∃ front, bs = front ++ rest ∧ Values n front

theorem Takes.refl (bs : Bytes) : Takes 0 bs bs := ⟨[], rfl, .nil⟩

theorem Takes.trans {m n : Nat} {mid : Bytes} (h : Takes m bs mid) (h' : Takes n mid rest) :
    Takes (m + n) bs rest := by
  obtain ⟨front, rfl, hfront⟩ := h
  obtain ⟨front', rfl, hfront'⟩ := h'
  exact ⟨front ++ front', (List.append_assoc ..).symm, hfront.append hfront'⟩

/-- A token, its body and the values that it nests are a value. -/
theorem takes_of_readToken {t : Token} {body mid : Bytes}
    (h : readToken bs = .ok (t, body ++ mid)) (hbody : body.length = t.body)
    (hnested : Takes t.nested mid rest) : Takes 1 bs rest := by
  obtain ⟨head, rfl, hheads⟩ := heads_of_readToken h
  obtain ⟨back, rfl, hback⟩ := hnested
  refine ⟨head ++ (body ++ back), by simp only [List.append_assoc], ?_⟩
  exact hheads body back 0 hbody (by rwa [Nat.zero_add])

/-- A token without a body, and the values that it nests, are a value. -/
theorem takes_of_bare_token {t : Token} {mid : Bytes} (h : readToken bs = .ok (t, mid))
    (hbody : t.body = 0) (hnested : Takes t.nested mid rest) : Takes 1 bs rest :=
  takes_of_readToken (show readToken bs = .ok (t, [] ++ mid) from h) hbody.symm hnested

/-- A reader of single values, as often as it is asked for, takes as many. -/
theorem takes_readManyOnto {read : Reader α} (h : ∀ bs a rest, read bs = .ok (a, rest) →
    Takes 1 bs rest) {done as : List α} {n : Nat}
    (hr : readManyOnto read done n bs = .ok (as, rest)) : Takes n bs rest := by
  induction n generalizing done bs with
  | zero =>
    obtain ⟨rfl, rfl⟩ := Prod.mk.inj (Except.ok.inj hr)
    exact .refl bs
  | succ n ih =>
    obtain ⟨⟨a, mid⟩, ha, hr⟩ := exists_of_bind_eq_ok hr
    rw [Nat.add_comm]
    exact (h bs a mid ha).trans (ih hr)

theorem takes_readMany {read : Reader α} (h : ∀ bs a rest, read bs = .ok (a, rest) →
    Takes 1 bs rest) {as : List α} {n : Nat} (hr : readMany read n bs = .ok (as, rest)) :
    Takes n bs rest := takes_readManyOnto h hr

/-- An item whose contents are still to be read. -/
def isContainer : Item → Bool
  | .sequence | .map | .extension => true
  | _ => false

theorem item_eq_ok {t : Token} {budget : Nat} {item : Item}
    (h : t.item budget bs = .ok (item, rest)) (hitem : isContainer item = false) :
    t.nested = 0 ∧ ∃ body : Bytes, bs = body ++ rest ∧ body.length = t.body := by
  cases t with
  | text n =>
    obtain ⟨⟨body, rest'⟩, hb, hrest⟩ := exists_of_bind_eq_ok h
    obtain ⟨hbs, hlen⟩ := takeBytes_eq_ok hb
    dsimp only at hrest
    split at hrest <;>
    · obtain ⟨-, rfl⟩ := Prod.mk.inj (Except.ok.inj hrest)
      exact ⟨rfl, body, hbs, hlen⟩
  | bytes n =>
    obtain ⟨⟨body, rest'⟩, hb, hrest⟩ := exists_of_bind_eq_ok h
    obtain ⟨hbs, hlen⟩ := takeBytes_eq_ok hb
    obtain ⟨-, rfl⟩ := Prod.mk.inj (Except.ok.inj hrest)
    exact ⟨rfl, body, hbs, hlen⟩
  | list _ | map _ | extension _ =>
    obtain ⟨_, -, h⟩ := exists_of_bind_eq_ok h
    obtain ⟨rfl, -⟩ := Prod.mk.inj (Except.ok.inj h)
    nomatch hitem
  | nil | bool _ | unsigned _ | signed _ | float _ =>
    obtain ⟨-, rfl⟩ := Prod.mk.inj (Except.ok.inj h)
    exact ⟨rfl, [], rfl, rfl⟩

/-- An item that is no container is a whole value. -/
theorem takes_of_item {t : Token} {budget : Nat} {item : Item} {mid : Bytes}
    (ht : readToken bs = .ok (t, mid)) (h : t.item budget mid = .ok (item, rest))
    (hitem : isContainer item = false) : Takes 1 bs rest := by
  obtain ⟨hnested, body, rfl, hbody⟩ := item_eq_ok h hitem
  exact takes_of_readToken ht hbody (hnested ▸ .refl rest)

/-! ### Dynamic values -/

theorem isContainer_of_asText {item : Item} {s : String} (h : item.asText = .ok s) :
    isContainer item = false := by
  cases item with
  | sequence | map | extension => nomatch h
  | _ => rfl

/-- A name is the text that an item is. -/
theorem exists_of_readName {first : Bool} {budget : Nat} {name : String}
    (h : readName first budget bs = .ok (name, rest)) :
    ∃ t mid item, readToken bs = .ok (t, mid) ∧ t.item budget mid = .ok (item, rest) ∧
      item.asText = .ok name := by
  obtain ⟨⟨t, mid⟩, ht, h⟩ := exists_of_bind_eq_ok h
  obtain ⟨⟨item, rest'⟩, hitem, h⟩ := exists_of_bind_eq_ok h
  dsimp only at h
  split at h
  · split at h
    · obtain ⟨rfl, rfl⟩ := Prod.mk.inj (Except.ok.inj h)
      exact ⟨t, mid, _, ht, hitem, rfl⟩
    · cases h
  · split at h
    · rename_i s hs
      obtain ⟨rfl, rfl⟩ := Prod.mk.inj (Except.ok.inj h)
      exact ⟨t, mid, item, ht, hitem, hs⟩
    · cases h

theorem takes_readName {first : Bool} {budget : Nat} {name : String}
    (h : readName first budget bs = .ok (name, rest)) : Takes 1 bs rest := by
  obtain ⟨t, mid, item, ht, hitem, hs⟩ := exists_of_readName h
  exact takes_of_item ht hitem (isContainer_of_asText hs)

theorem takes_readEntries {budget : Nat} {read : Reader Value} (h : ∀ bs a rest,
    read bs = .ok (a, rest) → Takes 1 bs rest) {first : Bool} {fields fields' : Fields} {n : Nat}
    (hr : readEntries budget read first fields n bs = .ok (fields', rest)) :
    Takes (2 * n) bs rest := by
  induction n generalizing first fields bs with
  | zero =>
    obtain ⟨-, rfl⟩ := Prod.mk.inj (Except.ok.inj hr)
    exact .refl bs
  | succ n ih =>
    obtain ⟨⟨name, mid⟩, hname, hr⟩ := exists_of_bind_eq_ok hr
    obtain ⟨⟨v, mid'⟩, hv, hr⟩ := exists_of_bind_eq_ok hr
    rw [Nat.mul_succ, Nat.add_comm]
    exact ((takes_readName hname).trans (h mid v mid' hv)).trans (ih hr)

theorem isContainer_of_valueOfItem {item : Item} {v : Value} (h : valueOfItem item = .ok v) :
    isContainer item = false := by
  cases item with
  | sequence | map | extension => nomatch h
  | _ => rfl

theorem takes_readValueWith {budget : Nat} {inner : Reader Value} (h : ∀ bs a rest,
    inner bs = .ok (a, rest) → Takes 1 bs rest) {v : Value}
    (hr : readValueWith budget inner bs = .ok (v, rest)) : Takes 1 bs rest := by
  obtain ⟨⟨t, mid⟩, ht, hr⟩ := exists_of_bind_eq_ok hr
  cases t with
  | list n =>
    obtain ⟨_, -, hr⟩ := exists_of_bind_eq_ok hr
    obtain ⟨⟨items, rest'⟩, hitems, hr⟩ := exists_of_bind_eq_ok hr
    obtain ⟨-, rfl⟩ := Prod.mk.inj (Except.ok.inj hr)
    exact takes_of_bare_token ht rfl (takes_readMany h hitems)
  | map n =>
    obtain ⟨_, -, hr⟩ := exists_of_bind_eq_ok hr
    obtain ⟨⟨fields, rest'⟩, hfields, hr⟩ := exists_of_bind_eq_ok hr
    obtain ⟨-, rfl⟩ := Prod.mk.inj (Except.ok.inj hr)
    exact takes_of_bare_token ht rfl (takes_readEntries h hfields)
  | nil | bool _ | unsigned _ | signed _ | float _ | text _ | bytes _ | extension _ =>
    obtain ⟨⟨item, rest'⟩, hitem, hr⟩ := exists_of_bind_eq_ok hr
    obtain ⟨v', hv, hr⟩ := exists_of_bind_eq_ok hr
    obtain ⟨-, rfl⟩ := Prod.mk.inj (Except.ok.inj hr)
    exact takes_of_item ht hitem (isContainer_of_valueOfItem hv)

theorem takes_readValue {budget : Nat} {v : Value} (h : readValue budget bs = .ok (v, rest)) :
    Takes 1 bs rest := by
  induction budget generalizing bs v rest with
  | zero => exact takes_readValueWith (fun _ _ _ h => by cases h) h
  | succ budget ih => exact takes_readValueWith (fun _ _ _ h => ih h) h

theorem takes_skipValueWith {budget : Nat} {inner : Reader Unit} (h : ∀ bs a rest,
    inner bs = .ok (a, rest) → Takes 1 bs rest)
    (hr : skipValueWith budget inner bs = .ok ((), rest)) : Takes 1 bs rest := by
  obtain ⟨⟨t, mid⟩, ht, hr⟩ := exists_of_bind_eq_ok hr
  cases t with
  | text n | bytes n =>
    obtain ⟨⟨body, rest'⟩, hbody, hr⟩ := exists_of_bind_eq_ok hr
    obtain ⟨-, rfl⟩ := Prod.mk.inj (Except.ok.inj hr)
    obtain ⟨rfl, hlen⟩ := takeBytes_eq_ok hbody
    exact takes_of_readToken ht hlen (.refl _)
  | list n | map n =>
    obtain ⟨_, -, hr⟩ := exists_of_bind_eq_ok hr
    obtain ⟨⟨items, rest'⟩, hitems, hr⟩ := exists_of_bind_eq_ok hr
    obtain ⟨-, rfl⟩ := Prod.mk.inj (Except.ok.inj hr)
    exact takes_of_bare_token ht rfl (takes_readMany h hitems)
  | extension n =>
    obtain ⟨_, -, hr⟩ := exists_of_bind_eq_ok hr
    obtain ⟨⟨type, mid'⟩, htype, hr⟩ := exists_of_bind_eq_ok hr
    obtain ⟨⟨body, rest'⟩, hbody, hr⟩ := exists_of_bind_eq_ok hr
    obtain ⟨-, rfl⟩ := Prod.mk.inj (Except.ok.inj hr)
    obtain ⟨rfl, hlen⟩ := takeBytes_eq_ok htype
    obtain ⟨rfl, hlen'⟩ := takeBytes_eq_ok hbody
    rw [← List.append_assoc] at ht
    refine takes_of_readToken ht ?_ (.refl _)
    rw [List.length_append, hlen, hlen', Nat.add_comm]
    rfl
  | nil | bool _ | unsigned _ | signed _ | float _ =>
    obtain ⟨-, rfl⟩ := Prod.mk.inj (Except.ok.inj hr)
    exact takes_of_bare_token ht rfl (.refl _)

theorem takes_skipValue {budget : Nat} (h : skipValue budget bs = .ok ((), rest)) :
    Takes 1 bs rest := by
  induction budget generalizing bs rest with
  | zero => exact takes_skipValueWith (fun _ _ _ h => by cases h) h
  | succ budget ih => exact takes_skipValueWith (fun _ _ _ h => ih h) h

end

end MessagePack

open MessagePack

/-! ### Shapes -/

variable {bs rest : Bytes}

theorem isContainer_of_accept {s : Scalar} {item : Item} {a : s.Carrier}
    (h : s.accept item = .ok a) : isContainer item = false := by
  cases item with
  | sequence | map | extension => cases s <;> nomatch h
  | _ => rfl

/-- A scalar is what its type accepts of an item. -/
theorem exists_of_readScalar {s : Scalar} {budget : Nat} {a : s.Carrier}
    (h : s.read budget bs = .ok (a, rest)) :
    ∃ t mid item, readToken bs = .ok (t, mid) ∧ t.item budget mid = .ok (item, rest) ∧
      s.accept item = .ok a := by
  obtain ⟨⟨m, mid⟩, hm, h⟩ := exists_of_bind_eq_ok h
  dsimp only at h
  split at h
  · cases h
  · obtain ⟨⟨t, mid'⟩, ht, h⟩ := exists_of_bind_eq_ok h
    obtain ⟨⟨item, rest'⟩, hitem, h⟩ := exists_of_bind_eq_ok h
    have htoken : readToken bs = .ok (t, mid') := by
      rw [readToken, hm]
      exact ht
    dsimp only at h
    split at h
    · rename_i a' ha
      obtain ⟨rfl, rfl⟩ := Prod.mk.inj (Except.ok.inj h)
      exact ⟨t, mid', item, htoken, hitem, ha⟩
    · cases h

theorem takes_readScalar {s : Scalar} {budget : Nat} {a : s.Carrier}
    (h : s.read budget bs = .ok (a, rest)) : Takes 1 bs rest := by
  obtain ⟨t, mid, item, ht, hitem, ha⟩ := exists_of_readScalar h
  exact takes_of_item ht hitem (isContainer_of_accept ha)

theorem takes_readOptional {s : Scalar} {budget : Nat} {a : Option s.Carrier}
    (h : readOptional s budget bs = .ok (a, rest)) : Takes 1 bs rest := by
  obtain ⟨⟨m, mid⟩, hm, h⟩ := exists_of_bind_eq_ok h
  dsimp only at h
  split at h
  · obtain ⟨-, rfl⟩ := Prod.mk.inj (Except.ok.inj h)
    have htoken : readToken bs = .ok (.nil, mid) := by
      rw [readToken, hm]
      rfl
    exact takes_of_bare_token htoken rfl (.refl mid)
  · obtain ⟨⟨a', rest'⟩, ha, h⟩ := exists_of_bind_eq_ok h
    obtain ⟨-, rfl⟩ := Prod.mk.inj (Except.ok.inj h)
    exact takes_readScalar ha

theorem takes_readSlot {k : Slot} {budget : Nat} {a : k.Carrier}
    (h : k.read budget bs = .ok (a, rest)) : Takes 1 bs rest := by
  cases k with
  | required s => exact takes_readScalar h
  | defaulted s _ => exact takes_readScalar h
  | optional s => exact takes_readOptional h

/-- The fields of a record take as many items as they leave fewer. -/
theorem takes_readRow {r : RecordType} {budget : Nat} {fields : List RecordField}
    {index left left' : Nat} {row : Row fields}
    (h : readRow r budget fields index left bs = .ok ((row, left'), rest)) :
    ∃ n, left = n + left' ∧ Takes n bs rest := by
  induction fields generalizing index left bs with
  | nil =>
    obtain ⟨hrow, rfl⟩ := Prod.mk.inj (Except.ok.inj h)
    obtain ⟨-, rfl⟩ := Prod.mk.inj hrow
    exact ⟨0, (Nat.zero_add left).symm, .refl bs⟩
  | cons f fs ih =>
    cases left with
    | zero =>
      -- A field that is left out takes nothing.
      simp only [readRow] at h
      split at h
      · obtain ⟨v, -, h⟩ := exists_of_bind_eq_ok h
        obtain ⟨⟨⟨row', left''⟩, rest'⟩, hrow, h⟩ := exists_of_bind_eq_ok h
        obtain ⟨hpair, rfl⟩ := Prod.mk.inj (Except.ok.inj h)
        obtain ⟨-, rfl⟩ := Prod.mk.inj hpair
        exact ih hrow
      · nomatch h
    | succ left =>
      obtain ⟨⟨v, mid⟩, hv, h⟩ := exists_of_bind_eq_ok h
      obtain ⟨⟨⟨row', left''⟩, rest'⟩, hrow, h⟩ := exists_of_bind_eq_ok h
      obtain ⟨hpair, rfl⟩ := Prod.mk.inj (Except.ok.inj h)
      obtain ⟨-, rfl⟩ := Prod.mk.inj hpair
      obtain ⟨n, rfl, htakes⟩ := ih hrow
      exact ⟨1 + n, by omega, (takes_readSlot hv).trans htakes⟩

theorem isContainer_of_fieldOfKey {fields : List RecordField} {item : Item}
    {i : Option (Fin fields.length)} (h : fieldOfKey fields item = .ok i) :
    isContainer item = false := by
  cases item with
  | sequence | map | extension => nomatch h
  | _ => rfl

theorem takes_readKey {fields : List RecordField} {budget : Nat} {i : Option (Fin fields.length)}
    (h : readKey fields budget bs = .ok (i, rest)) : Takes 1 bs rest := by
  obtain ⟨⟨t, mid⟩, ht, h⟩ := exists_of_bind_eq_ok h
  obtain ⟨⟨item, rest'⟩, hitem, h⟩ := exists_of_bind_eq_ok h
  dsimp only at h
  split at h
  · rename_i i' hi
    obtain ⟨-, rfl⟩ := Prod.mk.inj (Except.ok.inj h)
    exact takes_of_item ht hitem (isContainer_of_fieldOfKey hi)
  · nomatch h

/-- Every entry of a map takes its key and one value, also where the value is passed over. -/
theorem takes_readDraft {fields : List RecordField} {budget : Nat} {d d' : Draft fields} {n : Nat}
    (h : readDraft fields budget d n bs = .ok (d', rest)) : Takes (2 * n) bs rest := by
  induction n generalizing d bs with
  | zero =>
    obtain ⟨-, rfl⟩ := Prod.mk.inj (Except.ok.inj h)
    exact .refl bs
  | succ n ih =>
    obtain ⟨⟨key, mid⟩, hkey, h⟩ := exists_of_bind_eq_ok h
    rw [Nat.mul_succ, Nat.add_comm]
    cases key with
    | none =>
      obtain ⟨⟨_, mid'⟩, hskip, h⟩ := exists_of_bind_eq_ok h
      exact ((takes_readKey hkey).trans (takes_skipValue hskip)).trans (ih h)
    | some i =>
      dsimp only at h
      split at h
      · nomatch h
      · obtain ⟨⟨v, mid'⟩, hv, h⟩ := exists_of_bind_eq_ok h
        exact ((takes_readKey hkey).trans (takes_readSlot hv)).trans (ih h)

theorem exactly_eq_ok {r : RecordType} {row : Row r.fields × Nat} {row' : Row r.fields}
    (h : exactly row = .ok row') : row = (row', 0) := by
  rw [exactly] at h
  split at h
  · rename_i hleft
    exact Prod.ext (Except.ok.inj h) hleft
  · nomatch h

theorem takes_readRecord {r : RecordType} {budget : Nat} {row : Row r.fields}
    (h : r.read budget bs = .ok (row, rest)) : Takes 1 bs rest := by
  obtain ⟨⟨t, mid⟩, ht, h⟩ := exists_of_bind_eq_ok h
  cases t with
  | list n =>
    obtain ⟨_, -, h⟩ := exists_of_bind_eq_ok h
    obtain ⟨⟨⟨row', left⟩, rest'⟩, hrow, h⟩ := exists_of_bind_eq_ok h
    obtain ⟨row'', hexact, h⟩ := exists_of_bind_eq_ok h
    obtain ⟨-, rfl⟩ := Prod.mk.inj (Except.ok.inj h)
    obtain ⟨k, rfl, htakes⟩ := takes_readRow hrow
    obtain ⟨-, rfl⟩ := Prod.mk.inj (exactly_eq_ok hexact)
    exact takes_of_bare_token ht rfl htakes
  | map n =>
    obtain ⟨_, -, h⟩ := exists_of_bind_eq_ok h
    obtain ⟨⟨d, rest'⟩, hd, h⟩ := exists_of_bind_eq_ok h
    dsimp only at h
    split at h
    · obtain ⟨-, rfl⟩ := Prod.mk.inj (Except.ok.inj h)
      exact takes_of_bare_token ht rfl (takes_readDraft hd)
    · nomatch h
  | bytes n =>
    obtain ⟨⟨body, rest'⟩, hbody, h⟩ := exists_of_bind_eq_ok h
    dsimp only at h
    split at h
    · obtain ⟨row', -, h⟩ := exists_of_bind_eq_ok h
      obtain ⟨-, rfl⟩ := Prod.mk.inj (Except.ok.inj h)
      obtain ⟨rfl, hlen⟩ := takeBytes_eq_ok hbody
      exact takes_of_readToken ht hlen (.refl _)
    · nomatch h
  | nil | bool _ | unsigned _ | signed _ | float _ | text _ | extension _ =>
    obtain ⟨_, -, h⟩ := exists_of_bind_eq_ok h
    nomatch h

theorem takes_readOctets {budget : Nat} {octets : List UInt8}
    (h : readOctets budget bs = .ok (octets, rest)) : Takes 1 bs rest := by
  obtain ⟨⟨t, mid⟩, ht, h⟩ := exists_of_bind_eq_ok h
  cases t with
  | list n =>
    obtain ⟨_, -, h⟩ := exists_of_bind_eq_ok h
    exact takes_of_bare_token ht rfl (takes_readMany (fun _ _ _ h => takes_readScalar h) h)
  | bytes n =>
    obtain ⟨rfl, hlen⟩ := takeBytes_eq_ok h
    exact takes_of_readToken ht hlen (.refl _)
  | nil | bool _ | unsigned _ | signed _ | float _ | text _ | map _ | extension _ =>
    obtain ⟨_, -, h⟩ := exists_of_bind_eq_ok h
    nomatch h

/-- Whatever the shape, reading takes exactly one value. -/
theorem takes_readShape {s : Shape} {a : s.Carrier} (h : s.read bs = .ok (a, rest)) :
    Takes 1 bs rest := by
  cases s with
  | dynamic => exact takes_readValue h
  | scalar s => exact takes_readScalar h
  | optional s => exact takes_readOptional h
  | octets => exact takes_readOctets h
  | record r => exact takes_readRecord h

theorem takes_readHeader {header : Header} (h : Header.read bs = .ok (header, rest)) :
    Takes 1 bs rest := by
  obtain ⟨⟨row, rest'⟩, hrow, h⟩ := exists_of_bind_eq_ok h
  obtain ⟨-, rfl⟩ := Prod.mk.inj (Except.ok.inj h)
  exact takes_readRecord hrow

end FrameRpc
