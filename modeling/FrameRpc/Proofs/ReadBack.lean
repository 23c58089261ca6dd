import FrameRpc.Proofs.Tokens
import FrameRpc.MessagePack.Dynamic

/-!
# Dynamic values are read back

`readValue` reads what `write` writes, whatever follows (`reads_write`), if the value is canonical,
not deeper than the budget, and short enough for its length fields (`Value.Short`). Objects are
written in the order of their names, so each field is read behind those before it and the object
is built in the order in which it was written.
-/

namespace FrameRpc

open MessagePack

/-! ## Short values -/

/-- The least length that no length field holds. -/
def lengthRange : Nat := 0x100000000

/-- A text whose length fits a length field. -/
def ShortText (s : String) : Prop := (Utf8.encode s).length < lengthRange

instance (s : String) : Decidable (ShortText s) := inferInstanceAs (Decidable (_ < _))

namespace Value

mutual

/-- Every text, list and object inside is short enough for a length field. -/
def Short : Value → Prop
  | .text s => ShortText s
  | .list items => items.length < lengthRange ∧ ShortItems items
  | .object fields => fields.length < lengthRange ∧ ShortFields fields
  | _ => True

/-- Every item is short enough. -/
def ShortItems : List Value → Prop
  | [] => True
  | v :: rest => Short v ∧ ShortItems rest

/-- Every field's name and value is short enough. -/
def ShortFields : List (String × Value) → Prop
  | [] => True
  | (name, v) :: rest => ShortText name ∧ Short v ∧ ShortFields rest

end

/-- A value that can be written, and read back with `budget` containers to open. Its objects are
    maps: their fields are in the order of their names, one of each name. -/
structure Writable (budget : Nat) (v : Value) : Prop where
  canonical : v.Canonical
  depth_le : v.depth ≤ budget
  short : v.Short

theorem Writable.mono {m n : Nat} {v : Value} (h : v.Writable m) (hle : m ≤ n) : v.Writable n :=
  ⟨h.canonical, Nat.le_trans h.depth_le hle, h.short⟩

theorem Writable.of_mem_list {budget : Nat} {items : List Value}
    (h : (Value.list items).Writable (budget + 1)) : ∀ v ∈ items, v.Writable budget := by
  obtain ⟨hcanonical, hdepth, -, hshort⟩ := h
  rw [depth, Nat.add_le_add_iff_right] at hdepth
  rw [Canonical] at hcanonical
  induction items with
  | nil => exact fun _ hv => absurd hv List.not_mem_nil
  | cons w rest ih =>
    rw [depthList, Nat.max_le] at hdepth
    intro v hv
    rcases List.mem_cons.1 hv with rfl | hv
    · exact ⟨hcanonical.1, hdepth.1, hshort.1⟩
    · exact ih hcanonical.2 hdepth.2 hshort.2 v hv

theorem Writable.of_mem_object {budget : Nat} {fields : Fields}
    (h : (Value.object fields).Writable (budget + 1)) :
    ∀ e ∈ fields, ShortText e.1 ∧ e.2.Writable budget := by
  obtain ⟨⟨-, hcanonical⟩, hdepth, -, hshort⟩ := h
  rw [depth, Nat.add_le_add_iff_right] at hdepth
  induction fields with
  | nil => exact fun _ he => absurd he List.not_mem_nil
  | cons f rest ih =>
    rw [depthFields, Nat.max_le] at hdepth
    intro e he
    rcases List.mem_cons.1 he with rfl | he
    · exact ⟨hshort.1, hcanonical.1, hdepth.1, hshort.2.1⟩
    · exact ih hdepth.2 hcanonical.2 hshort.2.2 e he

end Value

/-! ## Objects -/

/-- A name behind all others is set at the end. -/
theorem Fields.insert_of_lt {fields : Fields} {name : String} (v : Value)
    (h : ∀ e ∈ fields, e.1 < name) : fields.insert name v = fields ++ [(name, v)] := by
  induction fields with
  | nil => rfl
  | cons e rest ih =>
    obtain ⟨hn, hrest⟩ := List.forall_mem_cons.1 h
    rw [Fields.insert, if_neg (String.lt_asymm hn), if_neg (String.ne_of_lt hn).symm, ih hrest]
    rfl

namespace MessagePack

/-! ## Texts -/

theorem readToken_writeText {s : String} (h : ShortText s) (rest : Bytes) :
    readToken (writeText s ++ rest)
      = .ok (.text (Utf8.encode s).length, Utf8.encode s ++ rest) := by
  rw [writeText, List.append_assoc]
  exact reads_textHead h _

theorem item_text (s : String) (budget : Nat) (rest : Bytes) :
    (Token.text (Utf8.encode s).length).item budget (Utf8.encode s ++ rest)
      = .ok (.text s, rest) := by
  change (takeBody _ _ >>= _) = _
  rw [reads_takeBody, bind_ok]
  simp only [Utf8.decode_encode]
  rfl

theorem reads_writeName (first : Bool) (budget : Nat) {name : String} (h : ShortText name) :
    Reads (readName first budget) (writeText name) name := by
  intro rest
  change (readToken _ >>= _) = _
  rw [readToken_writeText h]
  change (Token.item _ _ _ >>= _) = _
  rw [item_text]
  cases first <;> rfl

/-! ## Items and fields -/

/-- Encodings that are read one by one are read behind what has been read already. -/
theorem reads_readManyOnto {α β : Type} {read : Reader α} {encode : β → Bytes} {f : β → α}
    {items : List β} (h : ∀ b ∈ items, Reads read (encode b) (f b)) (done : List α) :
    Reads (readManyOnto read done items.length) (items.flatMap encode)
      (done.reverse ++ items.map f) := by
  induction items generalizing done with
  | nil =>
    intro rest
    rw [List.map_nil, List.append_nil]
    rfl
  | cons b items ih =>
    obtain ⟨hb, hitems⟩ := List.forall_mem_cons.1 h
    intro rest
    rw [List.flatMap_cons, List.append_assoc]
    change (read _ >>= _) = _
    rw [hb]
    change readManyOnto read (f b :: done) items.length _ = _
    rw [ih hitems, List.reverse_cons, List.append_assoc, List.singleton_append, List.map_cons]

theorem writeItems_eq (items : List Value) : writeItems items = items.flatMap write := by
  induction items with
  | nil => rfl
  | cons v items ih => rw [writeItems, ih, List.flatMap_cons]

theorem reads_writeItems {α : Type} {read : Reader α} {items : List Value} {f : Value → α}
    (h : ∀ v ∈ items, Reads read (write v) (f v)) :
    Reads (readMany read items.length) (writeItems items) (items.map f) := by
  rw [writeItems_eq]
  exact reads_readManyOnto h []

/-- The fields are read behind those already read, in order. -/
theorem reads_writeFieldsOnto {budget : Nat} {read : Reader Value} {fields : Fields}
    (h : ∀ e ∈ fields, ShortText e.1 ∧ Reads read (write e.2) e.2) (first : Bool) {done : Fields}
    (hordered : Fields.Ordered (done ++ fields)) :
    Reads (readEntries budget read first done fields.length) (writeFields fields)
      (done ++ fields) := by
  induction fields generalizing first done with
  | nil =>
    intro rest
    rw [List.append_nil]
    rfl
  | cons e fields ih =>
    obtain ⟨name, v⟩ := e
    obtain ⟨⟨hname, hv⟩, hfields⟩ := List.forall_mem_cons.1 h
    -- The name is behind all that have been read, so the field is set at the end.
    have hinsert : done.insert name v = done ++ [(name, v)] :=
      Fields.insert_of_lt v fun e he =>
        (List.pairwise_append.1 hordered).2.2 e he (name, v) List.mem_cons_self
    have hordered' : Fields.Ordered (done.insert name v ++ fields) := by
      rwa [hinsert, List.append_assoc, List.singleton_append]
    intro rest
    rw [writeFields, List.append_assoc, List.append_assoc]
    change (readName first budget _ >>= _) = _
    rw [reads_writeName first budget hname]
    change (read _ >>= _) = _
    rw [hv]
    change readEntries budget read false (done.insert name v) fields.length _ = _
    rw [ih hfields false hordered' rest, hinsert, List.append_assoc, List.singleton_append]

/-! ## Values -/

theorem ofSigned_ofInt {n : WideInt} {k : Nat} (h : n.toInt = Int.negSucc k) :
    WideInt.ofSigned (Int64.ofInt (Int.negSucc k)) = n := by
  have hlower := n.lower
  obtain ⟨i, _, _⟩ := n
  obtain rfl : i = Int.negSucc k := h
  simp only [WideInt.ofSigned, WideInt.mk.injEq]
  exact Int64.toInt_ofInt_of_le (by omega) (by omega)

theorem ofUnsigned_ofNat {n : WideInt} {k : Nat} (h : n.toInt = Int.ofNat k) :
    WideInt.ofUnsigned (UInt64.ofNat k) = n := by
  have hupper := n.upper
  obtain ⟨i, _, _⟩ := n
  obtain rfl : i = Int.ofNat k := h
  simp only [WideInt.ofUnsigned, WideInt.mk.injEq, UInt64.toNat_ofNat']
  rw [Nat.mod_eq_of_lt (by simp only [Int.ofNat_eq_natCast] at hupper; omega)]
  rfl

theorem ofFloat_val (x : Finite64) : Value.ofFloat x.val = .float x := by
  rw [Value.ofFloat, dif_pos x.property]

theorem reads_writeInt (budget : Nat) (inner : Reader Value) (n : WideInt) :
    Reads (readValueWith budget inner) (writeInt n.toInt) (.int n) := by
  intro rest
  change (readToken _ >>= _) = _
  cases hn : n.toInt with
  | ofNat k =>
    have hupper := n.upper
    rw [hn] at hupper
    rw [writeInt, reads_writeNat (by simp only [Int.ofNat_eq_natCast] at hupper; omega)]
    change Except.ok (Value.int (WideInt.ofUnsigned (UInt64.ofNat k)), rest) = _
    rw [ofUnsigned_ofNat hn]
  | negSucc k =>
    have hlower := n.lower
    rw [hn] at hlower
    rw [writeInt, reads_writeNegative (by omega)]
    change Except.ok (Value.int (WideInt.ofSigned (Int64.ofInt (Int.negSucc k))), rest) = _
    rw [ofSigned_ofInt hn]

/-- With a reader for what containers hold, values are read back. -/
theorem reads_writeWith {budget : Nat} {inner : Reader Value}
    (h : ∀ b, budget = b + 1 → ∀ v : Value, v.Writable b → Reads inner (write v) v) {v : Value}
    (hv : v.Writable budget) : Reads (readValueWith budget inner) (write v) v := by
  intro rest
  -- A container is read with one unit of the budget less for what it holds.
  cases v with
  | null => rfl
  | bool b => cases b <;> rfl
  | int n => exact reads_writeInt budget inner n rest
  | float x =>
    change (readToken _ >>= _) = _
    rw [write, reads_writeFloat]
    change Except.ok (Value.ofFloat x.val, rest) = _
    rw [ofFloat_val]
  | text s =>
    change (readToken _ >>= _) = _
    rw [write, readToken_writeText hv.short]
    change (Token.item _ _ _ >>= _) = _
    rw [item_text]
    rfl
  | list items =>
    cases budget with
    | zero => exact absurd hv.depth_le (Nat.not_succ_le_zero _)
    | succ budget =>
      rw [write, List.append_assoc]
      change (readToken _ >>= _) = _
      rw [reads_listHead hv.short.1]
      change (readMany inner items.length _ >>= _) = _
      rw [reads_writeItems (f := id) fun v hmem => h budget rfl v (hv.of_mem_list v hmem),
        List.map_id]
      rfl
  | object fields =>
    cases budget with
    | zero => exact absurd hv.depth_le (Nat.not_succ_le_zero _)
    | succ budget =>
      have hfields : ∀ e ∈ fields, ShortText e.1 ∧ Reads inner (write e.2) e.2 := fun e he =>
        ⟨(hv.of_mem_object e he).1, h budget rfl e.2 (hv.of_mem_object e he).2⟩
      rw [write, List.append_assoc]
      change (readToken _ >>= _) = _
      rw [reads_mapHead hv.short.1]
      change (readEntries budget inner true [] fields.length _ >>= _) = _
      rw [reads_writeFieldsOnto hfields true
        (show Fields.Ordered ([] ++ fields) from hv.canonical.1)]
      rfl

/-- What is written for a value is read as the value. -/
theorem reads_write {budget : Nat} {v : Value} (hv : v.Writable budget) :
    Reads (readValue budget) (write v) v := by
  induction budget generalizing v with
  | zero => exact reads_writeWith (fun b h => absurd h.symm (Nat.succ_ne_zero b)) hv
  | succ budget ih =>
    refine reads_writeWith (fun b h v hv => ?_) hv
    obtain rfl := Nat.succ.inj h
    exact ih hv

end MessagePack

end FrameRpc
