import FrameRpc.Proofs.Records
import FrameRpc.Typed.Convert

/-!
# Reading and converting

The bytes of a dynamic value can be read as a shape, and the value itself can be taken as the shape.
For every part of a shape the one succeeds exactly if the other does, with the same result, and
reading leaves what follows the value (`Concurs`). Errors are not compared.

The bytes of a value are its token and what stands behind it (`Value.token`, `Value.behind`), which
settles scalars. Lists and objects are composed of such pairs as their readers are composed of
readers (`Concurs.bind`); fields that no one asks for are passed over (`reads_skipValue`).
-/

namespace FrameRpc

open MessagePack

/-! ## The token of a value -/

namespace Value

/-- The token that a value begins with. -/
def token : Value → Token
  | .null => .nil
  | .bool b => .bool b
  | .int n =>
    if 0 ≤ n.toInt then .unsigned (UInt64.ofNat n.toInt.toNat) else .signed (Int64.ofInt n.toInt)
  | .float x => .float x.val
  | .text s => .text (Utf8.encode s).length
  | .list items => .list items.length
  | .object fields => .map fields.length

/-- What is written of a value behind its token. -/
def behind : Value → Bytes
  | .text s => Utf8.encode s
  | .list items => writeItems items
  | .object fields => writeFields fields
  | _ => []

variable {v : Value} {s : Scalar} {a : s.Carrier} {budget : Nat}

theorem readToken_write (h : v.Short) (rest : Bytes) :
    readToken (write v ++ rest) = .ok (v.token, v.behind ++ rest) := by
  cases v with
  | null => rfl
  | bool b => exact reads_writeBool b rest
  | int n =>
    have hlower := n.lower
    have hupper := n.upper
    rw [write, token]
    cases hn : n.toInt with
    | ofNat k =>
      rw [hn, Int.ofNat_eq_natCast] at hupper
      rw [writeInt, if_pos (show 0 ≤ Int.ofNat k from Int.natCast_nonneg k)]
      exact reads_writeNat (by omega) rest
    | negSucc k =>
      rw [hn] at hlower
      rw [writeInt, if_neg (by omega)]
      exact reads_writeNegative (by omega) rest
  | float x => exact reads_writeFloat x.val rest
  | text s => exact readToken_writeText h rest
  | list items =>
    rw [write, List.append_assoc]
    exact reads_listHead h.1 _
  | object fields =>
    rw [write, List.append_assoc]
    exact reads_mapHead h.1 _

/-- The token and the bytes behind it make the item that the value is from outside. -/
theorem item_token (h : isContainer v.item = false) (budget : Nat) (rest : Bytes) :
    v.token.item budget (v.behind ++ rest) = .ok (v.item, rest) := by
  cases v with
  | null | bool | float => rfl
  | int n =>
    rw [token, item]
    split <;> rfl
  | text s => exact item_text s budget rest
  | list | object => cases h

/-- Of a container they make no other item. -/
theorem eq_item_of_token {i : Item} {bs rest : Bytes} (h : isContainer v.item = true)
    (hitem : v.token.item budget bs = .ok (i, rest)) : i = v.item := by
  cases v with
  | list | object =>
    obtain ⟨_, -, hitem⟩ := exists_of_bind_eq_ok hitem
    exact (Prod.mk.inj (Except.ok.inj hitem)).1.symm
  | null | bool | float | text => cases h
  | int n =>
    rw [item] at h
    split at h <;> cases h

theorem eq_null_of_token (h : v.token = .nil) : v = .null := by
  cases v with
  | null => rfl
  | int n =>
    rw [token] at h
    split at h <;> cases h
  | bool | float | text | list | object => cases h

/-- What is not null is no nil from outside. -/
theorem accept_optional (h : v.token ≠ .nil) :
    (Slot.optional s).accept v.item = (s.accept v.item).map some := by
  cases v with
  | null => exact absurd rfl h
  | int n =>
    rw [item]
    split <;> rfl
  | bool | float | text | list | object => rfl

/-- No scalar is nil. -/
theorem token_ne_nil_of_accept (h : s.accept v.item = .ok a) : v.token ≠ .nil := by
  cases v with
  | null => cases s <;> cases h
  | int n =>
    rw [token]
    split <;> nofun
  | bool | float | text | list | object => nofun

/-- A number or a truth value is one as a token already. -/
theorem isScalar_of_accept (h : s.accept v.item = .ok a) (hs : s.isNumeric = true) :
    v.token.isScalar = true := by
  cases v with
  | bool | float => rfl
  | int n =>
    rw [token]
    split <;> rfl
  | null | list | object => cases s <;> cases h
  | text =>
    cases s with
    | text | action => cases hs
    | u8 | u32 | i64 | f64 | bool => cases h

end Value

/-! ## Reading and converting -/

/-- What a reader makes of some bytes is what a conversion makes: the one succeeds exactly if the
    other does, with the same result, and then leaves `rest`. -/
def Concurs {α : Type} (rest : Bytes) (x : Except ReadError (α × Bytes))
    (y : Except Mismatch α) : Prop :=
  ∀ a rest', x = .ok (a, rest') ↔ y = .ok a ∧ rest' = rest

namespace Concurs

variable {α β : Type} {rest mid : Bytes}

theorem ok (a : α) (rest : Bytes) : Concurs rest (.ok (a, rest)) (.ok a) := by
  intro b rest'
  constructor
  · intro h
    obtain ⟨rfl, rfl⟩ := Prod.mk.inj (Except.ok.inj h)
    exact ⟨rfl, rfl⟩
  · rintro ⟨h, rfl⟩
    rw [Except.ok.inj h]

theorem error (rest : Bytes) (e : ReadError) (m : Mismatch) :
    Concurs (α := α) rest (.error e) (.error m) := by
  intro a rest'
  constructor
  · intro h
    cases h
  · rintro ⟨h, -⟩
    cases h

/-- A reader that looks at an item only to refuse it. -/
theorem refused (rest : Bytes) (t : Token) (budget : Nat) (bs : Bytes) (expected : Expected)
    (m : Mismatch) : Concurs (α := α) rest
      (t.item budget bs >>= fun p => .error (refuse p.1 expected)) (.error m) := by
  cases t.item budget bs with
  | error e => exact .error rest e m
  | ok p => exact .error rest (refuse p.1 expected) m

/-- First one part, then another. -/
theorem bind {x : Except ReadError (α × Bytes)} {y : Except Mismatch α}
    {f : α × Bytes → Except ReadError (β × Bytes)} {g : α → Except Mismatch β}
    (h : Concurs mid x y) (hnext : ∀ a, y = .ok a → Concurs rest (f (a, mid)) (g a)) :
    Concurs rest (x >>= f) (y >>= g) := by
  intro b rest'
  constructor
  · intro hx
    obtain ⟨⟨a, mid'⟩, ha, hb⟩ := exists_of_bind_eq_ok hx
    obtain ⟨hy, rfl⟩ := (h a mid').1 ha
    obtain ⟨hg, hrest⟩ := (hnext a hy b rest').1 hb
    rw [hy]
    exact ⟨hg, hrest⟩
  · rintro ⟨hy, hrest⟩
    obtain ⟨a, ha, hb⟩ := exists_of_bind_eq_ok hy
    rw [(h a mid).2 ⟨ha, rfl⟩]
    exact (hnext a ha b rest').2 ⟨hb, hrest⟩

theorem map {x : Except ReadError (α × Bytes)} {y : Except Mismatch α} (h : Concurs rest x y)
    (f : α → β) : Concurs rest (x >>= fun p => .ok (f p.1, p.2)) (y.map f) := by
  have hmap : y.map f = y >>= fun a => .ok (f a) := by
    cases y <;> rfl
  rw [hmap]
  exact h.bind fun a _ => .ok (f a) rest

end Concurs

/-! ## Scalars and slots -/

variable {v : Value} {budget : Nat}

theorem concurs_readScalar (s : Scalar) (budget : Nat) (h : v.Short) (rest : Bytes) :
    Concurs rest (s.read budget (write v ++ rest)) (s.accept v.item) := by
  intro a rest'
  constructor
  · intro hread
    obtain ⟨t, mid, item, ht, hitem, ha⟩ := exists_of_readScalar hread
    obtain ⟨rfl, rfl⟩ := Prod.mk.inj (Except.ok.inj ((v.readToken_write h rest).symm.trans ht))
    cases hcontainer : isContainer v.item with
    | true =>
      obtain rfl := Value.eq_item_of_token hcontainer hitem
      cases hcontainer.symm.trans (isContainer_of_accept ha)
    | false =>
      rw [Value.item_token hcontainer] at hitem
      obtain ⟨rfl, rfl⟩ := Prod.mk.inj (Except.ok.inj hitem)
      exact ⟨ha, rfl⟩
  · rintro ⟨ha, rfl⟩
    have hitem := v.item_token (isContainer_of_accept ha)
    exact Scalar.Stands.read_eq ⟨v.token, _, v.item, v.readToken_write h rest',
      v.token_ne_nil_of_accept ha, v.isScalar_of_accept ha, fun b => hitem b rest', ha⟩ budget

theorem concurs_readOptional (s : Scalar) (budget : Nat) (h : v.Short) (rest : Bytes) :
    Concurs rest (readOptional s budget (write v ++ rest)) ((Slot.optional s).accept v.item) := by
  by_cases hnil : v.token = .nil
  · obtain rfl := Value.eq_null_of_token hnil
    exact .ok none rest
  · rw [Scalar.readOptional_eq (v.readToken_write h rest) hnil, Value.accept_optional hnil]
    exact (concurs_readScalar s budget h rest).map some

theorem concurs_readSlot (k : Slot) (budget : Nat) (h : v.Short) (rest : Bytes) :
    Concurs rest (k.read budget (write v ++ rest)) (k.accept v.item) := by
  cases k with
  | required s => exact concurs_readScalar s budget h rest
  | defaulted s _ => exact concurs_readScalar s budget h rest
  | optional s => exact concurs_readOptional s budget h rest

/-! ## Lists -/

variable {r : RecordType} {fields : List RecordField} {items : List Value}

/-- The fields of a record are read from as many items; the others are left. -/
theorem concurs_readRow (r : RecordType) (budget : Nat) (fields : List RecordField) (index : Nat)
    (h : ∀ v ∈ items, v.Short) (rest : Bytes) :
    Concurs (writeItems (items.drop fields.length) ++ rest)
      (readRow r budget fields index items.length (writeItems items ++ rest))
      (Row.ofItems r fields index (items.map Value.item)) := by
  induction fields generalizing index items with
  | nil =>
    rw [Row.ofItems, List.length_map]
    exact .ok _ _
  | cons f fs ih =>
    cases items with
    | nil =>
      simp only [readRow, Row.ofItems, List.length_nil, List.map_nil]
      cases f.slot.absent with
      | none => exact .error _ _ _
      | some v =>
        have hrest := ih (index + 1) (List.forall_mem_nil _)
        rw [List.drop_nil] at hrest ⊢
        exact hrest.bind fun row _ => .ok _ _
    | cons v items =>
      obtain ⟨hv, hitems⟩ := List.forall_mem_cons.1 h
      rw [writeItems, List.append_assoc]
      refine (concurs_readSlot f.slot budget hv _).bind fun a _ => ?_
      exact (ih (index + 1) hitems).bind fun row _ => .ok _ _

theorem left_of_ofItems {index left : Nat} {items : List Item} {row : Row fields}
    (h : Row.ofItems r fields index items = .ok (row, left)) :
    left = items.length - fields.length := by
  induction fields generalizing index items left with
  | nil => exact (Prod.mk.inj (Except.ok.inj h)).2.symm
  | cons f fs ih =>
    cases items with
    | nil =>
      simp only [Row.ofItems] at h
      split at h
      · obtain ⟨_, -, h⟩ := exists_of_bind_eq_ok h
        obtain ⟨⟨row', left'⟩, hrow, h⟩ := exists_of_bind_eq_ok h
        obtain ⟨-, rfl⟩ := Prod.mk.inj (Except.ok.inj h)
        rw [ih hrow]
        simp
      · cases h
    | cons item items =>
      rw [Row.ofItems] at h
      obtain ⟨a, -, h⟩ := exists_of_bind_eq_ok h
      obtain ⟨⟨row', left'⟩, hrow, h⟩ := exists_of_bind_eq_ok h
      obtain ⟨-, rfl⟩ := Prod.mk.inj (Except.ok.inj h)
      rw [ih hrow, List.length_cons, List.length_cons, Nat.add_sub_add_right]

/-- The octets of a list are read one by one. -/
theorem concurs_readOctets (budget : Nat) (h : ∀ v ∈ items, v.Short) (done : List UInt8)
    (rest : Bytes) :
    Concurs rest
      (readManyOnto (Scalar.u8.read budget) done items.length (writeItems items ++ rest))
      ((octetsOf items).map (done.reverse ++ ·)) := by
  induction items generalizing done with
  | nil =>
    change Concurs rest (.ok (done.reverse, rest)) (.ok (done.reverse ++ []))
    rw [List.append_nil]
    exact .ok _ _
  | cons v items ih =>
    obtain ⟨hv, hitems⟩ := List.forall_mem_cons.1 h
    have hmap : (octetsOf (v :: items)).map (done.reverse ++ ·)
        = Scalar.u8.accept v.item >>= fun b =>
          (octetsOf items).map ((b :: done).reverse ++ ·) := by
      rw [octetsOf, List.mapM_cons, octetsOf]
      cases Scalar.u8.accept v.item with
      | error m => rfl
      | ok b =>
        cases items.mapM fun v => Scalar.u8.accept v.item with
        | error m => rfl
        | ok bs =>
          refine congrArg Except.ok ?_
          rw [List.reverse_cons]
          exact List.append_cons ..
    rw [writeItems, List.append_assoc, hmap]
    exact (concurs_readScalar .u8 budget hv _).bind fun b _ => ih hitems (b :: done)

/-! ## Objects -/

/-- Names are written like texts, so an object holds twice as many values as it has fields. -/
theorem writeFields_eq (fields : Fields) :
    writeFields fields = writeItems (fields.flatMap fun e => [.text e.1, e.2]) ∧
      (fields.flatMap fun e => [Value.text e.1, e.2]).length = 2 * fields.length := by
  induction fields with
  | nil => exact ⟨rfl, rfl⟩
  | cons e fields ih =>
    obtain ⟨hwrite, hlength⟩ := ih
    constructor
    · rw [writeFields, hwrite]
      rfl
    · rw [List.flatMap_cons, List.length_append, hlength]
      exact Nat.add_comm 2 (2 * fields.length)

/-- Whatever is written as a value can be passed over. -/
theorem reads_skipValueWith {inner : Reader Unit}
    (h : ∀ b, budget = b + 1 → ∀ v : Value, v.Writable b → Reads inner (write v) ())
    (hv : v.Writable budget) : Reads (skipValueWith budget inner) (write v) () := by
  intro rest
  change (readToken _ >>= _) = _
  rw [v.readToken_write hv.short]
  cases v with
  | null | bool | float => rfl
  | int n =>
    rw [Value.token]
    split <;> rfl
  | text s =>
    change (takeBody _ _ >>= _) = _
    rw [Value.behind, reads_takeBody]
    rfl
  | list items =>
    cases budget with
    | zero => exact absurd hv.depth_le (Nat.not_succ_le_zero _)
    | succ budget =>
      change (readMany inner items.length (writeItems items ++ rest) >>= _) = _
      rw [reads_writeItems (f := fun _ => ()) fun v hmem =>
        h budget rfl v (hv.of_mem_list v hmem)]
      rfl
  | object fields =>
    cases budget with
    | zero => exact absurd hv.depth_le (Nat.not_succ_le_zero _)
    | succ budget =>
      obtain ⟨hwrite, hlength⟩ := writeFields_eq fields
      change (readMany inner (2 * fields.length) (writeFields fields ++ rest) >>= _) = _
      rw [hwrite, ← hlength, reads_writeItems (f := fun _ => ()) fun v hmem => ?_]
      · rfl
      · obtain ⟨e, he, hmem⟩ := List.mem_flatMap.1 hmem
        obtain ⟨hname, hvalue⟩ := hv.of_mem_object e he
        rcases List.mem_cons.1 hmem with rfl | hmem
        · exact h budget rfl _ ⟨trivial, Nat.zero_le _, hname⟩
        · obtain rfl := List.mem_singleton.1 hmem
          exact h budget rfl _ hvalue

theorem reads_skipValue (hv : v.Writable budget) : Reads (skipValue budget) (write v) () := by
  induction budget generalizing v with
  | zero => exact reads_skipValueWith (fun b h => absurd h.symm (Nat.succ_ne_zero b)) hv
  | succ budget ih =>
    refine reads_skipValueWith (fun b h v hv => ?_) hv
    obtain rfl := Nat.succ.inj h
    exact ih hv

/-- The entries of an object are read into the fields of a record, the others passed over. -/
theorem concurs_readDraft {entries : Fields}
    (h : ∀ e ∈ entries, ShortText e.1 ∧ e.2.Writable budget) (d : Draft fields) (rest : Bytes) :
    Concurs rest (readDraft fields budget d entries.length (writeFields entries ++ rest))
      (d.ofFields entries) := by
  induction entries generalizing d with
  | nil => exact .ok d rest
  | cons e entries ih =>
    obtain ⟨name, v⟩ := e
    obtain ⟨⟨hname, hv⟩, hentries⟩ := List.forall_mem_cons.1 h
    rw [writeFields, List.append_assoc, List.append_assoc, Draft.ofFields]
    change Concurs rest (readKey fields budget _ >>= _) _
    rw [reads_readKey fields budget hname]
    cases fieldWhere (· == name) fields with
    | none =>
      change Concurs rest (skipValue budget _ >>= _) _
      rw [reads_skipValue hv]
      exact ih hentries d
    | some i =>
      change Concurs rest (if (d i).isSome = true then _ else _)
        (if (d i).isSome = true then _ else _)
      split
      · exact .error _ _ _
      · exact (concurs_readSlot _ budget hv.short _).bind fun a _ => ih hentries (d.set i a)

/-! ## Shapes -/

theorem concurs_readRecord (r : RecordType) (hv : v.Writable (budget + 1)) (rest : Bytes) :
    Concurs rest (r.read (budget + 1) (write v ++ rest)) (r.ofValue v) := by
  change Concurs rest (readToken _ >>= _) _
  rw [v.readToken_write hv.short]
  cases v with
  | list items =>
    have hitems : ∀ v ∈ items, v.Short := fun v hmem => (hv.of_mem_list v hmem).short
    change Concurs rest (readRow r budget r.fields 0 items.length (writeItems items ++ rest) >>= _)
      (Row.ofItems r r.fields 0 (items.map Value.item) >>= _)
    refine (concurs_readRow r budget r.fields 0 hitems rest).bind fun row hrow => ?_
    obtain ⟨row, left⟩ := row
    have hleft := left_of_ofItems hrow
    rw [List.length_map] at hleft
    change Concurs rest (exactly (row, left) >>= _) (if left = 0 then .ok row else .error _)
    rw [exactly]
    by_cases hzero : left = 0
    · -- No item is left, so nothing of the list is.
      rw [if_pos hzero, if_pos hzero, List.drop_eq_nil_of_le (by omega)]
      exact .ok row rest
    · rw [if_neg hzero, if_neg hzero]
      exact .error _ _ _
  | object fields =>
    change Concurs rest (readDraft r.fields budget (.empty r.fields) fields.length
      (writeFields fields ++ rest) >>= _) (Draft.ofFields (.empty r.fields) fields >>= _)
    refine (concurs_readDraft hv.of_mem_object _ rest).bind fun d _ => ?_
    dsimp only
    cases d.complete with
    | ok row => exact .ok row rest
    | error m => exact .error _ _ _
  | null | bool | float => exact .error _ _ _
  | int n =>
    rw [Value.token]
    split <;> exact .error _ _ _
  | text s =>
    exact .refused rest (Value.text s).token (budget + 1) (Utf8.encode s ++ rest) (.record r.name) _

theorem concurs_readOctetList (hv : v.Writable (budget + 1)) (rest : Bytes) :
    Concurs rest (readOctets (budget + 1) (write v ++ rest)) (Shape.octets.ofValue v) := by
  change Concurs rest (readToken _ >>= _) _
  rw [v.readToken_write hv.short]
  cases v with
  | list items =>
    have hitems : ∀ v ∈ items, v.Short := fun v hmem => (hv.of_mem_list v hmem).short
    have h := concurs_readOctets budget hitems [] rest
    have hmap : (octetsOf items).map ([] ++ ·) = octetsOf items := by
      cases octetsOf items <;> rfl
    rw [List.reverse_nil, hmap] at h
    exact h
  | null | bool | float | object => exact .error _ _ _
  | int n =>
    rw [Value.token]
    split <;> exact .error _ _ _
  | text s =>
    exact .refused rest (Value.text s).token (budget + 1) (Utf8.encode s ++ rest) .sequence _

/-- A value is taken as an optional scalar as it is in a record. -/
theorem Shape.ofValue_optional (s : Scalar) (v : Value) :
    (Shape.optional s).ofValue v = (Slot.optional s).accept v.item := by
  by_cases hnil : v.token = .nil
  · obtain rfl := Value.eq_null_of_token hnil
    rfl
  · rw [Value.accept_optional hnil]
    cases v with
    | null => exact absurd rfl hnil
    | bool | int | float | text | list | object => rfl

/-- Of the bytes of a value a shape is read exactly if the value can be taken as the shape. -/
theorem concurs_readShape (s : Shape) (hv : v.Writable maxDepth) (rest : Bytes) :
    Concurs rest (s.read (write v ++ rest)) (s.ofValue v) := by
  cases s with
  | dynamic =>
    change Concurs rest (readValue maxDepth _) (.ok v)
    rw [reads_write hv]
    exact .ok v rest
  | scalar s => exact concurs_readScalar s maxDepth hv.short rest
  | optional s =>
    rw [Shape.ofValue_optional]
    exact concurs_readOptional s maxDepth hv.short rest
  | octets => exact concurs_readOctetList hv rest
  | record r => exact concurs_readRecord r hv rest

end FrameRpc
