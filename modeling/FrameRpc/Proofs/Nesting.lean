import FrameRpc.Error
import FrameRpc.Proofs.Normalising

/-!
# How deep values nest

Values are written however deep they nest, and read as far as there is budget to open containers. So
the reach of reading is exact (`decode_write`): of a value that does not nest deeper than `maxDepth`
the encoding is read back, whatever follows it; of any deeper one it is refused, as the reader comes
to a container that it may not open before it runs out of bytes or meets anything else
(`MessagePack.refuses_write`). Values of the other shapes hardly nest, and are always read back
(`reads_writeShape`).
-/

namespace FrameRpc

open MessagePack

/-! ## Values that are too deep -/

namespace Value

variable {items : List Value} {fields : Fields} {n : Nat}

theorem exists_of_lt_depthList (h : n < depthList items) : ∃ v ∈ items, n < v.depth := by
  by_contra hnone
  have hle : depthList items ≤ n :=
    depthList_le fun v hv => Nat.le_of_not_lt fun hlt => hnone ⟨v, hv, hlt⟩
  omega

theorem exists_of_lt_depthFields (h : n < depthFields fields) : ∃ e ∈ fields, n < e.2.depth := by
  by_contra hnone
  have hle : depthFields fields ≤ n :=
    depthFields_le fun e he => Nat.le_of_not_lt fun hlt => hnone ⟨e, he, hlt⟩
  omega

end Value

namespace MessagePack

variable {α : Type} {budget : Nat} {items : List Value} {fields : Fields} {e : ReadError}

/-- The reader refuses what begins with these bytes, whatever follows. -/
def Refuses (read : Reader α) (bs : Bytes) (e : ReadError) : Prop :=
  ∀ rest, read (bs ++ rest) = .error e

/-- Items are refused as soon as one of them is, if those before it are read. -/
theorem refuses_writeItems {read : Reader α}
    (h : ∀ v ∈ items, (∃ a, Reads read (write v) a) ∨ Refuses read (write v) e)
    (hsome : ∃ v ∈ items, Refuses read (write v) e) (done : List α) :
    Refuses (readManyOnto read done items.length) (writeItems items) e := by
  induction items generalizing done with
  | nil => exact absurd hsome.choose_spec.1 List.not_mem_nil
  | cons v items ih =>
    obtain ⟨hv, hitems⟩ := List.forall_mem_cons.1 h
    intro rest
    rw [writeItems, List.append_assoc]
    change (read _ >>= _) = _
    obtain ⟨u, hu, hrefuses⟩ := hsome
    rcases List.mem_cons.1 hu with rfl | hu
    · rw [hrefuses]
      rfl
    · rcases hv with ⟨a, ha⟩ | hv
      · rw [ha]
        exact ih hitems ⟨u, hu, hrefuses⟩ (a :: done) rest
      · rw [hv]
        rfl

theorem refuses_writeFields {read : Reader Value} (hnames : ∀ f ∈ fields, ShortText f.1)
    (h : ∀ f ∈ fields, (∃ a, Reads read (write f.2) a) ∨ Refuses read (write f.2) e)
    (hsome : ∃ f ∈ fields, Refuses read (write f.2) e) (first : Bool) (done : Fields) :
    Refuses (readEntries budget read first done fields.length) (writeFields fields) e := by
  induction fields generalizing first done with
  | nil => exact absurd hsome.choose_spec.1 List.not_mem_nil
  | cons f fields ih =>
    obtain ⟨name, v⟩ := f
    obtain ⟨hname, hnames⟩ := List.forall_mem_cons.1 hnames
    obtain ⟨hv, hfields⟩ := List.forall_mem_cons.1 h
    intro rest
    rw [writeFields, List.append_assoc, List.append_assoc]
    change (readName first budget _ >>= _) = _
    rw [reads_writeName first budget hname]
    change (read _ >>= _) = _
    obtain ⟨u, hu, hrefuses⟩ := hsome
    rcases List.mem_cons.1 hu with rfl | hu
    · rw [hrefuses]
      rfl
    · rcases hv with ⟨a, ha⟩ | hv
      · rw [ha]
        exact ih hnames hfields ⟨u, hu, hrefuses⟩ false (done.insert name a) rest
      · rw [hv]
        rfl

theorem refuses_list (hlength : items.length < lengthRange)
    (h : Refuses (readMany (readValue budget) items.length) (writeItems items) e) :
    Refuses (readValue (budget + 1)) (write (.list items)) e := by
  intro rest
  rw [write, List.append_assoc]
  change (readToken _ >>= _) = _
  rw [reads_listHead hlength]
  change (readMany (readValue budget) items.length _ >>= _) = _
  rw [h]
  rfl

theorem refuses_object (hlength : fields.length < lengthRange)
    (h : Refuses (readEntries budget (readValue budget) true [] fields.length)
      (writeFields fields) e) :
    Refuses (readValue (budget + 1)) (write (.object fields)) e := by
  intro rest
  rw [write, List.append_assoc]
  change (readToken _ >>= _) = _
  rw [reads_mapHead hlength]
  change (readEntries budget (readValue budget) true [] fields.length _ >>= _) = _
  rw [h]
  rfl

/-- What nests deeper than the budget allows is refused for its depth. -/
theorem refuses_write {v : Value} (hcanonical : v.Canonical) (hshort : v.Short)
    (h : budget < v.depth) : Refuses (readValue budget) (write v) .tooDeep := by
  induction budget generalizing v with
  | zero =>
    -- Any container is too deep.
    intro rest
    cases v with
    | list items =>
      rw [write, List.append_assoc]
      change (readToken _ >>= _) = _
      rw [reads_listHead hshort.1]
      rfl
    | object fields =>
      rw [write, List.append_assoc]
      change (readToken _ >>= _) = _
      rw [reads_mapHead hshort.1]
      rfl
    | null | bool | int | float | text => exact absurd h (Nat.not_lt_zero _)
  | succ budget ih =>
    -- Of what the container holds, something is too deep, and the rest is read or too deep as well.
    have hinside {v : Value} (hc : v.Canonical) (hs : v.Short) :
        (∃ a, Reads (readValue budget) (write v) a) ∨
          Refuses (readValue budget) (write v) .tooDeep :=
      (Nat.lt_or_ge budget v.depth).symm.imp (fun hle => ⟨v, reads_write ⟨hc, hle, hs⟩⟩) (ih hc hs)
    cases v with
    | list items =>
      have hitems : ∀ v ∈ items, v.Canonical ∧ v.Short := fun v hv =>
        ⟨Value.canonicalList_iff.1 hcanonical v hv, Value.shortItems_iff.1 hshort.2 v hv⟩
      obtain ⟨v, hv, hdeep⟩ := Value.exists_of_lt_depthList (Nat.lt_of_succ_lt_succ h)
      exact refuses_list hshort.1 (refuses_writeItems
        (fun v hv => hinside (hitems v hv).1 (hitems v hv).2)
        ⟨v, hv, ih (hitems v hv).1 (hitems v hv).2 hdeep⟩ [])
    | object fields =>
      have hfields : ∀ f ∈ fields, ShortText f.1 ∧ f.2.Canonical ∧ f.2.Short := fun f hf =>
        have hs := Value.shortFields_iff.1 hshort.2 f hf
        ⟨hs.1, Value.canonicalFields_iff.1 hcanonical.2 f hf, hs.2⟩
      obtain ⟨f, hf, hdeep⟩ := Value.exists_of_lt_depthFields (Nat.lt_of_succ_lt_succ h)
      exact refuses_object hshort.1 (refuses_writeFields (fun f hf => (hfields f hf).1)
        (fun f hf => hinside (hfields f hf).2.1 (hfields f hf).2.2)
        ⟨f, hf, ih (hfields f hf).2.1 (hfields f hf).2.2 hdeep⟩ true [])
    | null | bool | int | float | text => exact absurd h (Nat.not_lt_zero _)

end MessagePack

/-! ## Shapes -/

/-- The names of the fields are different, and they and their number fit length fields. -/
structure RecordType.Named (r : RecordType) : Prop where
  distinct : (r.fields.map RecordField.name).Nodup
  short : ∀ f ∈ r.fields, ShortText f.name
  length_lt : r.fields.length < lengthRange

namespace Shape

/-- If it is a record, its fields have names that can be written. -/
def Named : Shape → Prop
  | .record r => r.Named
  | _ => True

/-- All lengths fit length fields, and the objects inside are maps. -/
def Short : (s : Shape) → s.Carrier → Prop
  | .dynamic, v => v.Canonical ∧ v.Short
  | .scalar s, a => s.Short a
  | .optional s, o => (Slot.optional s).Short o
  | .octets, bs => bs.length < lengthRange
  | .record r, row => Row.Short r.fields row

end Shape

theorem reads_octets (budget : Nat) (bs : List UInt8) :
    Reads (readMany (Scalar.u8.read budget) bs.length) (bs.flatMap fun b => writeNat b.toNat)
      bs := by
  have hoctet : ∀ b ∈ bs, Reads (Scalar.u8.read budget) (writeNat b.toNat) b := fun b _ =>
    Scalar.u8.reads_write (a := b) trivial budget
  have h := reads_readManyOnto (f := id) hoctet []
  rwa [List.map_id] at h

/-- Values of the shapes other than `dynamic` are read back. -/
theorem reads_writeShape {s : Shape} (hs : s ≠ .dynamic) (hnamed : s.Named) {a : s.Carrier}
    (ha : s.Short a) : Reads s.read (s.write a) a := by
  cases s with
  | dynamic => exact absurd rfl hs
  | scalar s => exact s.reads_write ha maxDepth
  | optional s => exact s.reads_writeOptional ha maxDepth
  | octets =>
    intro rest
    change readOctets maxDepth ((listHead a.length ++ _) ++ rest) = _
    rw [List.append_assoc]
    change (readToken _ >>= _) = _
    rw [reads_listHead ha]
    exact reads_octets 1022 a rest
  | record r => exact reads_writeRecord hnamed.distinct hnamed.short hnamed.length_lt ha 1022

/-- **The reach of reading.** Whatever follows it, the encoding of a dynamic value, whose objects
    are maps, is read back if it nests at most `maxDepth` containers, and is refused for its depth
    otherwise; and the encoding of a value of any other shape is read back. -/
theorem decode_write :
    (∀ {v : Value}, v.Canonical → v.Short → ∀ rest : Bytes,
      decode .dynamic (MessagePack.write v ++ rest)
        = if v.depth ≤ maxDepth then .ok v else .error (.malformed 0 .tooDeep)) ∧
      ∀ {s : Shape}, s ≠ .dynamic → s.Named → ∀ {a : s.Carrier}, s.Short a → ∀ rest : Bytes,
        decode s (s.write a ++ rest) = .ok a := by
  refine ⟨fun {v} hcanonical hshort rest => ?_, fun {s} hs hnamed a ha rest => ?_⟩
  · rw [decode, Shape.read]
    split_ifs with hdepth
    · rw [reads_write ⟨hcanonical, hdepth, hshort⟩]
    · rw [refuses_write hcanonical hshort (Nat.lt_of_not_le hdepth)]
  · rw [decode, reads_writeShape hs hnamed ha]

/-- Null inside this many lists of one item. -/
def Value.nested : Nat → Value
  | 0 => .null
  | n + 1 => .list [nested n]

theorem Value.depth_nested (n : Nat) : (nested n).depth = n := by
  induction n with
  | zero => rfl
  | succ n ih => rw [nested, depth, depthList, depthList, ih, Nat.max_zero, Nat.add_comm]

theorem Value.canonical_nested (n : Nat) : (nested n).Canonical := by
  induction n with
  | zero => trivial
  | succ n ih => exact ⟨ih, trivial⟩

theorem Value.short_nested (n : Nat) : (nested n).Short := by
  induction n with
  | zero => trivial
  | succ n ih => exact ⟨show 1 < lengthRange by decide, ih, trivial⟩

/-- The last value that is read, the first that is too deep, and a header, each with a reserved
    marker behind it. -/
theorem decode_write_at_maxDepth :
    (∀ n, (Value.nested n).Canonical ∧ (Value.nested n).Short) ∧
      decode .dynamic (MessagePack.write (.nested 1023) ++ [0xC1]) = .ok (.nested 1023) ∧
      decode .dynamic (MessagePack.write (.nested 1024) ++ [0xC1])
        = .error (.malformed 0 .tooDeep) ∧
      Header.type.Named ∧ Row.Short Header.type.fields (Header.update "a1" false).toRow ∧
      decode (.record Header.type) ((Header.update "a1" false).write ++ [0xC1])
        = .ok (Header.update "a1" false).toRow := by
  let row := (Header.update "a1" false).toRow
  have hnamed : Header.type.Named := ⟨by decide, by decide, by decide⟩
  have hrow : Row.Short Header.type.fields row :=
    ⟨show ShortText "typh" by decide, trivial, show ShortText "a1" by decide, trivial, nofun,
      fun _ _ => trivial, trivial⟩
  obtain ⟨hdynamic, hshapes⟩ := decode_write
  have hread := hdynamic (Value.canonical_nested 1023) (Value.short_nested 1023) [0xC1]
  have hdeep := hdynamic (Value.canonical_nested 1024) (Value.short_nested 1024) [0xC1]
  rw [Value.depth_nested] at hread hdeep
  exact ⟨fun n => ⟨Value.canonical_nested n, Value.short_nested n⟩, hread, hdeep, hnamed, hrow,
    @hshapes (.record Header.type) Shape.noConfusion hnamed row hrow [0xC1]⟩

end FrameRpc
