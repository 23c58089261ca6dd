import FrameRpc.Proofs.Parts

/-!
# What stands as an index

A literal and each pair of a lookup carry an index on the wire, and any value at all may stand in
its place. `Indexing` says what decoding makes of each of them: an integer below `2 ^ 63` chooses
the entry that it counts to or is an unknown index, named as it is. An integer from `2 ^ 63` on is
refused like everything that is not an integer, although no entry has such an index.

* `Indexing.of_signed`: it is enough to say what comes of each signed word, and of none;
* `decodePairs_append`: the pairs of a lookup are decoded one part after the other, so that what
  stands in one of them matters only where the ones before it are valid;
* `indices_classified`: literals, and lookups at every pair, index like this;
* `unknown_index_unexpected`: past the signed words neither names the index that it does not know.
-/

namespace FrameRpc

namespace Schema

variable {α : Type}

/-- What a decoder of `count` entries makes of each value `w` in the place of an index, where
    `chosen` is what becomes of an entry, and `path` leads to the index. -/
structure Indexing (path : Path) (count : Nat) (chosen : Fin count → Transformed α)
    (read : Value → Transformed α) : Prop where
  /-- An integer that counts to an entry chooses it. -/
  declared (n : WideInt) (i : Fin count) (hi : n.toInt = i.val) (hn : n.toInt < indexRange) :
    read (.int n) = chosen i
  /-- An integer that counts to none is not known. -/
  unknown (n : WideInt) (hi : n.toInt < 0 ∨ count ≤ n.toInt) (hn : n.toInt < indexRange) :
    read (.int n) = .error ⟨path, .unknownIndex n.toInt count⟩
  /-- An integer that no signed word holds is not taken for one. -/
  wide (n : WideInt) (hn : indexRange ≤ n.toInt) :
    read (.int n) = .error ⟨path, .unexpected .integer .number⟩
  /-- Any other value is not an integer, floating-point numbers with an integral value included. -/
  foreign (w : Value) (hw : ∀ n, w ≠ .int n) :
    read w = .error ⟨path, .unexpected .integer w.kind⟩

/-! ## Reading an index -/

theorem signedInt?_wide {n : WideInt} (h : indexRange ≤ n.toInt) :
    (Value.int n).signedInt? = none :=
  if_neg (Int.not_lt.2 h)

theorem signedInt?_foreign {w : Value} (h : ∀ n, w ≠ .int n) : w.signedInt? = none := by
  cases w with
  | int n => exact absurd rfl (h n)
  | _ => rfl

/-- A decoder that goes by the signed word of an index indexes its entries. -/
theorem Indexing.of_signed {path : Path} {count : Nat} {chosen : Fin count → Transformed α}
    {read : Value → Transformed α}
    (hnone : ∀ w, w.signedInt? = none → read w = .error ⟨path, .unexpected .integer w.kind⟩)
    (hunknown : ∀ (w : Value) (i : Int), w.signedInt? = some i → i < 0 ∨ count ≤ i →
      read w = .error ⟨path, .unknownIndex i count⟩)
    (hchosen : ∀ (w : Value) (i : Fin count), w.signedInt? = some (i.val : Int) →
      read w = chosen i) : Indexing path count chosen read where
  declared n i hi hn := hchosen (.int n) i ((signedInt?_int hn).trans (congrArg some hi))
  unknown n hi hn := hunknown (.int n) n.toInt (signedInt?_int hn) hi
  wide n hn := hnone (.int n) (signedInt?_wide hn)
  foreign w hw := hnone w (signedInt?_foreign hw)

/-! ## Literals -/

theorem entryAt_unknown {entries : List α} {i : Int} (h : i < 0 ∨ entries.length ≤ i) :
    entryAt entries i = .error ⟨[], .unknownIndex i entries.length⟩ := by
  have hnone : (if 0 ≤ i then entries[i.toNat]? else none) = none := by
    split
    · exact List.getElem?_eq_none (by omega)
    · rfl
  rw [entryAt, hnone]
  rfl

theorem indexing_literal (values : List Value) :
    Indexing [] values.length (fun i => .ok (values.get i)) (decode (.literal values)) := by
  refine .of_signed (fun w hw => ?_) (fun w i hw hi => ?_) (fun w i hw => ?_)
  · rw [decode, entryOf, hw]
    rfl
  · rw [decode, entryOf, hw]
    exact entryAt_unknown hi
  · rw [decode, entryOf, hw]
    exact entryAt_declared i

/-! ## Pairs -/

section

variable {count : Nat} {entry : Nat → Value → Option (String × Transformed Value)}
  {index w : Value}

theorem decodePair_none (hindex : index.signedInt? = none) :
    decodePair count entry (.list [index, w])
      = .error ⟨[.index 0], .unexpected .integer index.kind⟩ := by
  simp only [decodePair, pairOf, Transformed.ok_bind, hindex]
  rfl

theorem decodePair_unknown {i : Int} (hindex : index.signedInt? = some i)
    (hentry : 0 ≤ i → entry i.toNat w = none) :
    decodePair count entry (.list [index, w]) = .error ⟨[.index 0], .unknownIndex i count⟩ := by
  have hnone : (if 0 ≤ i then entry i.toNat w else none) = none := by
    split
    · exact hentry ‹_›
    · rfl
  simp only [decodePair, pairOf, Transformed.ok_bind, hindex, hnone]
  rfl

theorem decodePair_declared {i : Nat} {name : String} {decoded : Transformed Value}
    (hindex : index.signedInt? = some (i : Int)) (hentry : entry i w = some (name, decoded)) :
    decodePair count entry (.list [index, w])
      = (decoded.under (.index 1)).map fun v => (name, v) := by
  simp only [decodePair, pairOf, Transformed.ok_bind, hindex, Int.natCast_nonneg, if_true,
    Int.toNat_natCast, hentry]

/-- Pairs are decoded one part of them after the other. -/
theorem decodePairs_append (before rest : List Value) (pos : Nat) (object : Fields) :
    decodePairs count entry pos (before ++ rest) object
      = decodePairs count entry pos before object >>= fun done =>
        decodePairs count entry (pos + before.length) rest done := by
  induction before generalizing pos object with
  | nil => rfl
  | cons pair before ih =>
    rw [List.cons_append, decodePairs_cons_eq, decodePairs_cons_eq, bind_assoc]
    simp only [ih, List.length_cons, Nat.add_assoc, Nat.add_comm 1]

end

/-! ## Lookups -/

/-- Decodes a lookup from the pair at `pos` on, into the fields that the pairs before it gave. -/
def decodeOn (fields : List (Declared Schema)) (pos : Nat) (pairs : List Value) (done : Fields) :
    Transformed Value :=
  (decodePairs fields.length (fun i w => decodeEntry fields i w) pos pairs done).map .object

/-- What becomes of the pair at `pos` that chooses a field: its value goes under the name, and
    the pairs `after` it are decoded. -/
def choose (fields : List (Declared Schema)) (pos : Nat) (w : Value) (after : List Value)
    (done : Fields) (i : Fin fields.length) : Transformed Value := do
  let v ← (((fields.get i).schema.decode w).under (.index 1)).under (.index pos)
  decodeOn fields (pos + 1) after (done.insert (fields.get i).name v)

section

variable {fields : List (Declared Schema)} {before after : List Value} {done : Fields}
  {index w : Value}

/-- Behind valid pairs, a lookup is decoded from what they gave. -/
theorem decode_lookup_append (hbefore : decode (.lookup fields) (.list before) = .ok (.object done))
    (rest : List Value) :
    decode (.lookup fields) (.list (before ++ rest)) = decodeOn fields before.length rest done := by
  have hdone : decodePairs fields.length (fun i w => decodeEntry fields i w) 0 before []
      = .ok done := by
    rw [decode, Transformed.map_eq_ok] at hbefore
    obtain ⟨done', hdone, heq⟩ := hbefore
    rw [hdone, Value.object.inj heq]
  rw [decode, decodePairs_append, hdone, Transformed.ok_bind, Nat.zero_add, decodeOn]

theorem decodeOn_error {pos : Nat} {pair : Value} {e : SchemaError}
    (h : decodePair fields.length (fun i w => decodeEntry fields i w) pair = .error e) :
    decodeOn fields pos (pair :: after) done = .error (e.under (.index pos)) := by
  rw [decodeOn, decodePairs_cons_eq, h]
  rfl

theorem decodeOn_declared {pos : Nat} (i : Fin fields.length)
    (hindex : index.signedInt? = some (i.val : Int)) :
    decodeOn fields pos (.list [index, w] :: after) done = choose fields pos w after done i := by
  have hentry : decodeEntry fields i w
      = some ((fields.get i).name, (fields.get i).schema.decode w) := by
    rw [decodeEntry_eq, List.getElem?_eq_getElem i.isLt]
    rfl
  rw [decodeOn, decodePairs_cons_eq, decodePair_declared hindex hentry, choose]
  cases (fields.get i).schema.decode w <;> rfl

/-- A lookup indexes its fields at the pair behind valid ones. -/
theorem indexing_lookup (hbefore : decode (.lookup fields) (.list before) = .ok (.object done))
    (w : Value) (after : List Value) :
    Indexing [.index before.length, .index 0] fields.length
      (choose fields before.length w after done)
      (fun index => decode (.lookup fields) (.list (before ++ .list [index, w] :: after))) := by
  simp only [decode_lookup_append hbefore]
  refine .of_signed (fun index hindex => ?_) (fun index i hindex hi => ?_)
    (fun index i hindex => decodeOn_declared i hindex)
  · exact decodeOn_error (decodePair_none hindex)
  · refine decodeOn_error (decodePair_unknown hindex fun _ => ?_)
    rw [decodeEntry_eq, List.getElem?_eq_none (by omega), Option.map_none]

end

/-- **Indices are classified.** A literal indexes its values, and a lookup indexes its fields at
    every pair that only valid ones stand before. So the one kind of index that is not told for what
    it is are the integers from `2 ^ 63` on (`Indexing.wide`). -/
theorem indices_classified (values : List Value) (fields : List (Declared Schema)) :
    Indexing [] values.length (fun i => .ok (values.get i)) (decode (.literal values)) ∧
    ∀ before done, decode (.lookup fields) (.list before) = .ok (.object done) → ∀ w after,
      Indexing [.index before.length, .index 0] fields.length
        (choose fields before.length w after done)
        (fun index => decode (.lookup fields) (.list (before ++ .list [index, w] :: after))) :=
  ⟨indexing_literal values, fun _ _ hbefore w after => indexing_lookup hbefore w after⟩

/-- Two marks, known by their indices. -/
def markFields : List (Declared Schema) :=
  [⟨"vet", .identity, true⟩, ⟨"new", .nullable .identity, true⟩]

/-- The least integer that a signed word holds. -/
def leastSigned : WideInt := ⟨-0x8000000000000000, by decide, by decide⟩

/-- The first integer that no signed word holds. -/
def firstWide : WideInt := ⟨0x8000000000000000, by decide, by decide⟩

/-- Behind a valid pair, the index 1 chooses the second mark, `-2 ^ 63` is not known, and null is
    not an integer. -/
theorem indices_classified_mark :
    decode (.lookup markFields) (.list [.list [.ofNat 0, .bool true]])
      = .ok (.object [("vet", .bool true)]) ∧
    decode (.lookup markFields) (.list [.list [.ofNat 0, .bool true], .list [.ofNat 1, .null]])
      = .ok (.object [("new", .null), ("vet", .bool true)]) ∧
    decode (.lookup markFields)
        (.list [.list [.ofNat 0, .bool true], .list [.int leastSigned, .null]])
      = .error ⟨[.index 1, .index 0], .unknownIndex (-0x8000000000000000) 2⟩ ∧
    decode (.lookup markFields) (.list [.list [.ofNat 0, .bool true], .list [.null, .null]])
      = .error ⟨[.index 1, .index 0], .unexpected .integer .nil⟩ := by
  have hbefore : decode (.lookup markFields) (.list [.list [.ofNat 0, .bool true]])
      = .ok (.object [("vet", .bool true)]) := rfl
  have hsecond := (indices_classified [] markFields).2 _ _ hbefore .null []
  have hchosen : choose markFields 1 .null [] [("vet", .bool true)] ⟨1, by decide⟩
      = .ok (.object [("new", .null), ("vet", .bool true)]) := rfl
  refine ⟨hbefore, ?_, ?_, ?_⟩
  · exact (hsecond.declared (.ofUnsigned 1) ⟨1, by decide⟩ rfl (by decide)).trans hchosen
  · exact hsecond.unknown leastSigned (.inl (by decide)) (by decide)
  · exact hsecond.foreign .null fun _ h => (nomatch h)

/-- Neither a literal nor a lookup names the index `2 ^ 63`, which it does not know. -/
theorem unknown_index_unexpected :
    decode (.literal [.text "tank"]) (.int firstWide) = .error ⟨[], .unexpected .integer .number⟩ ∧
    decode (.literal [.text "tank"]) (.int firstWide)
      ≠ .error ⟨[], .unknownIndex 0x8000000000000000 1⟩ ∧
    decode (.lookup markFields) (.list [.list [.int firstWide, .null]])
      = .error ⟨[.index 0, .index 0], .unexpected .integer .number⟩ ∧
    decode (.lookup markFields) (.list [.list [.int firstWide, .null]])
      ≠ .error ⟨[.index 0, .index 0], .unknownIndex 0x8000000000000000 2⟩ := by
  have hliteral := (indexing_literal [.text "tank"]).wide firstWide (by decide)
  have hempty : decode (.lookup markFields) (.list []) = .ok (.object []) := rfl
  have hlookup := (indexing_lookup hempty .null []).wide firstWide (by decide)
  refine ⟨hliteral, fun h => ?_, hlookup, fun h => ?_⟩
  · nomatch hliteral.symm.trans h
  · nomatch hlookup.symm.trans h

end Schema

end FrameRpc
