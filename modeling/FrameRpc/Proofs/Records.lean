import FrameRpc.Proofs.Extent
import FrameRpc.Proofs.ReadBack
import FrameRpc.Frame.Header

/-!
# Records are read back

A record is written as a map from its field names to the values of the fields that are written; a
field that is left out stands for its value when absent. Read back, the entries fill a draft one
field after the other (`reads_entries`), and the draft completes to the record that they stand for
(`Row.Sent`, `Draft.complete_fill`). So a record is read back as it was (`reads_writeRecord`), if
its field names are different and its texts short enough.
-/

namespace FrameRpc

open MessagePack

/-! ## Scalars -/

namespace Scalar

/-- A text that is short enough; anything else is. -/
def Short : (s : Scalar) → s.Carrier → Prop
  | .text, t => ShortText t
  | _, _ => True

end Scalar

/-- A token that is a number or a truth value. -/
def MessagePack.Token.isScalar : Token → Bool
  | .bool _ | .unsigned _ | .signed _ | .float _ => true
  | _ => false

theorem isScalar_of_token {m : Marker} {t : Token} {bs rest : Bytes}
    (h : m.token bs = .ok (t, rest)) (ht : t.isScalar = true) : m.isScalar = true := by
  cases m with
  | reserved => nomatch h
  | fixText _ | fixList _ | fixMap _ | fixExtension _ => cases h; nomatch ht
  | text w | bytes w | list w | map w | extension w =>
    simp only [Marker.token] at h
    cases hf : takeField w bs with
    | error e => rw [hf] at h; nomatch h
    | ok p => rw [hf] at h; cases h; nomatch ht
  | _ => rfl

namespace Scalar

/-- Bytes at whose front a scalar stands: a token that is not nil, and with it the item that is the
    scalar. -/
def Stands (s : Scalar) (a : s.Carrier) (bs rest : Bytes) : Prop :=
  ∃ t mid item, readToken bs = .ok (t, mid) ∧ t ≠ .nil ∧
    (s.isNumeric = true → t.isScalar = true) ∧
    (∀ budget, t.item budget mid = .ok (item, rest)) ∧ s.accept item = .ok a

variable {s : Scalar} {a : s.Carrier} {bs rest : Bytes}

theorem Stands.read_eq (h : s.Stands a bs rest) (budget : Nat) :
    s.read budget bs = .ok (a, rest) := by
  obtain ⟨t, mid, item, htoken, -, hscalar, hitem, haccept⟩ := h
  obtain ⟨⟨m, bs'⟩, hm, ht⟩ := exists_of_bind_eq_ok htoken
  change m.token bs' = .ok (t, mid) at ht
  have hrefuse : (s.isNumeric && !m.isScalar) = false := by
    cases hs : s.isNumeric with
    | false => rfl
    | true =>
      rw [isScalar_of_token ht (hscalar hs)]
      rfl
  change (takeMarker bs >>= _) = _
  rw [hm]
  change (if (s.isNumeric && !m.isScalar) = true then _ else m.token bs' >>= _) = _
  rw [hrefuse, if_neg Bool.false_ne_true, ht]
  change (t.item budget mid >>= _) = _
  rw [hitem, bind_ok]
  simp only [haccept]
  rfl

/-- What is not nil is read as something. -/
theorem readOptional_eq {mid : Bytes} {t : Token}
    (ht : readToken bs = .ok (t, mid)) (hne : t ≠ .nil) (budget : Nat) :
    readOptional s budget bs = s.read budget bs >>= fun p => .ok (some p.1, p.2) := by
  obtain ⟨⟨m, bs'⟩, hm, ht⟩ := exists_of_bind_eq_ok ht
  change (takeMarker bs >>= _) = _
  rw [hm]
  cases m with
  | nil => exact absurd (Prod.mk.inj (Except.ok.inj ht)).1.symm hne
  | _ => rfl

theorem Stands.readOptional_eq (h : s.Stands a bs rest) (budget : Nat) :
    readOptional s budget bs = .ok (some a, rest) := by
  have hread := h.read_eq budget
  obtain ⟨t, mid, -, htoken, hnil, -⟩ := h
  rw [Scalar.readOptional_eq htoken hnil, hread]
  rfl

/-- A number that is written as a token stands there. -/
theorem stands_of_token {t : Token} {item : Item} (htoken : Reads readToken bs t)
    (hnil : t ≠ .nil) (hscalar : t.isScalar = true)
    (hitem : ∀ budget rest, t.item budget rest = .ok (item, rest))
    (haccept : s.accept item = .ok a) (rest : Bytes) : s.Stands a (bs ++ rest) rest :=
  ⟨t, rest, item, htoken rest, hnil, fun _ => hscalar, fun budget => hitem budget rest, haccept⟩

theorem stands_writeText {t : String} (h : ShortText t)
    (hnumeric : s.isNumeric = false) (haccept : s.accept (.text t) = .ok a) (rest : Bytes) :
    s.Stands a (writeText t ++ rest) rest := by
  refine ⟨_, _, .text t, readToken_writeText h rest, Token.noConfusion, ?_, ?_, haccept⟩
  · rw [hnumeric]
    exact fun h => Bool.noConfusion h
  · exact fun budget => item_text t budget rest

theorem shortText_tag (a : Action) : ShortText a.tag := by
  cases a <;> decide

theorem accept_ofNat {n : Nat} (h : n < 0x10000000000000000) {low : Int} (hlow : low ≤ 0)
    (high : Int) (hhigh : n < high) (expected : Expected) :
    (Item.unsigned (UInt64.ofNat n)).intWithin low high expected = .ok n := by
  have hn : (UInt64.ofNat n).toNat = n := by
    rw [UInt64.toNat_ofNat']
    exact Nat.mod_eq_of_lt h
  rw [Item.intWithin, Item.int?, hn]
  exact if_pos ⟨by omega, hhigh⟩

/-- A scalar stands where it is written. -/
theorem stands_write (h : s.Short a) (rest : Bytes) : s.Stands a (s.write a ++ rest) rest := by
  cases s with
  | u8 =>
    have hlt := a.toNat_lt
    refine stands_of_token (reads_writeNat (by omega)) Token.noConfusion rfl (fun _ _ => rfl) ?_
      rest
    rw [accept, accept_ofNat (by omega) (by omega) 0x100 (by omega)]
    exact congrArg Except.ok UInt8.ofNat_toNat
  | u32 =>
    have hlt := a.toNat_lt
    refine stands_of_token (reads_writeNat (by omega)) Token.noConfusion rfl (fun _ _ => rfl) ?_
      rest
    rw [accept, accept_ofNat (by omega) (by omega) 0x100000000 (by omega)]
    exact congrArg Except.ok UInt32.ofNat_toNat
  | i64 =>
    rw [write, writeInt.eq_def]
    have hlower := a.le_toInt
    have hupper := a.toInt_lt
    cases hn : a.toInt with
    | ofNat k =>
      rw [hn, Int.ofNat_eq_natCast] at hupper
      refine stands_of_token (reads_writeNat (by omega)) Token.noConfusion rfl (fun _ _ => rfl) ?_
        rest
      rw [accept, accept_ofNat (by omega) (by omega) 0x8000000000000000 (by omega)]
      change Except.ok (Int64.ofInt (Int.ofNat k)) = _
      rw [← hn, Int64.ofInt_toInt]
    | negSucc k =>
      rw [hn] at hlower
      refine stands_of_token (reads_writeNegative (by omega)) Token.noConfusion rfl
        (fun _ _ => rfl) ?_ rest
      rw [← hn, Int64.ofInt_toInt, accept, Item.intWithin, Item.int?]
      change (if _ then _ else _ : Except Mismatch Int).map Int64.ofInt = _
      rw [if_pos ⟨a.le_toInt, a.toInt_lt⟩]
      exact congrArg Except.ok (Int64.ofInt_toInt a)
  | f64 =>
    exact stands_of_token (reads_writeFloat a) Token.noConfusion rfl (fun _ _ => rfl) rfl rest
  | bool =>
    exact stands_of_token (reads_writeBool a) Token.noConfusion rfl (fun _ _ => rfl) rfl rest
  | text => exact stands_writeText h rfl rfl rest
  | action =>
    refine stands_writeText (shortText_tag a) rfl ?_ rest
    change Action.ofText a.tag = _
    rw [Action.ofText, Action.ofTag?_tag]

theorem reads_write (h : s.Short a) (budget : Nat) : Reads (s.read budget) (s.write a) a :=
  fun rest => (stands_write h rest).read_eq budget

theorem reads_writeOptional {o : Option s.Carrier} (h : ∀ a, o = some a → s.Short a)
    (budget : Nat) : Reads (readOptional s budget) (writeOptional s o) o := by
  intro rest
  cases o with
  | none => rfl
  | some a => exact (stands_write (h a rfl) rest).readOptional_eq budget

end Scalar

/-! ## Slots -/

namespace Slot

/-- A slot that holds a short scalar, or nothing. -/
def Short : (k : Slot) → k.Carrier → Prop
  | .required s, a => s.Short a
  | .defaulted s _, a => s.Short a
  | .optional s, o => ∀ a, o = some a → s.Short a

/-- A slot that is written is read back. -/
theorem reads_write? {k : Slot} {a : k.Carrier} (h : k.Short a) {bs : Bytes}
    (hbs : k.write? a = some bs) (budget : Nat) : Reads (k.read budget) bs a := by
  cases k with
  | required s =>
    cases hbs
    exact s.reads_write h budget
  | defaulted s _ =>
    cases hbs
    exact s.reads_write h budget
  | optional s =>
    cases a with
    | none => nomatch hbs
    | some a =>
      cases hbs
      exact s.reads_writeOptional h budget

/-- A slot that is left out holds what it stands for when absent. -/
theorem absent_of_write?_eq_none {k : Slot} {a : k.Carrier} (h : k.write? a = none) :
    k.absent = some a := by
  cases k with
  | required s => nomatch h
  | defaulted s _ => nomatch h
  | optional s =>
    cases a with
    | none => rfl
    | some a => nomatch h

end Slot

/-! ## Entries -/

/-- A field of a record and its value. -/
abbrev Entry (fields : List RecordField) :=
  (i : Fin fields.length) × (fields.get i).slot.Carrier

namespace Entry

variable {fields : List RecordField}

theorem zero_lt_length (f : RecordField) (fields : List RecordField) :
    0 < (f :: fields).length := Nat.zero_lt_succ fields.length

/-- The entry of the first field. -/
def first {f : RecordField} (a : f.slot.Carrier) : Entry (f :: fields) :=
  ⟨⟨0, zero_lt_length f fields⟩, a⟩

/-- The entry with another field in front. -/
def later {f : RecordField} (e : Entry fields) : Entry (f :: fields) := ⟨e.1.succ, e.2⟩

/-- The encoding, the name before the value. -/
def write (e : Entry fields) : Bytes :=
  writeText (fields.get e.1).name ++ ((fields.get e.1).slot.write? e.2).getD []

/-- An entry of a short name whose value is read back where it is written. -/
structure Readable (budget : Nat) (e : Entry fields) : Prop where
  short : ShortText (fields.get e.1).name
  reads : Reads ((fields.get e.1).slot.read budget)
    (((fields.get e.1).slot.write? e.2).getD []) e.2

end Entry

/-- The entries of the fields that are written. -/
def Row.entries : (fields : List RecordField) → Row fields → List (Entry fields)
  | [], _ => []
  | f :: fs, (a, row) =>
    match f.slot.write? a with
    | some _ => .first a :: (Row.entries fs row).map .later
    | none => (Row.entries fs row).map .later

namespace Row

/-- Every field is short. -/
def Short : (fields : List RecordField) → Row fields → Prop
  | [], _ => True
  | f :: fs, (a, row) => f.slot.Short a ∧ Row.Short fs row

theorem count_eq : (fields : List RecordField) → (row : Row fields) →
    Row.count fields row = (Row.entries fields row).length
  | [], _ => rfl
  | f :: fs, (a, row) => by
    rw [Row.count, Row.entries, Row.count_eq fs row]
    cases f.slot.write? a with
    | none => rw [List.length_map]; exact Nat.zero_add _
    | some bs => rw [List.length_cons, List.length_map]; exact Nat.add_comm _ _

theorem count_le : (fields : List RecordField) → (row : Row fields) →
    Row.count fields row ≤ fields.length
  | [], _ => Nat.le_refl 0
  | f :: fs, (a, row) => by
    rw [Row.count, List.length_cons, Nat.add_comm]
    refine Nat.add_le_add (count_le fs row) ?_
    split <;> omega

theorem writeFields_eq : (fields : List RecordField) → (row : Row fields) →
    Row.writeFields fields row = (Row.entries fields row).flatMap Entry.write
  | [], _ => rfl
  | f :: fs, (a, row) => by
    have hlater : ((Row.entries fs row).map (Entry.later (f := f))).flatMap Entry.write
        = Row.writeFields fs row := by
      rw [List.flatMap_map, Row.writeFields_eq fs row]
      rfl
    rw [Row.writeFields, Row.entries]
    cases hbs : f.slot.write? a with
    | none => exact hlater.symm
    | some bs =>
      have hwrite : (Entry.first a : Entry (f :: fs)).write = writeText f.name ++ bs := by
        change writeText f.name ++ (f.slot.write? a).getD [] = _
        rw [hbs]
        rfl
      simp only [List.flatMap_cons, hlater, hwrite, List.append_assoc]

theorem mem_entries_cons {f : RecordField} {fs : List RecordField} {a : f.slot.Carrier}
    {row : Row fs} {e : Entry (f :: fs)} :
    e ∈ Row.entries (f :: fs) (a, row) ↔
      ((f.slot.write? a).isSome ∧ e = .first a) ∨ ∃ e₀ ∈ Row.entries fs row, e₀.later = e := by
  rw [Row.entries]
  cases f.slot.write? a with
  | none => simp only [List.mem_map, Option.isSome_none, Bool.false_eq_true, false_and, false_or]
  | some bs => simp only [List.mem_cons, List.mem_map, Option.isSome_some, true_and]

/-- The entries of short fields of short names can be read. -/
theorem readable_of_mem_entries (budget : Nat) : {fields : List RecordField} → {row : Row fields} →
    (∀ f ∈ fields, ShortText f.name) → Row.Short fields row →
    ∀ e ∈ Row.entries fields row, e.Readable budget
  | [], _, _, _, _, he => absurd he List.not_mem_nil
  | f :: fs, (a, row), hnames, hshort, e, he => by
    obtain ⟨hsome, rfl⟩ | ⟨e₀, he₀, rfl⟩ := mem_entries_cons.1 he
    · obtain ⟨bs, hbs⟩ := Option.isSome_iff_exists.1 hsome
      refine ⟨hnames f List.mem_cons_self, ?_⟩
      change Reads (f.slot.read budget) ((f.slot.write? a).getD []) a
      rw [hbs]
      exact Slot.reads_write? hshort.1 hbs budget
    · obtain ⟨hname, hreads⟩ := readable_of_mem_entries budget
        (fun g hg => hnames g (List.mem_cons_of_mem f hg)) hshort.2 e₀ he₀
      exact ⟨hname, hreads⟩

theorem nodup_entries : (fields : List RecordField) → (row : Row fields) →
    ((Row.entries fields row).map Sigma.fst).Nodup
  | [], _ => List.nodup_nil
  | f :: fs, (a, row) => by
    have hmap : ((Row.entries fs row).map (Entry.later (f := f))).map Sigma.fst
        = ((Row.entries fs row).map Sigma.fst).map Fin.succ := by
      rw [List.map_map, List.map_map]
      rfl
    have hnodup : (((Row.entries fs row).map Sigma.fst).map Fin.succ).Nodup :=
      List.Pairwise.map _ (fun _ _ h hsucc => h (Fin.succ_inj.1 hsucc)) (nodup_entries fs row)
    rw [Row.entries]
    cases f.slot.write? a with
    | none => exact hmap ▸ hnodup
    | some bs =>
      rw [List.map_cons, hmap, List.nodup_cons]
      refine ⟨fun hmem => ?_, hnodup⟩
      obtain ⟨i, -, hi⟩ := List.mem_map.1 hmem
      exact Fin.succ_ne_zero i hi

/-- The value of a field. -/
def get : {fields : List RecordField} → Row fields → (i : Fin fields.length) →
    (fields.get i).slot.Carrier
  | _ :: _, (a, _), ⟨0, _⟩ => a
  | _ :: _, (_, row), ⟨i + 1, h⟩ => get row ⟨i, Nat.lt_of_succ_lt_succ h⟩

/-- Entries, in any order, that stand for the record: of each field that has to be present, and of
    none more than one. -/
structure Sent {fields : List RecordField} (row : Row fields) (es : List (Entry fields)) :
    Prop where
  distinct : (es.map Sigma.fst).Nodup
  value : ∀ e ∈ es, e.2 = row.get e.1
  omitted : ∀ i, i ∉ es.map Sigma.fst → (fields.get i).slot.absent = some (row.get i)

theorem value_of_mem_entries : {fields : List RecordField} → {row : Row fields} →
    ∀ e ∈ Row.entries fields row, e.2 = row.get e.1
  | [], _, _, he => absurd he List.not_mem_nil
  | f :: fs, (a, row), e, he => by
    obtain ⟨-, rfl⟩ | ⟨e₀, he₀, rfl⟩ := mem_entries_cons.1 he
    · rfl
    · exact value_of_mem_entries e₀ he₀

theorem absent_of_notMem_entries : {fields : List RecordField} → {row : Row fields} →
    (i : Fin fields.length) → i ∉ (Row.entries fields row).map Sigma.fst →
    (fields.get i).slot.absent = some (row.get i)
  | f :: fs, (a, row), ⟨0, _⟩, hi => by
    refine Slot.absent_of_write?_eq_none (Option.not_isSome_iff_eq_none.1 fun hsome => hi ?_)
    exact List.mem_map_of_mem (f := Sigma.fst) (mem_entries_cons.2 (.inl ⟨hsome, rfl⟩))
  | f :: fs, (a, row), ⟨i + 1, h⟩, hi => by
    refine @absent_of_notMem_entries fs row ⟨i, Nat.lt_of_succ_lt_succ h⟩ fun hmem => hi ?_
    obtain ⟨e₀, he₀, hfst⟩ := List.mem_map.1 hmem
    exact List.mem_map.2 ⟨Entry.later e₀, mem_entries_cons.2 (.inr ⟨e₀, he₀, rfl⟩),
      congrArg Fin.succ hfst⟩

/-- The entries that are written stand for the record. -/
theorem sent_entries (fields : List RecordField) (row : Row fields) :
    row.Sent (Row.entries fields row) :=
  ⟨nodup_entries fields row, value_of_mem_entries, absent_of_notMem_entries⟩

end Row

/-! ## Drafts -/

namespace Draft

variable {fields : List RecordField}

/-- Sets the fields of entries, one after the other. -/
def fill (d : Draft fields) (es : List (Entry fields)) : Draft fields :=
  es.foldl (fun d e => d.set e.1 e.2) d

theorem set_self (d : Draft fields) (i : Fin fields.length) (a : (fields.get i).slot.Carrier) :
    d.set i a i = some a := dif_pos rfl

theorem set_of_ne (d : Draft fields) {i j : Fin fields.length} (a : (fields.get i).slot.Carrier)
    (h : j ≠ i) : d.set i a j = d j := dif_neg h

/-- A draft completes to a record when its first field is set or may be absent, and the later ones
    complete. -/
theorem complete_cons {f : RecordField} {d : Draft (f :: fields)} {a : f.slot.Carrier}
    {row : Row fields}
    (hzero : d ⟨0, Nat.zero_lt_succ fields.length⟩ = some a ∨
      d ⟨0, Nat.zero_lt_succ fields.length⟩ = none ∧ f.slot.absent = some a)
    (hsucc : Draft.complete (fun i : Fin fields.length => d i.succ) = .ok row) :
    d.complete = .ok (a, row) := by
  rw [complete]
  rcases hzero with hzero | ⟨hzero, habsent⟩
  · simp only [hzero]
    change (Draft.complete (fun i : Fin fields.length => d i.succ) >>= _) = _
    rw [hsucc]
    rfl
  · simp only [hzero, habsent]
    change (Draft.complete (fun i : Fin fields.length => d i.succ) >>= _) = _
    rw [hsucc]
    rfl

theorem complete_of_forall : {fields : List RecordField} → {row : Row fields} →
    {d : Draft fields} →
    (∀ i, d i = some (row.get i) ∨ d i = none ∧ (fields.get i).slot.absent = some (row.get i)) →
    d.complete = .ok row
  | [], (), _, _ => rfl
  | f :: fs, (_, row), _, h =>
    complete_cons (h ⟨0, Entry.zero_lt_length f fs⟩)
      (@complete_of_forall fs row _ fun i => h i.succ)

/-- A field has its value in the record if there is an entry for it, and is as it was if not. -/
theorem fill_apply {row : Row fields} {es : List (Entry fields)}
    (hvalue : ∀ e ∈ es, e.2 = row.get e.1) (d : Draft fields) (i : Fin fields.length) :
    i ∈ es.map Sigma.fst ∧ d.fill es i = some (row.get i) ∨
      i ∉ es.map Sigma.fst ∧ d.fill es i = d i := by
  induction es generalizing d with
  | nil => exact .inr ⟨List.not_mem_nil, rfl⟩
  | cons e es ih =>
    obtain ⟨he, hes⟩ := List.forall_mem_cons.1 hvalue
    rcases ih hes (d.set e.1 e.2) with ⟨hmem, hget⟩ | ⟨hmem, hget⟩
    · exact .inl ⟨List.mem_cons_of_mem e.1 hmem, hget⟩
    · by_cases hi : i = e.1
      · subst hi
        exact .inl ⟨List.mem_cons_self, hget.trans ((set_self d e.1 e.2).trans (congrArg some he))⟩
      · exact .inr ⟨List.not_mem_cons_of_ne_of_not_mem hi hmem, hget.trans (set_of_ne d e.2 hi)⟩

/-- Entries that stand for a record complete to it. -/
theorem complete_fill {row : Row fields} {es : List (Entry fields)} (h : row.Sent es) :
    ((empty fields).fill es).complete = .ok row := by
  refine complete_of_forall fun i => ?_
  rcases fill_apply h.value (empty fields) i with ⟨-, hget⟩ | ⟨hmem, hget⟩
  · exact .inl hget
  · exact .inr ⟨hget, h.omitted i hmem⟩

end Draft

/-! ## Reading entries -/

variable {fields : List RecordField}

/-- Of different names, each belongs to its own field. -/
theorem fieldWhere_name (hnames : (fields.map RecordField.name).Nodup) (i : Fin fields.length) :
    fieldWhere (· == (fields.get i).name) fields = some i := by
  rw [fieldWhere, List.findFinIdx?_eq_some_iff]
  refine ⟨beq_self_eq_true _, fun j hj heq => ?_⟩
  have hji := List.pairwise_iff_getElem.1 (List.pairwise_map.1 hnames) j i
    (Nat.lt_trans hj i.2) i.2 hj
  exact hji (eq_of_beq heq)

theorem reads_readKey (fields : List RecordField) (budget : Nat) {name : String}
    (hshort : ShortText name) :
    Reads (readKey fields budget) (writeText name) (fieldWhere (· == name) fields) := by
  intro rest
  change (readToken _ >>= _) = _
  rw [readToken_writeText hshort]
  change (Token.item _ _ _ >>= _) = _
  rw [item_text]
  rfl

section

variable {budget n : Nat} {d : Draft fields} {i : Fin fields.length} {bs : Bytes}

/-- A field that the draft does not have is read into it. -/
theorem readDraft_field (hnames : (fields.map RecordField.name).Nodup)
    (hshort : ShortText (fields.get i).name) {a : (fields.get i).slot.Carrier}
    (hreads : Reads ((fields.get i).slot.read budget) bs a) (hd : d i = none) (rest : Bytes) :
    readDraft fields budget d (n + 1) (writeText (fields.get i).name ++ (bs ++ rest))
      = readDraft fields budget (d.set i a) n rest := by
  change (readKey fields budget _ >>= _) = _
  rw [reads_readKey fields budget hshort, fieldWhere_name hnames]
  change (if (d i).isSome = true then _ else (fields.get i).slot.read budget _ >>= _) = _
  rw [hd, if_neg (by exact Bool.false_ne_true), hreads]
  rfl

/-- A field that the draft has already is refused at its name. -/
theorem readDraft_duplicate (hnames : (fields.map RecordField.name).Nodup)
    (hshort : ShortText (fields.get i).name) (hd : (d i).isSome) (rest : Bytes) :
    readDraft fields budget d (n + 1) (writeText (fields.get i).name ++ rest)
      = .error (.mismatch (.duplicateField (fields.get i).name)) := by
  change (readKey fields budget _ >>= _) = _
  rw [reads_readKey fields budget hshort, fieldWhere_name hnames]
  exact if_pos hd

/-- What belongs to no field is passed over. -/
theorem readDraft_other {name : String} (hshort : ShortText name)
    (hname : fieldWhere (· == name) fields = none) (hskip : Reads (skipValue budget) bs ())
    (rest : Bytes) :
    readDraft fields budget d (n + 1) (writeText name ++ (bs ++ rest))
      = readDraft fields budget d n rest := by
  change (readKey fields budget _ >>= _) = _
  rw [reads_readKey fields budget hshort, hname]
  change (skipValue budget _ >>= _) = _
  rw [hskip]
  rfl

end

/-- Entries of different fields, none of which the draft has, are read into the draft. -/
theorem reads_entries (hnames : (fields.map RecordField.name).Nodup) {budget : Nat}
    {es : List (Entry fields)} (hreadable : ∀ e ∈ es, e.Readable budget)
    (hnodup : (es.map Sigma.fst).Nodup) {d : Draft fields} (hd : ∀ e ∈ es, d e.1 = none) :
    Reads (readDraft fields budget d es.length) (es.flatMap Entry.write) (d.fill es) := by
  induction es generalizing d with
  | nil => exact fun _ => rfl
  | cons e es ih =>
    obtain ⟨he, hreadable⟩ := List.forall_mem_cons.1 hreadable
    obtain ⟨hde, hd⟩ := List.forall_mem_cons.1 hd
    rw [List.map_cons, List.nodup_cons] at hnodup
    intro rest
    rw [List.flatMap_cons, Entry.write, List.append_assoc, List.append_assoc, List.length_cons,
      readDraft_field hnames he.short he.reads hde]
    refine ih hreadable hnodup.2 (fun e' he' => ?_) rest
    -- No entry that follows is of the field that is set.
    have hne : e'.1 ≠ e.1 := fun h => hnodup.1 (h ▸ List.mem_map_of_mem he')
    rw [Draft.set_of_ne d e.2 hne, hd e' he']

/-- A map whose entries are read into a draft that completes to a record is read as that record. -/
theorem reads_map {r : RecordType} {budget n : Nat} {head entries : Bytes} {d : Draft r.fields}
    {row : Row r.fields} (hhead : Reads readToken head (.map n))
    (hentries : Reads (readDraft r.fields budget (.empty r.fields) n) entries d)
    (hrow : d.complete = .ok row) : Reads (r.read (budget + 1)) (head ++ entries) row := by
  intro rest
  rw [List.append_assoc]
  change (readToken _ >>= _) = _
  rw [hhead]
  change (readDraft r.fields budget (.empty r.fields) n _ >>= _) = _
  rw [hentries, bind_ok]
  simp only [hrow]
  rfl

/-- A record of short fields under different short names is read back. -/
theorem reads_writeRecord {r : RecordType} (hnames : (r.fields.map RecordField.name).Nodup)
    (hshort : ∀ f ∈ r.fields, ShortText f.name) (hcount : r.fields.length < lengthRange)
    {row : Row r.fields} (hrow : row.Short r.fields) (budget : Nat) :
    Reads (r.read (budget + 1)) (r.write row) row := by
  have hhead := reads_mapHead (Nat.lt_of_le_of_lt (Row.count_le r.fields row) hcount)
  have hentries := reads_entries hnames (Row.readable_of_mem_entries budget hshort hrow)
    (Row.nodup_entries r.fields row) (d := .empty r.fields) (fun _ _ => rfl)
  rw [RecordType.write, Row.writeFields_eq]
  rw [← Row.count_eq] at hentries
  exact reads_map hhead hentries (Draft.complete_fill (Row.sent_entries r.fields row))

/-! ## Headers -/

namespace Header

/-- The texts of a header are short enough for their length fields. -/
structure Short (h : Header) : Prop where
  protocol : ShortText h.protocol
  id : ShortText h.id
  handler : ∀ handler, h.handler = some handler → ShortText handler

/-- A header is read back as it was written. -/
theorem reads_write {h : Header} (hshort : h.Short) : Reads Header.read h.write h := by
  intro rest
  have hrow : Row.Short type.fields h.toRow :=
    ⟨hshort.protocol, trivial, hshort.id, trivial, hshort.handler, fun _ _ => trivial, trivial⟩
  have hnames : ∀ f ∈ type.fields, ShortText f.name := by decide
  change (type.read (1022 + 1) _ >>= _) = _
  rw [Header.write, reads_writeRecord (by decide) hnames (by decide) hrow]
  rfl

end Header

end FrameRpc
