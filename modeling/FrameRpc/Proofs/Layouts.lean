import FrameRpc.Error
import FrameRpc.Proofs.Converting
import FrameRpc.Proofs.Grammar
import FrameRpc.Proofs.Nesting
import Mathlib.Data.List.Duplicate

/-!
# Layouts of records

A record need not be sent as it is written here. Other senders write its fields in any order,
write nil for an optional field that is unset, or use wider map heads than they have to; and newer
ones send entries under names that are no field's. What is sent is a list of pieces (`Piece`), and
it stands for a record if its fields do (`Row.Sent`), whatever stands between them.

Reading takes one piece after the other: a field that is new goes into the draft, an entry of
another name is passed over, and a field that the draft has already is refused at its name, before
its value is looked at. So from pieces of different fields the draft is filled (`reads_pieces`), and
from pieces that repeat a field nothing is read (`refuses_pieces`). A header that is read is then
validated, so that a repeated field is an error also where the tag or the version is wrong
(`Header.decode_of_pieces`).
-/

namespace FrameRpc

open MessagePack

/-! ## Pieces -/

namespace Slot

/-- The value of an entry, which is nil for an optional one that is unset. -/
def spell : (k : Slot) → k.Carrier → Bytes
  | .required s, a => s.write a
  | .defaulted s _, a => s.write a
  | .optional s, o => writeOptional s o

theorem reads_spell {k : Slot} {a : k.Carrier} (h : k.Short a) (budget : Nat) :
    Reads (k.read budget) (k.spell a) a := by
  cases k with
  | required s => exact s.reads_write h budget
  | defaulted s _ => exact s.reads_write h budget
  | optional s => exact s.reads_writeOptional h budget

end Slot

/-- An entry of a map that is sent for a record. -/
inductive Piece (fields : List RecordField) where
  /-- A field and its value. -/
  | field (e : Entry fields)
  /-- A name that is no field's, and a value. -/
  | other (name : String) (v : Value)

namespace Piece

variable {fields : List RecordField}

/-- The field and its value, if it is one. -/
def entry? : Piece fields → Option (Entry fields)
  | .field e => some e
  | .other _ _ => none

/-- The encoding, the name before the value. -/
def write : Piece fields → Bytes
  | .field e => writeText (fields.get e.1).name ++ (fields.get e.1).slot.spell e.2
  | .other name v => writeText name ++ MessagePack.write v

/-- A field that is short, or another name and a value that does not nest deeper than the budget. -/
def Readable (budget : Nat) : Piece fields → Prop
  | .field e => (fields.get e.1).slot.Short e.2
  | .other name v => ShortText name ∧ name ∉ fields.map RecordField.name ∧ v.Writable budget

end Piece

/-- The fields among the pieces. -/
def sentFields {fields : List RecordField} (ps : List (Piece fields)) : List (Entry fields) :=
  ps.filterMap Piece.entry?

/-! ## Reading pieces -/

section

variable {fields : List RecordField} {budget : Nat} {ps : List (Piece fields)}

theorem fieldWhere_of_notMem {name : String} (h : name ∉ fields.map RecordField.name) :
    fieldWhere (· == name) fields = none := by
  rw [fieldWhere, List.findFinIdx?_eq_none_iff]
  exact fun f hf heq => h (List.mem_map.2 ⟨f, hf, eq_of_beq heq⟩)

/-- Pieces of different fields, none of which the draft has, are read into the draft. -/
theorem reads_pieces (hnames : (fields.map RecordField.name).Nodup)
    (hshort : ∀ f ∈ fields, ShortText f.name) (hps : ∀ p ∈ ps, p.Readable budget)
    (hnodup : ((sentFields ps).map Sigma.fst).Nodup) {d : Draft fields}
    (hd : ∀ e ∈ sentFields ps, d e.1 = none) :
    Reads (readDraft fields budget d ps.length) (ps.flatMap Piece.write)
      (d.fill (sentFields ps)) := by
  induction ps generalizing d with
  | nil => exact fun _ => rfl
  | cons p ps ih =>
    obtain ⟨hp, hrest⟩ := List.forall_mem_cons.1 hps
    intro rest
    rw [List.flatMap_cons, List.length_cons, List.append_assoc]
    cases p with
    | other name v =>
      obtain ⟨hname, hnew, hv⟩ := hp
      rw [Piece.write, List.append_assoc,
        readDraft_other hname (fieldWhere_of_notMem hnew) (reads_skipValue hv)]
      exact ih hrest hnodup hd rest
    | field e =>
      obtain ⟨hne, hnodup⟩ := List.nodup_cons.1 hnodup
      obtain ⟨hde, hd⟩ := List.forall_mem_cons.1 hd
      have hname := hshort _ (List.get_mem fields e.1)
      rw [Piece.write, List.append_assoc,
        readDraft_field hnames hname (Slot.reads_spell hp budget) hde]
      refine ih hrest hnodup (fun e' he' => ?_) rest
      rw [Draft.set_of_ne d e.2 fun h => hne (h ▸ List.mem_map_of_mem he'), hd e' he']

/-- The field of a piece is repeated: the draft has it already, or another piece is of it. -/
def Repeated (d : Draft fields) (ps : List (Piece fields)) (i : Fin fields.length) : Prop :=
  i ∈ (sentFields ps).map Sigma.fst ∧
    ((d i).isSome ∨ ((sentFields ps).map Sigma.fst).Duplicate i)

/-- Once a field is in the draft, what was repeated still is. -/
theorem Repeated.set {d : Draft fields} {e : Entry fields} {i : Fin fields.length}
    (h : Repeated d (.field e :: ps) i) (hd : d e.1 = none) : Repeated (d.set e.1 e.2) ps i := by
  obtain ⟨hmem, hrepeated⟩ := h
  change i ∈ e.1 :: (sentFields ps).map Sigma.fst at hmem
  change _ ∨ (e.1 :: (sentFields ps).map Sigma.fst).Duplicate i at hrepeated
  by_cases hi : i = e.1
  · subst hi
    rcases hrepeated with hsome | htwice
    · rw [hd] at hsome
      nomatch hsome
    · rw [List.duplicate_cons_self_iff] at htwice
      refine ⟨htwice, .inl ?_⟩
      rw [Draft.set_self]
      rfl
  · rw [List.duplicate_cons_iff_of_ne hi] at hrepeated
    rw [Repeated, Draft.set_of_ne d e.2 hi]
    exact ⟨List.mem_of_ne_of_mem hi hmem, hrepeated⟩

/-- Before a field was in the draft, what is repeated now was too. -/
theorem Repeated.of_set {d : Draft fields} {e : Entry fields} {i : Fin fields.length}
    (h : Repeated (d.set e.1 e.2) ps i) : Repeated d (.field e :: ps) i := by
  obtain ⟨hmem, hrepeated⟩ := h
  refine ⟨List.mem_cons_of_mem e.1 hmem, ?_⟩
  by_cases hi : i = e.1
  · subst hi
    exact .inr (List.duplicate_cons_self_iff.2 hmem)
  · rw [Draft.set_of_ne d e.2 hi] at hrepeated
    exact hrepeated.imp_right fun h => h.duplicate_cons e.1

/-- Of pieces that repeat a field nothing is read. The error names a field that is repeated. -/
theorem refuses_pieces (hnames : (fields.map RecordField.name).Nodup)
    (hshort : ∀ f ∈ fields, ShortText f.name) (hps : ∀ p ∈ ps, p.Readable budget)
    {d : Draft fields} (h : ∃ i, Repeated d ps i) :
    ∃ i, Repeated d ps i ∧ Refuses (readDraft fields budget d ps.length) (ps.flatMap Piece.write)
      (.mismatch (.duplicateField (fields.get i).name)) := by
  induction ps generalizing d with
  | nil => exact absurd h.choose_spec.1 List.not_mem_nil
  | cons p ps ih =>
    obtain ⟨hp, hrest⟩ := List.forall_mem_cons.1 hps
    rw [List.flatMap_cons, List.length_cons]
    cases p with
    | other name v =>
      obtain ⟨hname, hnew, hv⟩ := hp
      obtain ⟨i, hi, hrefuses⟩ := ih hrest h
      refine ⟨i, hi, fun rest => ?_⟩
      rw [Piece.write, List.append_assoc, List.append_assoc,
        readDraft_other hname (fieldWhere_of_notMem hnew) (reads_skipValue hv), hrefuses]
    | field e =>
      have hname := hshort _ (List.get_mem fields e.1)
      cases hd : d e.1 with
      | some a =>
        have hsome : (d e.1).isSome := by rw [hd]; rfl
        refine ⟨e.1, ⟨List.mem_cons_self, .inl hsome⟩, fun rest => ?_⟩
        rw [Piece.write, List.append_assoc, List.append_assoc,
          readDraft_duplicate hnames hname hsome]
      | none =>
        obtain ⟨i, hi, hrefuses⟩ := ih hrest (h.imp fun _ hi => hi.set hd)
        refine ⟨i, hi.of_set, fun rest => ?_⟩
        rw [Piece.write, List.append_assoc, List.append_assoc,
          readDraft_field hnames hname (Slot.reads_spell hp budget) hd, hrefuses]

/-! ## Heads -/

/-- The heads of a map of `n` entries, in every width that can hold the count. -/
inductive IsMapHead (n : Nat) : Bytes → Prop where
  | short (hn : n < 16) : IsMapHead n [UInt8.ofNat (0x80 + n)]
  | counted {b : UInt8} {w : Width} (hb : (b, w) ∈ mapMarkers) (hn : n < octetRange w.octets) :
    IsMapHead n (field b w n)

theorem IsMapHead.reads {n : Nat} {head : Bytes} (h : IsMapHead n head) :
    Reads readToken head (.map n) := by
  cases h with
  | short hn =>
    intro rest
    change (Marker.ofByte (UInt8.ofNat (0x80 + n))).token rest = _
    rw [ofByte_fixMap hn]
    rfl
  | counted hb hn =>
    refine reads_field .map ?_ hn
    rcases List.mem_pair.1 hb with hb | hb
    · cases hb
      rfl
    · cases hb
      rfl

/-- A record that is read from pieces. -/
theorem reads_record {r : RecordType} (hnames : (r.fields.map RecordField.name).Nodup)
    (hshort : ∀ f ∈ r.fields, ShortText f.name) {ps : List (Piece r.fields)}
    (hps : ∀ p ∈ ps, p.Readable budget) {head : Bytes} (hhead : IsMapHead ps.length head)
    {row : Row r.fields} (hrow : row.Sent (sentFields ps)) :
    Reads (r.read (budget + 1)) (head ++ ps.flatMap Piece.write) row :=
  reads_map hhead.reads (reads_pieces hnames hshort hps hrow.distinct fun _ _ => rfl)
    (Draft.complete_fill hrow)

theorem refuses_record {r : RecordType} (hnames : (r.fields.map RecordField.name).Nodup)
    (hshort : ∀ f ∈ r.fields, ShortText f.name) {ps : List (Piece r.fields)}
    (hps : ∀ p ∈ ps, p.Readable budget) {head : Bytes} (hhead : IsMapHead ps.length head)
    {i : Fin r.fields.length} (hi : ((sentFields ps).map Sigma.fst).Duplicate i) :
    ∃ j, ((sentFields ps).map Sigma.fst).Duplicate j ∧
      Refuses (r.read (budget + 1)) (head ++ ps.flatMap Piece.write)
        (.mismatch (.duplicateField (r.fields.get j).name)) := by
  obtain ⟨j, ⟨-, hj⟩, hrefuses⟩ := refuses_pieces hnames hshort hps
    (d := .empty r.fields) ⟨i, hi.mem, .inr hi⟩
  refine ⟨j, hj.resolve_left Bool.false_ne_true, fun rest => ?_⟩
  rw [List.append_assoc]
  change (readToken _ >>= _) = _
  rw [hhead.reads]
  change (readDraft r.fields budget (.empty r.fields) ps.length _ >>= _) = _
  rw [hrefuses]
  rfl

end

/-! ## Headers -/

namespace Header

/-- **Headers in every layout.** Pieces that stand for a header are read as that header, which then
    is refused if its tag or its version is not the protocol's. Pieces that repeat a field are
    refused as damage at the front, whatever the tag and the version are. -/
theorem decode_of_pieces {ps : List (Piece type.fields)} (hps : ∀ p ∈ ps, p.Readable 1022)
    {head : Bytes} (hhead : IsMapHead ps.length head) (rest : Bytes) :
    (∀ h : Header, h.toRow.Sent (sentFields ps) →
      Header.decode (head ++ ps.flatMap Piece.write ++ rest)
        = if h.protocol ≠ "typh" then .error (.protocol (.foreignTag h.protocol))
          else if 1 < h.version then .error (.protocol (.newerVersion h.version))
          else .ok h) ∧
      ∀ i, ((sentFields ps).map Sigma.fst).Duplicate i →
        ∃ j, ((sentFields ps).map Sigma.fst).Duplicate j ∧
          Header.decode (head ++ ps.flatMap Piece.write ++ rest)
            = .error (.malformed 0 (.mismatch (.duplicateField (type.fields.get j).name))) := by
  have hshort : ∀ f ∈ type.fields, ShortText f.name := by decide
  constructor
  · intro h hsent
    have hread : Header.read (head ++ ps.flatMap Piece.write ++ rest) = .ok (h, rest) := by
      change (type.read (1022 + 1) _ >>= _) = _
      rw [reads_record (by decide) hshort hps hhead hsent]
      rfl
    rw [Header.decode, hread]
    change h.check = _
    rw [check, validate, protocolTag, protocolVersion]
    split_ifs <;> rfl
  · intro i hi
    obtain ⟨j, hj, hrefuses⟩ := refuses_record (by decide) hshort hps hhead hi
    refine ⟨j, hj, ?_⟩
    have hread : Header.read (head ++ ps.flatMap Piece.write ++ rest)
        = .error (.mismatch (.duplicateField (type.fields.get j).name)) := by
      change (type.read (1022 + 1) _ >>= _) = _
      rw [hrefuses]
      rfl
    rw [Header.decode, hread]

/-- The fields of a header without options, out of order. The success flag is nil, the handler is
    left out, and an entry of another name stands in between. -/
def mixedPieces (version : UInt32) : List (Piece type.fields) :=
  [.field ⟨(5 : Fin 6), none⟩, .field ⟨(3 : Fin 6), Action.once⟩,
    .other "trace" (.list [.null, .object [("hop", .bool true)]]), .field ⟨(2 : Fin 6), "a1"⟩,
    .field ⟨(1 : Fin 6), version⟩, .field ⟨(0 : Fin 6), "typh"⟩]

theorem readable_mixedPieces (version : UInt32) :
    ∀ p ∈ mixedPieces version, p.Readable 1022 := by
  have htrace : (Value.list [.null, .object [("hop", .bool true)]]).Writable 1022 :=
    ⟨⟨trivial, ⟨List.pairwise_singleton _ _, trivial, trivial⟩, trivial⟩, by decide, by decide,
      trivial,
      ⟨by decide, by decide, trivial, trivial⟩, trivial⟩
  simp only [mixedPieces, List.forall_mem_cons]
  exact ⟨nofun, trivial, ⟨by decide, by decide, htrace⟩, show ShortText "a1" by decide, trivial,
    show ShortText "typh" by decide, nofun⟩

theorem sent_mixedPieces (version : UInt32) :
    (toRow ⟨"typh", version, "a1", .once, none, none⟩).Sent (sentFields (mixedPieces version)) where
  distinct := show ([5, 3, 2, 1, 0] : List (Fin 6)).Nodup by decide
  value := by
    change ∀ e ∈ [_, _, _, _, _], _
    simp only [List.forall_mem_cons]
    exact ⟨rfl, rfl, rfl, rfl, rfl, nofun⟩
  omitted := by
    have hhandler : ∀ i : Fin 6, i ∉ ([5, 3, 2, 1, 0] : List (Fin 6)) → i = 4 := by decide
    intro i hi
    obtain rfl := hhandler i hi
    rfl

/-- A wide head and a reserved marker behind it; the same pieces of a newer version; and the same
    with a second identifier. -/
theorem decode_of_pieces_mixed :
    (∀ version, ∀ p ∈ mixedPieces version, p.Readable 1022) ∧ IsMapHead 6 [0xDF, 0, 0, 0, 6] ∧
      (new "a1" .once).toRow.Sent (sentFields (mixedPieces 1)) ∧
      Header.decode ([0xDF, 0, 0, 0, 6] ++ (mixedPieces 1).flatMap Piece.write ++ [0xC1])
        = .ok (.new "a1" .once) ∧
      Header.decode ([0xDF, 0, 0, 0, 6] ++ (mixedPieces 2).flatMap Piece.write ++ [0xC1])
        = .error (.protocol (.newerVersion 2)) ∧
      Header.decode
          ([0x87] ++ (.field ⟨(2 : Fin 6), "b2"⟩ :: mixedPieces 2).flatMap Piece.write ++ [])
        = .error (.malformed 0 (.mismatch (.duplicateField "id"))) := by
  have hwide : IsMapHead 6 [0xDF, 0, 0, 0, 6] :=
    .counted (b := 0xDF) (w := .four) (by decide) (by decide)
  refine ⟨readable_mixedPieces, hwide, sent_mixedPieces 1, ?_, ?_, ?_⟩
  · exact (decode_of_pieces (readable_mixedPieces 1) hwide [0xC1]).1 _ (sent_mixedPieces 1)
  · exact (decode_of_pieces (readable_mixedPieces 2) hwide [0xC1]).1 _ (sent_mixedPieces 2)
  · have hps : ∀ p ∈ .field ⟨(2 : Fin 6), "b2"⟩ :: mixedPieces 2, p.Readable 1022 :=
      List.forall_mem_cons.2 ⟨show ShortText "b2" by decide, readable_mixedPieces 2⟩
    have htwice : ([2, 5, 3, 2, 1, 0] : List (Fin 6)).Duplicate 2 := by decide
    have hid : ∀ j : Fin 6, ([2, 5, 3, 2, 1, 0] : List (Fin 6)).Duplicate j → j = 2 := by decide
    obtain ⟨j, hj, hdecode⟩ := (decode_of_pieces hps (.short (by decide)) []).2 _ htwice
    obtain rfl := hid j hj
    exact hdecode

end Header

end FrameRpc
