import FrameRpc.Proofs.Grammar
import FrameRpc.Proofs.Scanning

/-!
# The scan recognises the format

The scan of a buffer tells exactly what the grammar says of it (`Scan.verdict_iff`). The buffer
begins with a value and the scan ends where the value does; or it can still become one that begins
with a value; or it cannot, whatever comes.

The scan has no stack. What carries it is that it stands between values: in front of it are the
values that are pending, in any nesting. So where it stops for lack of bytes these can be made up
(`Scan.exists_values_of_incomplete`), and where it stops at the reserved marker none can be
(`Scan.exists_partway_of_malformed`).
-/

namespace FrameRpc

namespace MessagePack

/-! ## Making up what is missing -/

theorem values_replicate (n : Nat) : Values n (List.replicate n 0xC0) := by
  induction n with
  | zero => exact .nil
  | succ n ih => exact .cons rfl rfl (Nat.zero_le _) ih

/-- A length field that is cut off can be filled up. -/
theorem Layout.exists_announced {layout : Layout} {rest : Bytes} (h : layout.announced rest = none) :
    ∃ more a, layout.announced (rest ++ more) = some a ∧ (rest ++ more).length = a.width := by
  cases layout with
  | fixed | nested => cases h
  | sized w _ | counted w _ =>
    simp only [announced] at h
    split at h
    · cases h
    · rename_i hlength
      rw [List.length_take] at hlength
      have hfull : (rest ++ List.replicate (w.octets - rest.length) 0).length = w.octets := by
        rw [List.length_append, List.length_replicate]
        omega
      refine ⟨List.replicate (w.octets - rest.length) 0, ?_⟩
      simp only [announced]
      rw [List.take_of_length_le (Nat.le_of_eq hfull), if_pos hfull]
      exact ⟨_, rfl, hfull⟩

/-- Where no more stands behind a marker than it announces, the rest can be made up, and as many
    values behind it as one likes. -/
theorem exists_values_cons {b : UInt8} {layout : Layout} {a : Announced} {rest : Bytes}
    (hlayout : (Marker.ofByte b).layout = some layout) (hannounced : layout.announced rest = some a)
    (hle : rest.length ≤ a.width + a.body) (n : Nat) :
    ∃ more, Values (n + 1) (b :: (rest ++ more)) := by
  have hlength : (rest ++ List.replicate (a.width + a.body - rest.length) 0).length
      = a.width + a.body := by
    rw [List.length_append, List.length_replicate]
    omega
  refine ⟨List.replicate (a.width + a.body - rest.length) 0 ++ List.replicate (n + a.nested) 0xC0,
    .cons hlayout (Layout.announced_append hannounced _) ?_ ?_⟩
  · rw [← List.append_assoc, List.length_append, hlength]
    exact Nat.le_add_right _ _
  · rw [← List.append_assoc, List.drop_left' hlength]
    exact values_replicate _

/-! ## What the scan has found -/

section

variable {s : Scan} {buffer : Bytes}

theorem eq_of_saturate_lt {n : Nat} (h : saturate n < wordMax) : saturate n = n := by
  rw [saturate] at h ⊢
  omega

/-- A step of the scan as it is without saturation. -/
theorem Scan.past_reach {a : Announced} (h : (s.past a).reach < wordMax) :
    (s.past a).reach = s.reach + 1 + (a.width + a.body) :=
  (eq_of_saturate_lt h).trans (Nat.add_assoc _ _ _)

theorem Scan.past_pending_le {a : Announced} {m : Nat} (h : s.pending ≤ m + 1) :
    (s.past a).pending ≤ m + a.nested := by
  refine Nat.le_trans (Nat.min_le_left _ _) ?_
  omega

/-- Where the scan is complete the values that were pending end. -/
theorem Scan.exists_values_of_complete (hword : buffer.length < wordMax) {s' : Scan}
    (h : s.advance buffer = (.complete, s')) :
    ∃ w tail, buffer.drop s.reach = w ++ tail ∧ Values s.pending w ∧
      s'.reach = s.reach + w.length ∧ s'.reach ≤ buffer.length := by
  rw [advance] at h
  generalize hrest : buffer.drop s.reach = rest at h ⊢
  fun_induction Scan.walk buffer.length s rest with
  | case1 s rest hdone =>
    obtain ⟨hverdict, rfl⟩ := Prod.mk.inj h
    refine ⟨[], rest, rfl, hdone ▸ .nil, rfl, ?_⟩
    split at hverdict
    · assumption
    · cases hverdict
  | case2 | case3 | case4 => cases h
  | case5 s hpending b rest layout hlayout a hannounced ih =>
    obtain ⟨w, tail, hdrop, hvalues, hend, hle⟩ :=
      ih (drop_past a (Nat.le_of_lt hword) hrest) h
    have hlength := congrArg List.length hrest
    rw [List.length_drop, List.length_cons] at hlength
    have hlength' := congrArg List.length hdrop
    rw [List.length_drop, List.length_append] at hlength'
    -- Nothing is saturated, or there would be more bytes, or more values, than there are.
    have hreach := past_reach (s := s) (a := a) (by omega)
    have hfits : a.width + a.body ≤ rest.length := by omega
    have hcount : (s.past a).pending = s.pending - 1 + a.nested :=
      eq_of_saturate_lt (Nat.lt_of_le_of_lt hvalues.le_length (by omega))
    obtain ⟨m, hm⟩ := Nat.exists_eq_succ_of_ne_zero hpending
    rw [hcount, hm, Nat.succ_sub_one, values_iff_partway] at hvalues
    refine ⟨b :: (rest.take (a.width + a.body) ++ w), tail, ?_, ?_, ?_, hle⟩
    · rw [List.cons_append, List.append_assoc, ← hdrop, List.take_append_drop]
    · rw [hm]
      exact values_iff_partway.2 (.cons hlayout hannounced hfits hdrop hvalues)
    · rw [hend, hreach, List.length_cons, List.length_append, List.length_take_of_le hfits]
      omega

/-- Where the scan finds a reserved marker one of the values that were pending would have to begin;
    how many they are beyond that has no influence. -/
theorem Scan.exists_partway_of_malformed (hword : buffer.length ≤ wordMax)
    (h : (s.advance buffer).1 = .malformed) {m : Nat} (hm : s.pending ≤ m) :
    ∃ u b tail n, buffer.drop s.reach = u ++ b :: tail ∧ Partway (n + 1) m u ∧
      (Marker.ofByte b).layout = none := by
  rw [advance] at h
  generalize hrest : buffer.drop s.reach = rest at h ⊢
  -- The walk may count fewer values than are announced, since the count saturates. So the induction
  -- is for any number of them that is not less.
  fun_induction Scan.walk buffer.length s rest generalizing m with
  | case1 s rest hdone =>
    split at h <;> cases h
  | case2 | case4 => cases h
  | case3 s hpending b rest hlayout =>
    obtain ⟨n, rfl⟩ := Nat.exists_eq_succ_of_ne_zero (n := m) (by omega)
    exact ⟨[], b, rest, n, rfl, .here, hlayout⟩
  | case5 s hpending b rest layout hlayout a hannounced ih =>
    obtain ⟨m, rfl⟩ := Nat.exists_eq_succ_of_ne_zero (n := m) (by omega)
    obtain ⟨u, b', tail, n, hdrop, hpartway, hb'⟩ :=
      ih (past_pending_le hm) (drop_past a hword hrest) h
    -- What the marker announces is there, since the reserved marker stands behind it.
    have hfits : a.width + a.body ≤ rest.length := by
      refine Nat.le_of_lt (Nat.lt_of_not_le fun hle => ?_)
      rw [List.drop_eq_nil_of_le hle] at hdrop
      exact List.append_ne_nil_of_right_ne_nil u (List.cons_ne_nil b' tail) hdrop.symm
    refine ⟨b :: (rest.take (a.width + a.body) ++ u), b', tail, n, ?_,
      .cons hlayout hannounced hfits hdrop hpartway, hb'⟩
    rw [List.cons_append, List.append_assoc, ← hdrop, List.take_append_drop]

/-- Where the scan stops for lack of bytes the values that were pending can be completed, also if
    there were more of them. -/
theorem Scan.exists_values_of_incomplete (hword : buffer.length < wordMax)
    (hreach : s.reach ≤ buffer.length) (h : (s.advance buffer).1 = .incomplete) {m : Nat}
    (hm : s.pending ≤ m) : ∃ more, Values m (buffer.drop s.reach ++ more) := by
  rw [advance] at h
  generalize hrest : buffer.drop s.reach = rest at h ⊢
  fun_induction Scan.walk buffer.length s rest generalizing m with
  | case1 s rest hdone =>
    rw [if_pos hreach] at h
    cases h
  | case2 s hpending => exact ⟨_, values_replicate m⟩
  | case3 => cases h
  | case4 s hpending b rest layout hlayout hannounced =>
    obtain ⟨m, rfl⟩ := Nat.exists_eq_succ_of_ne_zero (n := m) (by omega)
    obtain ⟨field, a, hfield, hlength⟩ := Layout.exists_announced hannounced
    obtain ⟨more, hmore⟩ := exists_values_cons hlayout hfield
      (hlength ▸ Nat.le_add_right _ _) m
    exact ⟨field ++ more, by rwa [List.cons_append, ← List.append_assoc]⟩
  | case5 s hpending b rest layout hlayout a hannounced ih =>
    obtain ⟨m, rfl⟩ := Nat.exists_eq_succ_of_ne_zero (n := m) (by omega)
    -- Either the scan goes on behind what the marker announces, or that is what is cut off.
    by_cases hfits : a.width + a.body ≤ rest.length
    · have hlength := congrArg List.length hrest
      rw [List.length_drop, List.length_cons] at hlength
      have hpast : (s.past a).reach ≤ buffer.length :=
        Nat.le_trans (Nat.min_le_left _ _) (by omega)
      obtain ⟨more, hmore⟩ := ih hpast (past_pending_le hm) (drop_past a (Nat.le_of_lt hword) hrest) h
      refine ⟨more, ?_⟩
      rw [List.cons_append]
      refine .cons hlayout (Layout.announced_append hannounced more) ?_ ?_
      · rw [List.length_append]
        omega
      · rwa [List.drop_append_of_le_length hfits]
    · exact exists_values_cons hlayout hannounced (Nat.le_of_not_le hfits) m

end

/-! ## Verdicts -/

/-- The bytes begin with a value. -/
def Holds (bs : Bytes) : Prop := ∃ w tail, bs = w ++ tail ∧ IsValue w

section

variable {buffer : Bytes}

/-- A scan that is complete ends where the value at the front does. -/
theorem Scan.isValue_of_complete (hword : buffer.length < wordMax)
    (h : (start.advance buffer).1 = .complete) :
    (start.advance buffer).2.reach ≤ buffer.length ∧
      IsValue (buffer.take (start.advance buffer).2.reach) := by
  obtain ⟨w, tail, hbuffer, hvalues, hend, hle⟩ :=
    exists_values_of_complete hword (Prod.ext h rfl : _ = (Verdict.complete, _))
  refine ⟨hle, ?_⟩
  have hbuffer : buffer = w ++ tail := hbuffer
  rw [hend, show start.reach = 0 from rfl, Nat.zero_add, hbuffer, List.take_left]
  exact isValue_iff_values.2 hvalues

theorem Scan.holds_of_complete (hword : buffer.length < wordMax)
    (h : (start.advance buffer).1 = .complete) : Holds buffer :=
  ⟨_, _, (List.take_append_drop _ buffer).symm, (isValue_of_complete hword h).2⟩

/-- The scan comes to the end of the value at the front. -/
theorem Scan.advance_of_isValue (hword : buffer.length ≤ wordMax) {n : Nat}
    (hn : n ≤ buffer.length) (h : IsValue (buffer.take n)) :
    start.advance buffer = (.complete, ⟨n, 0⟩) := by
  have hlength : (buffer.take n).length = n := List.length_take_of_le hn
  have hsplit : buffer ++ [] = buffer.take n ++ buffer.drop n := by
    rw [List.append_nil, List.take_append_drop]
  have hadvance := advance_of_le (tracks_start h.values) (by omega) hsplit (by omega)
  rwa [hlength] at hadvance

theorem Scan.complete_of_holds (hword : buffer.length ≤ wordMax) (h : Holds buffer) :
    (start.advance buffer).1 = .complete := by
  obtain ⟨w, tail, rfl, hw⟩ := h
  rw [advance_of_isValue (n := w.length) hword]
  · rw [List.length_append]
    exact Nat.le_add_right _ _
  · rwa [List.take_left]

theorem Scan.not_holds_of_malformed (hword : buffer.length ≤ wordMax)
    (h : (start.advance buffer).1 = .malformed) (more : Bytes) : ¬ Holds (buffer ++ more) := by
  obtain ⟨u, b, tail, n, hbuffer, hpartway, hb⟩ :=
    exists_partway_of_malformed hword h (Nat.le_refl start.pending)
  have hbuffer : buffer = u ++ b :: tail := hbuffer
  rintro ⟨w, tail', heq, hw⟩
  rw [hbuffer, List.append_assoc, List.cons_append] at heq
  exact hpartway.append_ne hb hw.values heq

theorem Scan.exists_holds_of_incomplete (hword : buffer.length < wordMax)
    (h : (start.advance buffer).1 = .incomplete) : ∃ more, more ≠ [] ∧ Holds (buffer ++ more) := by
  obtain ⟨more, hmore⟩ :=
    exists_values_of_incomplete hword (Nat.zero_le _) h (Nat.le_refl start.pending)
  have hholds : Holds (buffer ++ more) :=
    ⟨buffer ++ more, [], (List.append_nil _).symm, isValue_iff_values.2 hmore⟩
  refine ⟨more, ?_, hholds⟩
  rintro rfl
  rw [List.append_nil] at hholds
  rw [complete_of_holds (Nat.le_of_lt hword) hholds] at h
  nomatch h

/-- **Recognition.** Of a buffer that a word can count, the scan tells whether it begins with a
    value and where that ends, whether it can still become one that does, or whether nothing that
    comes can make it one. -/
theorem Scan.verdict_iff (hword : buffer.length < wordMax) :
    (∀ n, (start.advance buffer).1 = .complete ∧ (start.advance buffer).2.reach = n ↔
        n ≤ buffer.length ∧ IsValue (buffer.take n)) ∧
      ((start.advance buffer).1 = .malformed ↔ ∀ more, ¬ Holds (buffer ++ more)) ∧
      ((start.advance buffer).1 = .incomplete ↔
        ¬ Holds buffer ∧ ∃ more, more ≠ [] ∧ Holds (buffer ++ more)) := by
  -- Each verdict is right; since they exclude each other, each is also given where it is right.
  have hcomplete (h : Holds buffer) := complete_of_holds (Nat.le_of_lt hword) h
  have hmalformed := not_holds_of_malformed (Nat.le_of_lt hword)
  have hincomplete := exists_holds_of_incomplete hword
  refine ⟨fun n => ⟨?_, fun ⟨hn, h⟩ => ?_⟩, ⟨hmalformed, fun h => ?_⟩, ⟨fun h => ?_, ?_⟩⟩
  · rintro ⟨h, rfl⟩
    exact isValue_of_complete hword h
  · rw [advance_of_isValue (Nat.le_of_lt hword) hn h]
    exact ⟨rfl, rfl⟩
  · cases hverdict : (start.advance buffer).1 with
    | malformed => rfl
    | incomplete =>
      obtain ⟨more, -, hmore⟩ := hincomplete hverdict
      exact absurd hmore (h more)
    | complete =>
      have hnone := h []
      rw [List.append_nil] at hnone
      exact absurd (holds_of_complete hword hverdict) hnone
  · refine ⟨fun hholds => ?_, hincomplete h⟩
    rw [hcomplete hholds] at h
    nomatch h
  · rintro ⟨hnone, more, -, hmore⟩
    cases hverdict : (start.advance buffer).1 with
    | incomplete => rfl
    | malformed => exact absurd hmore (hmalformed hverdict more)
    | complete => exact absurd (holds_of_complete hword hverdict) hnone

end

/-- A list of three: an extension, a map with a list of unknown length in it, because the count
    field is cut off. -/
def listCutInCount : Bytes := [0x93, 0xC7, 0x01, 0x05, 0xFF, 0x81, 0xA1, 0x61, 0xDD, 0x00]

/-- It may still become a value, but not if the field is followed by a reserved marker. -/
theorem Scan.verdict_iff_listCutInCount :
    (¬ Holds listCutInCount ∧ ∃ more, more ≠ [] ∧ Holds (listCutInCount ++ more)) ∧
      (∀ more, ¬ Holds (listCutInCount ++ [0, 0, 2, 0xC1] ++ more)) ∧
      IsValue ((listCutInCount ++ [0, 0, 0, 0xC0, 0x2A]).take 14) :=
  ⟨(verdict_iff (by decide)).2.2.1 (by decide +kernel),
    (verdict_iff (by decide)).2.1.1 (by decide +kernel),
    (((verdict_iff (by decide)).1 14).1 (by decide +kernel)).2⟩

end MessagePack

end FrameRpc
