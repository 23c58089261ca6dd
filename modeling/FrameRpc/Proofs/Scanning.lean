import FrameRpc.Proofs.Extent

/-!
# Scanning finds the end

The scan of a buffer at whose front a value stands says that the value is complete exactly when
the buffer holds all of it (`Scan.advance_tracks`), however often it is interrupted for lack of
bytes: what it has found out about the value's front stays true (`Scan.Tracks`). It never accounts
for more bytes than the value has.

The same goes for a part of a value (`Scan.Follows`): inside it the scan waits, and then it goes on
behind it. So it also stops at a marker that begins no value, as soon as that marker has arrived
(`Scan.advance_within`).

Both counters of a scan saturate. The reach does not as long as what is scanned fits a word, and the
count only where it stands for more values than there are bytes (`Near`), since every value that is
pending takes a byte at least.

A scan that is gone on with when the buffer has grown comes out as a scan of the whole buffer
(`Scan.advance_advance`), whatever stands there.
-/

namespace FrameRpc

namespace MessagePack

/-- What the scan has found out is true of the value `w`: the values still pending are what it has
    not accounted for. -/
structure Scan.Tracks (s : Scan) (w : Bytes) : Prop where
  reach_le : s.reach ≤ w.length
  values : Values s.pending (w.drop s.reach)

theorem Scan.tracks_start {w : Bytes} (h : Values 1 w) : Scan.start.Tracks w :=
  ⟨Nat.zero_le _, h⟩

theorem saturate_eq {n : Nat} (h : n ≤ wordMax) : saturate n = n := Nat.min_eq_left h

theorem drop_of_drop_eq_cons {bs rest : Bytes} {b : UInt8} {i : Nat} (h : bs.drop i = b :: rest)
    (k : Nat) : bs.drop (i + 1 + k) = rest.drop k := by
  rw [Nat.add_assoc, ← List.drop_drop, h, Nat.add_comm, List.drop_succ_cons]

/-- What stands at a place of a buffer stands there when the buffer has grown. -/
theorem drop_append_of_drop_eq_cons {bs rest : Bytes} {b : UInt8} {i : Nat}
    (h : bs.drop i = b :: rest) (more : Bytes) : (bs ++ more).drop i = b :: (rest ++ more) := by
  have hle : i ≤ bs.length := by
    refine Nat.le_of_not_lt fun hlt => ?_
    rw [List.drop_eq_nil_of_le (Nat.le_of_lt hlt)] at h
    nomatch h
  rw [List.drop_append_of_le_length hle, h, List.cons_append]

theorem Scan.walk_of_done {s : Scan} (h : s.pending = 0) (size : Nat) (rest : Bytes) :
    s.walk size rest = (if s.reach ≤ size then .complete else .incomplete, s) := by
  rw [walk.eq_def, if_pos h]

theorem Scan.walk_nil {s : Scan} (h : s.pending ≠ 0) (size : Nat) :
    s.walk size [] = (.incomplete, s) := by
  rw [walk.eq_def, if_neg h]

/-- A scan stops at a marker that begins no value. -/
theorem Scan.walk_reserved {s : Scan} (h : s.pending ≠ 0) {b : UInt8}
    (hb : (Marker.ofByte b).layout = none) (size : Nat) (rest : Bytes) :
    s.walk size (b :: rest) = (.malformed, s) := by
  rw [walk.eq_def, if_neg h]
  simp only [hb]

/-- One step of a scan. -/
theorem Scan.walk_cons {s : Scan} (h : s.pending ≠ 0) {b : UInt8} {layout : Layout}
    (hlayout : (Marker.ofByte b).layout = some layout) (size : Nat) (rest : Bytes) :
    s.walk size (b :: rest) = match layout.announced rest with
      | none => (.incomplete, s)
      | some a => (s.past a).walk size (rest.drop (a.width + a.body)) := by
  rw [walk.eq_def, if_neg h]
  cases hannounced : layout.announced rest with
  | none => simp only [hlayout, hannounced]
  | some a => simp only [hlayout, hannounced]

/-! ## A scan inside values -/

/-- Two counts of values do not differ as far as `left` bytes go: they are the same, or there are
    more values than bytes in both. -/
def Near (left k m : Nat) : Prop := k = m ∨ left < k ∧ left < m

/-- The scan stands somewhere inside `u`, behind which `n` values are still to come. -/
structure Scan.Follows (s : Scan) (u : Bytes) (n : Nat) : Prop where
  reach_le : s.reach ≤ u.length
  partway : ∃ m, Near (u.length - s.reach) s.pending m ∧ Partway n m (u.drop s.reach)

theorem Scan.follows_of_near {u : Bytes} {k n : Nat} (h : Near 0 k n) :
    Scan.Follows ⟨u.length, k⟩ u n := by
  refine ⟨Nat.le_refl _, n, ?_, ?_⟩
  · rw [Nat.sub_self]
    exact h
  · rw [List.drop_length]
    exact .here

theorem Scan.follows_start {u : Bytes} {n : Nat} (h : Partway n 1 u) : Scan.start.Follows u n :=
  ⟨Nat.zero_le _, 1, .inl rfl, h⟩

theorem Scan.advance_of_partway {u buffer coming tail : Bytes}
    (hbuffer : buffer ++ coming = u ++ tail) (hu : u.length ≤ wordMax) {m n : Nat} {back : Bytes}
    (h : Partway n m back) {s : Scan} (hpending : Near back.length s.pending m)
    (hreach : s.reach ≤ u.length) (hback : u.drop s.reach = back) :
    (buffer.length < u.length →
        (s.advance buffer).1 = .incomplete ∧ (s.advance buffer).2.Follows u n) ∧
      (u.length ≤ buffer.length →
        ∃ k, Near 0 k n ∧ s.advance buffer = Scan.advance ⟨u.length, k⟩ buffer) := by
  -- The induction is on the values that are pending; a step of the scan takes one of them and
  -- leaves those that it nests.
  induction h generalizing s with
  | here =>
    have hend : s.reach = u.length := Nat.le_antisymm hreach (List.drop_eq_nil_iff.1 hback)
    obtain ⟨reach, pending⟩ := s
    obtain rfl : reach = u.length := hend
    refine ⟨fun hlt => ?_, fun _ => ⟨pending, hpending, rfl⟩⟩
    rw [advance, List.drop_eq_nil_of_le (Nat.le_of_lt hlt)]
    by_cases hdone : pending = 0
    · rw [walk_of_done hdone]
      exact ⟨if_neg (Nat.not_le_of_lt hlt), follows_of_near hpending⟩
    · rw [walk_nil hdone]
      exact ⟨rfl, follows_of_near hpending⟩
  | @marker b rest layout a m hlayout hannounced hfits hrest ih =>
    have hfollows : s.Follows u n := by
      refine ⟨hreach, m + 1, ?_, ?_⟩
      · rw [← List.length_drop, hback]
        exact hpending
      · rw [hback]
        exact .marker hlayout hannounced hfits hrest
    have hlength : u.length = s.reach + 1 + rest.length := by
      have := congrArg List.length hback
      rw [List.length_drop, List.length_cons] at this
      omega
    rw [List.length_cons, Near] at hpending
    have hne : s.pending ≠ 0 := by omega
    cases hb : buffer.drop s.reach with
    | nil =>
      have := List.drop_eq_nil_iff.1 hb
      refine ⟨fun _ => ?_, fun hle => absurd hle (by omega)⟩
      rw [advance, hb, walk_nil hne]
      exact ⟨rfl, hfollows⟩
    | cons b' rest' =>
      have hlength' : buffer.length = s.reach + 1 + rest'.length := by
        have := congrArg List.length hb
        rw [List.length_drop, List.length_cons] at this
        omega
      -- Behind what is accounted for, buffer and values go on with the same bytes.
      have hsame : b' :: (rest' ++ coming) = b :: (rest ++ tail) := by
        have := congrArg (List.drop s.reach) hbuffer
        rwa [List.drop_append_of_le_length (by omega), List.drop_append_of_le_length hreach, hb,
          hback] at this
      obtain ⟨rfl, hrest'⟩ := List.cons.inj hsame
      by_cases hle : a.width ≤ rest'.length
      · -- The reach does not saturate, and the count only where there are fewer bytes than values.
        have hbytes : s.reach + 1 + a.width + a.body ≤ wordMax := by omega
        have hreach' : (s.past a).reach = s.reach + 1 + (a.width + a.body) := by
          rw [Scan.past, saturate_eq hbytes, Nat.add_assoc]
        have hadvance : s.advance buffer = (s.past a).advance buffer := by
          rw [advance, advance, hb, walk_cons hne hlayout,
            Layout.announced_of_append_eq hannounced hrest', if_pos hle, hreach',
            drop_of_drop_eq_cons hb]
        rw [hadvance]
        refine ih ?_ (by omega) ?_
        · simp only [List.length_drop, Near, Scan.past, saturate]
          omega
        · rw [hreach', drop_of_drop_eq_cons hback]
      · -- The length field is cut off.
        have := Layout.announced_width_le hannounced
        refine ⟨fun _ => ?_, fun hle' => absurd hle' (by omega)⟩
        rw [advance, hb, walk_cons hne hlayout, Layout.announced_of_append_eq hannounced hrest',
          if_neg hle]
        exact ⟨rfl, hfollows⟩

/-- As long as a part of `u` is missing the scan is incomplete, and stays inside. Once all of `u` has
    arrived it goes on behind it. -/
theorem Scan.advance_follows {s : Scan} {u buffer coming tail : Bytes} {n : Nat}
    (h : s.Follows u n) (hu : u.length ≤ wordMax) (hbuffer : buffer ++ coming = u ++ tail) :
    (buffer.length < u.length →
        (s.advance buffer).1 = .incomplete ∧ (s.advance buffer).2.Follows u n) ∧
      (u.length ≤ buffer.length →
        ∃ k, Near 0 k n ∧ s.advance buffer = Scan.advance ⟨u.length, k⟩ buffer) := by
  obtain ⟨m, hnear, hpartway⟩ := h.partway
  rw [← List.length_drop] at hnear
  exact advance_of_partway hbuffer hu hpartway hnear h.reach_le rfl

/-- Behind a value nothing is still to come, so inside it no count is saturated. -/
theorem Scan.tracks_iff_follows {s : Scan} {w : Bytes} : s.Tracks w ↔ s.Follows w 0 := by
  constructor
  · exact fun h => ⟨h.reach_le, s.pending, .inl rfl, values_iff_partway.1 h.values⟩
  · rintro ⟨hreach, m, hnear, hpartway⟩
    have hvalues := values_iff_partway.2 hpartway
    have hle := hvalues.le_length
    rw [List.length_drop] at hle
    obtain rfl : s.pending = m := by
      rcases hnear with heq | hmore
      · exact heq
      · omega
    exact ⟨hreach, hvalues⟩

/-- In front of a value the scan comes to the value's end. -/
theorem Scan.advance_of_le {s : Scan} {w buffer coming tail : Bytes} (h : s.Tracks w)
    (hw : w.length ≤ wordMax) (hbuffer : buffer ++ coming = w ++ tail)
    (hle : w.length ≤ buffer.length) : s.advance buffer = (.complete, ⟨w.length, 0⟩) := by
  obtain ⟨k, hk, hadvance⟩ := (advance_follows (tracks_iff_follows.1 h) hw hbuffer).2 hle
  obtain rfl : k = 0 := by
    rcases hk with heq | hmore
    · exact heq
    · exact absurd hmore.2 (Nat.lt_irrefl 0)
  rw [hadvance, advance, walk_of_done rfl, if_pos hle]

/-- In a buffer at whose front `w` stands, as far as it has arrived, a scan of `w` says whether all
    of it has, and can be gone on with. -/
theorem Scan.advance_tracks {s : Scan} {w buffer coming tail : Bytes} (h : s.Tracks w)
    (hw : w.length ≤ wordMax) (hbuffer : buffer ++ coming = w ++ tail) :
    (s.advance buffer).2.Tracks w ∧
      (s.advance buffer).1 = if w.length ≤ buffer.length then .complete else .incomplete := by
  by_cases hle : w.length ≤ buffer.length
  · rw [advance_of_le h hw hbuffer hle, if_pos hle]
    refine ⟨⟨Nat.le_refl _, ?_⟩, rfl⟩
    rw [List.drop_length]
    exact .nil
  · obtain ⟨hverdict, hfollows⟩ :=
      (advance_follows (tracks_iff_follows.1 h) hw hbuffer).1 (Nat.lt_of_not_le hle)
    rw [if_neg hle]
    exact ⟨tracks_iff_follows.2 hfollows, hverdict⟩

/-! ## Where a scan stops -/

/-- The front of some bytes that tells all that there is to say: a value, or a part of one and a
    marker behind it that begins none. -/
inductive Conclusive : Bytes → Prop where
  | value {w : Bytes} (h : Values 1 w) : Conclusive w
  | reserved {u : Bytes} {b : UInt8} {n : Nat} (hu : Partway (n + 1) 1 u)
    (hb : (Marker.ofByte b).layout = none) : Conclusive (u ++ [b])

/-- The scan has not left the front. -/
inductive Scan.Within (s : Scan) : Bytes → Prop where
  | value {w : Bytes} (h : s.Follows w 0) : s.Within w
  | reserved {u : Bytes} {b : UInt8} {n : Nat} (h : s.Follows u (n + 1))
    (hb : (Marker.ofByte b).layout = none) : s.Within (u ++ [b])

theorem Scan.within_start {front : Bytes} (h : Conclusive front) : Scan.start.Within front := by
  cases h with
  | value h => exact .value (follows_start (values_iff_partway.1 h))
  | reserved hu hb => exact .reserved (follows_start hu) hb

theorem Scan.Within.reach_le {s : Scan} {front : Bytes} (h : s.Within front) :
    s.reach ≤ front.length := by
  cases h with
  | value h => exact h.reach_le
  | reserved h _ =>
    rw [List.length_append]
    exact Nat.le_add_right_of_le h.reach_le

/-- The scan stays within the front, and it is incomplete as long as a part of that is missing, and
    only as long. -/
theorem Scan.advance_within {s : Scan} {front buffer coming tail : Bytes} (h : s.Within front)
    (hfront : front.length ≤ wordMax) (hbuffer : buffer ++ coming = front ++ tail) :
    (s.advance buffer).2.Within front ∧
      ((s.advance buffer).1 = .incomplete ↔ buffer.length < front.length) := by
  cases h with
  | value h =>
    by_cases hlt : buffer.length < front.length
    · obtain ⟨hverdict, hfollows⟩ := (advance_follows h hfront hbuffer).1 hlt
      exact ⟨.value hfollows, iff_of_true hverdict hlt⟩
    · rw [advance_of_le (tracks_iff_follows.2 h) hfront hbuffer (Nat.le_of_not_lt hlt)]
      exact ⟨.value (follows_of_near (.inl rfl)), iff_of_false nofun hlt⟩
  | @reserved u b n h hb =>
    rw [List.length_append, List.length_singleton] at hfront ⊢
    rw [List.append_assoc, List.singleton_append] at hbuffer
    obtain ⟨hshort, hlong⟩ := advance_follows h (Nat.le_of_succ_le hfront) hbuffer
    by_cases hlt : buffer.length < u.length
    · obtain ⟨hverdict, hfollows⟩ := hshort hlt
      exact ⟨.reserved hfollows hb, iff_of_true hverdict (Nat.lt_succ_of_lt hlt)⟩
    · -- The scan comes to the place of the marker, and no further.
      have hle := Nat.le_of_not_lt hlt
      obtain ⟨k, hnear, hadvance⟩ := hlong hle
      have hk : k ≠ 0 := by
        rw [Near] at hnear
        omega
      have hdrop := congrArg (List.drop u.length) hbuffer
      rw [List.drop_append_of_le_length hle, List.drop_left] at hdrop
      have hlength := List.length_drop (i := u.length) (l := buffer)
      rw [hadvance, advance]
      cases hrest : buffer.drop u.length with
      | nil =>
        rw [hrest, List.length_nil] at hlength
        rw [walk_nil hk]
        exact ⟨.reserved (follows_of_near hnear) hb, iff_of_true rfl (by omega)⟩
      | cons b' rest =>
        rw [hrest, List.length_cons] at hlength
        rw [hrest, List.cons_append] at hdrop
        obtain ⟨rfl, -⟩ := List.cons.inj hdrop
        rw [walk_reserved hk hb]
        exact ⟨.reserved (follows_of_near hnear) hb, iff_of_false nofun (by omega)⟩

/-! ## Going on -/

/-- Behind what a marker announces the scan reads on, also where its reach is saturated: there no
    buffer goes on. -/
theorem Scan.drop_past {s : Scan} {buffer rest : Bytes} {b : UInt8} (a : Announced)
    (hbuffer : buffer.length ≤ wordMax) (h : buffer.drop s.reach = b :: rest) :
    buffer.drop (s.past a).reach = rest.drop (a.width + a.body) := by
  rw [past]
  by_cases hle : s.reach + 1 + a.width + a.body ≤ wordMax
  · rw [saturate_eq hle, Nat.add_assoc, drop_of_drop_eq_cons h]
  · -- The buffer ends before the announced bytes do.
    have hlength := congrArg List.length h
    rw [List.length_drop, List.length_cons] at hlength
    rw [saturate, Nat.min_eq_right (by omega), List.drop_eq_nil_of_le hbuffer,
      List.drop_eq_nil_of_le (by omega)]

/-- One step of a scan, in the buffer that it goes through. -/
theorem Scan.advance_cons {s : Scan} {buffer rest : Bytes} {b : UInt8} {layout : Layout}
    {a : Announced} (hbuffer : buffer.length ≤ wordMax) (hpending : s.pending ≠ 0)
    (h : buffer.drop s.reach = b :: rest) (hlayout : (Marker.ofByte b).layout = some layout)
    (hannounced : layout.announced rest = some a) :
    s.advance buffer = (s.past a).advance buffer := by
  rw [advance, advance, h, drop_past a hbuffer h, walk_cons hpending hlayout, hannounced]

/-- A scan that is gone on with when the buffer has grown comes out as one of the whole buffer. -/
theorem Scan.advance_advance (s : Scan) {short buffer : Bytes} (hfront : short <+: buffer)
    (hbuffer : buffer.length ≤ wordMax) :
    (s.advance short).2.advance buffer = s.advance buffer := by
  obtain ⟨more, rfl⟩ := hfront
  have hshort : short.length ≤ wordMax := by
    rw [List.length_append] at hbuffer
    omega
  -- The induction is on the steps of the first scan. Where it stops, the other one stands as well.
  suffices h : ∀ rest, short.drop s.reach = rest →
      (s.walk short.length rest).2.advance (short ++ more) = s.advance (short ++ more) from h _ rfl
  intro rest hrest
  fun_induction Scan.walk short.length s rest with
  | case1 | case2 | case3 | case4 => rfl
  | case5 s hpending b rest layout hlayout a hannounced ih =>
    rw [ih (drop_past a hshort hrest),
      advance_cons hbuffer hpending (drop_append_of_drop_eq_cons hrest more) hlayout
        (Layout.announced_append hannounced more)]

end MessagePack

end FrameRpc
