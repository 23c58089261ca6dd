import FrameRpc.Proofs.Recognition
import Mathlib.Data.List.Forall2

/-!
# Going on with a scan

A value may arrive in many pieces. A scan of its front stops for lack of bytes and is gone on with
when the buffer has grown, any number of times (`Scan.answers`). Where it is interrupted does not
matter, nor how often (`Scan.resumes`): with each front it stands where a scan of that front alone
would (`Scan.answers_eq_map`).

So what it says is a matter of the bytes. The value is complete from the front on that ends where
the value does. It is malformed from the front on that has the marker which spoils it
(`SpoiledAt`). In front of both it is incomplete, and the scan has not accounted for more bytes than
any value has that can still come of the front. An answer other than that bytes are missing is final
(`Scan.advance_of_settled`).
-/

namespace FrameRpc

namespace MessagePack

/-- The answers of a scan that is gone on with in one buffer after the other, and where it stands
    with each. -/
def Scan.answers (s : Scan) : List Bytes → List (Verdict × Scan)
  | [] => []
  | buffer :: buffers => s.advance buffer :: (s.advance buffer).2.answers buffers

/-- As long as the buffer only grows, each answer is the one that a single scan of it gives. -/
theorem Scan.answers_eq_map {buffers : List Bytes} (hgrow : buffers.Pairwise (· <+: ·))
    (hbuffers : ∀ buffer ∈ buffers, buffer.length ≤ wordMax) (s : Scan) :
    s.answers buffers = buffers.map s.advance := by
  induction buffers generalizing s with
  | nil => rfl
  | cons buffer buffers ih =>
    obtain ⟨hfront, hgrow⟩ := List.pairwise_cons.1 hgrow
    obtain ⟨-, hbuffers⟩ := List.forall_mem_cons.1 hbuffers
    rw [answers, ih hgrow hbuffers, List.map_cons]
    refine congrArg _ (List.map_congr_left fun later hlater => ?_)
    exact advance_advance s (hfront later hlater) (hbuffers later hlater)

/-! ## Answers that are final -/

/-- Where a scan has not stopped for lack of bytes, more of them make no difference. -/
theorem Scan.advance_of_settled {s : Scan} {short buffer : Bytes} (hfront : short <+: buffer)
    (hbuffer : buffer.length ≤ wordMax) (h : (s.advance short).1 ≠ .incomplete) :
    s.advance buffer = s.advance short := by
  obtain ⟨more, rfl⟩ := hfront
  have hle : short.length ≤ (short ++ more).length := by
    rw [List.length_append]
    exact Nat.le_add_right _ _
  rw [advance] at h
  change s.advance (short ++ more) = s.walk short.length (short.drop s.reach)
  generalize hrest : short.drop s.reach = rest at h ⊢
  fun_induction Scan.walk short.length s rest with
  | case1 s rest hdone =>
    have hreach : s.reach ≤ short.length := Decidable.not_not.1 fun hlt => h (if_neg hlt)
    rw [advance, walk_of_done hdone, if_pos hreach, if_pos (Nat.le_trans hreach hle)]
  | case2 | case4 => exact absurd rfl h
  | case3 s hpending b rest hb =>
    rw [advance, drop_append_of_drop_eq_cons hrest more, walk_reserved hpending hb]
  | case5 s hpending b rest layout hlayout a hannounced ih =>
    rw [advance_cons hbuffer hpending (drop_append_of_drop_eq_cons hrest more) hlayout
      (Layout.announced_append hannounced more)]
    exact ih (drop_past a (Nat.le_trans hle hbuffer) hrest) h

/-! ## The marker that spoils a value -/

/-- The reserved marker stands at this place of the bytes, and there a value would have to begin:
    what is in front of the marker can still become a value, and with it nothing can. -/
@[mk_iff]
structure SpoiledAt (b : Bytes) (k : Nat) : Prop where
  reserved : b[k]? = some 0xC1
  before : ∃ more, IsValue (b.take k ++ more)
  behind : ∀ more, ¬ Holds (b.take (k + 1) ++ more)

theorem SpoiledAt.lt_length {b : Bytes} {k : Nat} (h : SpoiledAt b k) : k < b.length :=
  (List.getElem?_eq_some_iff.1 h.reserved).1

theorem SpoiledAt.le {b : Bytes} {k l : Nat} (hk : SpoiledAt b k) (hl : SpoiledAt b l) : l ≤ k := by
  refine Nat.le_of_not_lt fun hlt => ?_
  -- What is in front of the later marker has the earlier one, and can become no value.
  obtain ⟨more, hmore⟩ := hl.before
  have htake : b.take (k + 1) = (b.take l).take (k + 1) := by
    rw [List.take_take, Nat.min_eq_left hlt]
  have hsplit : b.take (k + 1) ++ (b.take l).drop (k + 1) = b.take l := by
    rw [htake, List.take_append_drop]
  refine hk.behind ((b.take l).drop (k + 1) ++ more) ⟨b.take l ++ more, [], ?_, hmore⟩
  rw [← List.append_assoc, hsplit, List.append_nil]

/-- A value is spoiled at one place only. -/
theorem SpoiledAt.unique {b : Bytes} {k l : Nat} (hk : SpoiledAt b k) (hl : SpoiledAt b l) :
    k = l :=
  Nat.le_antisymm (hl.le hk) (hk.le hl)

/-- Whether a marker spoils a value is a matter of the bytes up to there. -/
theorem spoiledAt_iff_append {front : Bytes} {k : Nat} (more : Bytes) :
    SpoiledAt front k ↔ k < front.length ∧ SpoiledAt (front ++ more) k := by
  have hsame (hk : k < front.length) : SpoiledAt (front ++ more) k ↔ SpoiledAt front k := by
    rw [spoiledAt_iff, spoiledAt_iff, List.getElem?_append_left hk,
      List.take_append_of_le_length (Nat.le_of_lt hk), List.take_append_of_le_length hk]
  exact ⟨fun h => ⟨h.lt_length, (hsame h.lt_length).2 h⟩, fun ⟨hk, h⟩ => (hsame hk).1 h⟩

theorem eq_reserved_of_layout : ∀ b, (Marker.ofByte b).layout = none → b = 0xC1 :=
  forall_byte (by decide +kernel)

/-- Behind a part of a value with more values to come, a marker that begins none spoils it. -/
theorem Partway.spoiledAt {u : Bytes} {b : UInt8} {n : Nat} (hu : Partway (n + 1) 1 u)
    (hb : (Marker.ofByte b).layout = none) (tail : Bytes) :
    SpoiledAt (u ++ b :: tail) u.length := by
  refine ⟨?_, ⟨List.replicate (n + 1) 0xC0, ?_⟩, ?_⟩
  · rw [List.getElem?_append_right (Nat.le_refl _), Nat.sub_self, List.getElem?_cons_zero,
      eq_reserved_of_layout b hb]
  · rw [List.take_left]
    exact isValue_iff_values.2 (hu.values (values_replicate (n + 1)))
  · have htake : (u ++ b :: tail).take (u.length + 1) = u ++ [b] := by
      rw [List.take_length_add_append, List.take_succ_cons, List.take_zero]
    rintro more ⟨w, tail', heq, hw⟩
    rw [htake, List.append_assoc, List.singleton_append] at heq
    exact hu.append_ne hb hw.values heq

/-- There the scan stops. -/
theorem Scan.advance_of_reserved {u tail : Bytes} {b : UInt8} {n : Nat}
    (hu : Partway (n + 1) 1 u) (hb : (Marker.ofByte b).layout = none)
    (hword : (u ++ b :: tail).length ≤ wordMax) :
    ∃ k, start.advance (u ++ b :: tail) = (.malformed, ⟨u.length, k⟩) := by
  rw [List.length_append] at hword
  obtain ⟨k, hnear, hadvance⟩ :=
    (advance_follows (follows_start hu) (Nat.le_of_add_right_le hword)
      (List.append_nil (u ++ b :: tail))).2 (by
        rw [List.length_append]
        exact Nat.le_add_right _ _)
  have hk : k ≠ 0 := by
    rw [Near] at hnear
    omega
  refine ⟨k, ?_⟩
  rw [hadvance, advance, List.drop_left, walk_reserved hk hb]

section

variable {front : Bytes}

/-- A scan that finds a value malformed stands at the marker that spoils it. -/
theorem Scan.spoiledAt_of_malformed (hword : front.length ≤ wordMax)
    (h : (start.advance front).1 = .malformed) :
    SpoiledAt front (start.advance front).2.reach := by
  obtain ⟨u, b, tail, n, hfront, hpartway, hb⟩ :=
    exists_partway_of_malformed hword h (Nat.le_refl start.pending)
  obtain rfl : front = u ++ b :: tail := hfront
  obtain ⟨k, hadvance⟩ := advance_of_reserved hpartway hb hword
  rw [hadvance]
  exact hpartway.spoiledAt hb tail

theorem Scan.malformed_of_spoiledAt (hword : front.length < wordMax) {k : Nat}
    (h : SpoiledAt front k) : (start.advance front).1 = .malformed := by
  -- What is behind the marker does not make the front one of a value.
  have hnone (more : Bytes) : ¬ Holds (front ++ more) := by
    rw [← List.take_append_drop (k + 1) front, List.append_assoc]
    exact h.behind _
  cases hverdict : (start.advance front).1 with
  | malformed => rfl
  | incomplete =>
    obtain ⟨more, -, hmore⟩ := exists_holds_of_incomplete hword hverdict
    exact absurd hmore (hnone more)
  | complete =>
    have hholds := holds_of_complete hword hverdict
    rw [← List.append_nil front] at hholds
    exact absurd hholds (hnone [])

/-- The scan finds a value malformed where a marker spoils it, and stands there. -/
theorem Scan.malformed_iff_spoiledAt (hword : front.length < wordMax) {k : Nat} :
    (start.advance front).1 = .malformed ∧ (start.advance front).2.reach = k ↔
      SpoiledAt front k := by
  constructor
  · rintro ⟨hverdict, rfl⟩
    exact spoiledAt_of_malformed (Nat.le_of_lt hword) hverdict
  · intro h
    have hverdict := malformed_of_spoiledAt hword h
    exact ⟨hverdict, (spoiledAt_of_malformed (Nat.le_of_lt hword) hverdict).unique h⟩

/-! ## What a scan accounts for -/

theorem Scan.reach_advance_le {s : Scan} (h : s.reach ≤ wordMax) (buffer : Bytes) :
    (s.advance buffer).2.reach ≤ wordMax := by
  rw [advance]
  generalize buffer.drop s.reach = rest
  fun_induction Scan.walk buffer.length s rest with
  | case1 | case2 | case3 | case4 => exact h
  | case5 s _ _ _ _ _ _ _ ih => exact ih (Nat.min_le_right _ _)

/-- A scan does not account for more bytes than a value has that can come of the front. -/
theorem Scan.reach_le_of_isValue {w : Bytes} (hw : IsValue w) (hfront : front <+: w) :
    (start.advance front).2.reach ≤ w.length := by
  by_cases hword : w.length ≤ wordMax
  · obtain ⟨coming, rfl⟩ := hfront
    exact (advance_tracks (tracks_start hw.values) hword (List.append_nil _).symm).1.reach_le
  · exact Nat.le_trans (reach_advance_le (Nat.zero_le _) front) (Nat.le_of_not_le hword)

end

/-! ## Resumption -/

/-- What an answer tells of the front of `b` that has arrived. -/
structure Scan.Tells (b front : Bytes) (answer : Verdict × Scan) : Prop where
  /-- A new scan of the front tells the same. -/
  fresh : start.advance front = answer
  /-- When nothing has arrived since, going on changes nothing. -/
  again : answer.2.advance front = answer
  /-- The value at the front of `b` ends here, and the whole of it has arrived. -/
  complete_iff (n : Nat) :
    answer.1 = .complete ∧ answer.2.reach = n ↔ n ≤ front.length ∧ IsValue (b.take n)
  /-- The marker that spoils the value stands here, and it has arrived. -/
  malformed_iff (k : Nat) :
    answer.1 = .malformed ∧ answer.2.reach = k ↔ k < front.length ∧ SpoiledAt b k
  /-- No value that begins with the front is shorter than what has been accounted for. -/
  reach_le (w : Bytes) : IsValue w → front <+: w → answer.2.reach ≤ w.length

/-- What a scan says of a front is right. -/
theorem Scan.tells_advance {b front : Bytes} (hword : b.length < wordMax) (hfront : front <+: b) :
    Tells b front (start.advance front) := by
  have hshort : front.length < wordMax := Nat.lt_of_le_of_lt hfront.length_le hword
  obtain ⟨more, rfl⟩ := hfront
  refine ⟨rfl, advance_advance start (List.prefix_refl front) (Nat.le_of_lt hshort), fun n => ?_,
    fun k => (malformed_iff_spoiledAt hshort).trans (spoiledAt_iff_append more),
    fun w => reach_le_of_isValue⟩
  constructor
  · rintro ⟨hverdict, rfl⟩
    obtain ⟨hle, hvalue⟩ := isValue_of_complete hshort hverdict
    exact ⟨hle, by rwa [List.take_append_of_le_length hle]⟩
  · rintro ⟨hle, hvalue⟩
    rw [List.take_append_of_le_length hle] at hvalue
    rw [advance_of_isValue (Nat.le_of_lt hshort) hle hvalue]
    exact ⟨rfl, rfl⟩

/-- **Resumption.** As one front after the other of bytes that a word can count arrives, and at last
    all of them, a scan that is gone on with comes out as a scan of all of them. Each answer on the
    way is right of its front, and one that does not ask for more bytes stays. -/
theorem Scan.resumes {b : Bytes} (hword : b.length < wordMax) {fronts : List Bytes}
    (hgrow : (fronts ++ [b]).Pairwise (· <+: ·)) :
    (start.answers (fronts ++ [b])).getLast? = some (start.advance b) ∧
      List.Forall₂ (Tells b) (fronts ++ [b]) (start.answers (fronts ++ [b])) ∧
      (start.answers (fronts ++ [b])).Pairwise fun earlier later =>
        earlier.1 = .incomplete ∨ later = earlier := by
  have hfront : ∀ front ∈ fronts ++ [b], front <+: b := by
    intro front hmem
    obtain hmem | hmem := List.mem_append.1 hmem
    · exact (List.pairwise_append.1 hgrow).2.2 front hmem b List.mem_cons_self
    · obtain rfl := List.mem_singleton.1 hmem
      exact List.prefix_refl front
  have hshort : ∀ front ∈ fronts ++ [b], front.length ≤ wordMax := fun front hmem =>
    Nat.le_trans (hfront front hmem).length_le (Nat.le_of_lt hword)
  rw [answers_eq_map hgrow hshort]
  refine ⟨?_, ?_, ?_⟩
  · rw [List.map_append, List.map_singleton, List.getLast?_concat]
  · rw [List.forall₂_map_right_iff, List.forall₂_same]
    exact fun front hmem => tells_advance hword (hfront front hmem)
  · refine List.pairwise_map.2 (hgrow.imp_of_mem fun {earlier later} _ hlater hle => ?_)
    by_cases hverdict : (start.advance earlier).1 = .incomplete
    · exact .inl hverdict
    · exact .inr (advance_of_settled hle (hshort later hlater) hverdict)

/-- A list of three, with a list of two in it that begins with the reserved marker. -/
def brokenList : Bytes := listCutInCount ++ [0x00, 0x00, 0x02, 0xC1, 0x2A]

/-- It arrives in pieces, cut in front of a body, in a count field and in front of the marker; once
    nothing comes. -/
def brokenListArriving : List Bytes := [0, 3, 3, 10, 13, 14].map brokenList.take

/-- The scan runs ahead of the first pieces, though not of any value that they begin, and stays at
    the marker when that has come. -/
theorem Scan.resumes_brokenList :
    brokenList.length < wordMax ∧ (brokenListArriving ++ [brokenList]).Pairwise (· <+: ·) ∧
      start.advance brokenList = (.malformed, ⟨13, 3⟩) ∧
      SpoiledAt brokenList 13 ∧
      ∀ w, IsValue w → [0x93, 0xC7, 0x01] <+: w → 5 ≤ w.length := by
  have hword : brokenList.length < wordMax := by decide
  have hgrow : (brokenListArriving ++ [brokenList]).Pairwise (· <+: ·) := by decide +kernel
  have hanswers : start.answers (brokenListArriving ++ [brokenList])
      = [(.incomplete, ⟨0, 1⟩), (.incomplete, ⟨5, 2⟩), (.incomplete, ⟨5, 2⟩), (.incomplete, ⟨8, 2⟩),
        (.incomplete, ⟨13, 3⟩), (.malformed, ⟨13, 3⟩), (.malformed, ⟨13, 3⟩)] := by decide +kernel
  obtain ⟨hlast, htells, -⟩ := resumes hword hgrow
  rw [hanswers] at hlast htells
  simp only [brokenListArriving, List.map_cons, List.map_nil, List.cons_append, List.nil_append,
    List.forall₂_cons] at htells
  obtain ⟨-, hpiece, -, -, -, hmarker, -⟩ := htells
  exact ⟨hword, hgrow, (Option.some.inj hlast).symm,
    ((hmarker.malformed_iff 13).1 ⟨rfl, rfl⟩).2, hpiece.reach_le⟩

end MessagePack

end FrameRpc
