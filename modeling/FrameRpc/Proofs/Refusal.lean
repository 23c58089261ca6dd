import FrameRpc.Proofs.SizeLimit

/-!
# What is refused for its size

The limit is asked for only if a read leaves the value at the front incomplete. So a value that
exceeds the limit is refused exactly if some read leaves it incomplete after what has arrived of it
shows that it does (`Decoder.Shows`, `Decoder.tooLarge_iff_shows`). A value that there is no room
for always shows it; one that exceeds the limit by less than a read may be taken or refused, as the
reads cut it (`Decoder.exceeding_value_accepted`).
-/

namespace FrameRpc

open MessagePack

/-! ## Incomplete values -/

namespace Buffer

variable {α : Type} {read : Reader α} {b : Buffer}

/-- What has been seen of a value that goes on shows that it exceeds the limit: as many bytes as the
    limit allows, or a length field. -/
def Exceeds (limit : Nat) (seen : Bytes) : Prop :=
  seen ≠ [] ∧ (limit < (Scan.start.advance seen).2.reach ∨ limit ≤ seen.length)

/-- As long as bytes of the front value are missing, the limit alone decides. -/
theorem Tried.outcome_of_lt {more w tail : Bytes} {x : Attempt α × Buffer}
    (hx : Tried .value read b x) (h : b.Scanned) (hfront : b.bytes ++ more = w ++ tail)
    (hw : Values 1 w) (hword : w.length ≤ wordMax) (hended : b.ended = false)
    (hlt : b.bytes.length < w.length) :
    x.1 = .waiting ∧ ¬ Exceeds b.limit b.bytes ∨
      x.1 = .failed (.tooLarge b.offset b.limit) ∧ Exceeds b.limit b.bytes := by
  have hscan : (b.looked .value).scan = (Scan.start.advance b.bytes).2 := by
    have hanew := h.anew [] (by rw [List.append_nil]; omega)
    rw [List.append_nil] at hanew
    rw [looked, if_pos ⟨rfl, hended⟩, hanew]
  have hunseen : ¬ b.Seen .value := fun hseen =>
    Nat.not_le_of_lt hlt ((h.seen_iff hfront hw hword hended).1 hseen)
  cases hx with
  | exhausted _ hended' => exact Bool.noConfusion (hended.symm.trans hended')
  | idle hbytes _ => exact .inl ⟨rfl, fun hexceeds => hexceeds.1 hbytes⟩
  | short hbytes _ _ hreach hlength =>
    rw [hscan] at hreach
    exact .inl ⟨rfl, fun hexceeds => by have := hexceeds.2; omega⟩
  | large hbytes _ _ hlarge =>
    rw [hscan] at hlarge
    exact .inr ⟨rfl, hbytes, hlarge⟩
  | taken _ hseen | malformed _ hseen => exact absurd hseen hunseen

end Buffer

/-! ## Pulls -/

namespace Decoder

variable {α : Type} {framing : Framing} {config : DecoderConfig}

/-- A pull that need not wait, or that nothing more comes for, does not ask for the limit. -/
theorem pullFrom_ne_tooLarge {read : Reader α} (hsuffices : Suffices read) (mode : Mode)
    (source : Source) {b : Buffer} (reads : Nat) (h : b.Scanned) {more w tail : Bytes}
    (hfront : b.bytes ++ more = w ++ tail) (hw : Values 1 w) (hword : w.length ≤ wordMax)
    (hdone : b.ended = true ∨ w.length ≤ b.bytes.length) (offset limit : Nat) :
    (pullFrom framing read mode source b reads).1 ≠ .error (.tooLarge offset limit) := by
  have htried := Buffer.tried_tryTake framing read b
  have houtcome : (b.tryTake framing read).1 ≠ .waiting ∧
      ∀ offset limit, (b.tryTake framing read).1 ≠ .failed (.tooLarge offset limit) :=
    hdone.elim htried.outcome_of_ended (htried.outcome_of_le h hsuffices hfront hw hword)
  rcases hx : b.tryTake framing read with ⟨a | _ | e, b'⟩
  · rw [pullFrom_taken hx]
    exact nofun
  · rw [hx] at houtcome
    exact absurd rfl houtcome.1
  · rw [hx] at houtcome
    rw [pullFrom_failed hx]
    rintro ⟨⟩
    exact houtcome.2 _ _ rfl

/-- What the source brings leaves the value at the front incomplete after some reads, and shows by
    then that it exceeds the limit. -/
def Shows (source : Source) (b : Buffer) (size : Nat) : Prop :=
  b.ended = false ∧ ∃ k, (b.bytes ++ Source.unread (source.take k)).length < size ∧
    Buffer.Exceeds b.limit (b.bytes ++ Source.unread (source.take k))

/-- What does not show before the first read shows after it. -/
theorem shows_cons_iff {source : Source} {b b' : Buffer} {bs : Bytes} {size : Nat}
    (hbytes : b'.bytes = b.bytes ++ bs) (hended : b'.ended = b.ended) (hlimit : b'.limit = b.limit)
    (hfirst : ¬ Buffer.Exceeds b.limit b.bytes) :
    Shows (.bytes bs :: source) b size ↔ Shows source b' size := by
  have hlater : ∀ k, b'.bytes ++ Source.unread (source.take k)
      = b.bytes ++ Source.unread ((Delivery.bytes bs :: source).take (k + 1)) := by
    intro k
    rw [hbytes, List.append_assoc]
    rfl
  rw [Shows, Shows, hended, hlimit]
  refine and_congr_right fun _ => ⟨?_, ?_⟩
  · rintro ⟨k, hk, hexceeds⟩
    cases k with
    | zero =>
      rw [List.take_zero, Source.unread, List.flatMap_nil, List.append_nil] at hexceeds
      exact absurd hexceeds hfirst
    | succ k => exact ⟨k, by rwa [hlater], by rwa [hlater]⟩
  · rintro ⟨k, hk, hexceeds⟩
    exact ⟨k + 1, by rwa [← hlater], by rwa [← hlater]⟩

theorem not_shows_of_done {source : Source} {b : Buffer} {size : Nat}
    (hdone : b.ended = true ∨ size ≤ b.bytes.length) : ¬ Shows source b size := by
  rintro ⟨hended, k, hk, -⟩
  rw [List.length_append] at hk
  rcases hdone with hended' | hle
  · rw [hended] at hended'
    nomatch hended'
  · omega

theorem shows_of_exceeds {source : Source} {b : Buffer} {size : Nat} (hended : b.ended = false)
    (hlt : b.bytes.length < size) (h : Buffer.Exceeds b.limit b.bytes) : Shows source b size := by
  have hnone : b.bytes ++ Source.unread (source.take 0) = b.bytes := List.append_nil _
  exact ⟨hended, 0, by rwa [hnone], by rwa [hnone]⟩

/-- A pull finds the value at the front too large exactly if some read leaves it incomplete, and
    what has arrived of it by then exceeds the limit. -/
theorem pullFrom_tooLarge_iff {read : Reader α} (hread : Apportions .value read)
    (hsuffices : Suffices read) (mode : Mode) {source : Source} {b : Buffer} (reads : Nat)
    (h : b.Scanned) (hsource : Source.Delivering source) {w tail : Bytes}
    (hfront : b.bytes ++ Source.unread source = w ++ tail) (hw : Values 1 w)
    (hword : w.length ≤ wordMax) :
    (pullFrom .value read mode source b reads).1 = .error (.tooLarge b.offset b.limit) ↔
      Shows source b w.length := by
  induction source generalizing b reads with
  | nil =>
    -- There is nothing to come, so the value is there.
    have hle : w.length ≤ b.bytes.length := by
      have := congrArg List.length hfront
      rw [Source.unread, List.flatMap_nil, List.append_nil, List.length_append] at this
      omega
    exact iff_of_false
      (pullFrom_ne_tooLarge hsuffices mode [] reads h hfront hw hword (.inr hle) _ _)
      (not_shows_of_done (.inr hle))
  | cons e source ih =>
    by_cases hdone : b.ended = true ∨ w.length ≤ b.bytes.length
    · exact iff_of_false (pullFrom_ne_tooLarge hsuffices mode _ reads h hfront hw hword hdone _ _)
        (not_shows_of_done hdone)
    · rw [not_or, Bool.not_eq_true, Nat.not_le] at hdone
      obtain ⟨hended, hlt⟩ := hdone
      have htried := Buffer.tried_tryTake .value read b
      have houtcome := htried.outcome_of_lt h hfront hw hword hended hlt
      have hspends := Buffer.tryTake_spends hread b
      rcases hx : b.tryTake .value read with ⟨x, b₁⟩
      rw [hx] at htried houtcome hspends
      rcases houtcome with ⟨rfl, hfirst⟩ | ⟨rfl, hexceeds⟩
      · -- It waits; what shows, shows after the read.
        obtain ⟨bs, hbs, rfl⟩ := hsource e List.mem_cons_self
        have hbytes : (b₁.extend bs).bytes = b.bytes ++ bs := by
          rw [Buffer.extend_bytes, hspends.1]
        have hended₁ : (b₁.extend bs).ended = b.ended := by
          rw [Buffer.extend_of_ne_nil b₁ hbs, ← htried.ended_eq]
        have hlimit₁ := (Buffer.extend_limit b₁ bs).trans htried.limit_eq
        have hoffset₁ := (Buffer.extend_offset b₁ bs).trans hspends.2
        rw [pullFrom_waiting hx, shows_cons_iff hbytes hended₁ hlimit₁ hfirst, ← hoffset₁,
          ← hlimit₁]
        refine ih (reads + 1) ((h.tried htried).extend bs)
          (fun e he => hsource e (List.mem_cons_of_mem _ he)) ?_
        rw [hbytes, List.append_assoc]
        exact hfront
      · rw [pullFrom_failed hx]
        exact iff_of_true rfl (shows_of_exceeds hended hlt hexceeds)

/-- A value within the limit does not show that it exceeds it. -/
theorem not_shows_of_le {source : Source} {b : Buffer} {w tail : Bytes}
    (hfront : b.bytes ++ Source.unread source = w ++ tail) (hw : Values 1 w)
    (hword : w.length ≤ wordMax) (hle : w.length ≤ b.limit) : ¬ Shows source b w.length := by
  rintro ⟨-, k, hk, -, hreach | hlength⟩
  · have hseen : b.bytes ++ Source.unread (source.take k) ++ Source.unread (source.drop k)
        = w ++ tail := by
      rw [← hfront, List.append_assoc, Source.unread, Source.unread, ← List.flatMap_append,
        List.take_append_drop]
      rfl
    have htracks := (Scan.advance_tracks (Scan.tracks_start hw) hword hseen).1.reach_le
    omega
  · omega

theorem length_held_le {e : Delivery} {n : Nat}
    (h : ∀ bs, e = .bytes bs → bs.length ≤ n) : (Source.held e).length ≤ n := by
  cases e with
  | bytes bs => exact h bs rfl
  | failure | interruption => exact Nat.zero_le n

/-- Reads of at most a chunk do not leap from below the limit over all the room. -/
theorem exists_take_of_room_lt {source : Source} {seen : Bytes}
    (hchunk : ∀ bs, Delivery.bytes bs ∈ source → bs.length ≤ max config.chunk 1)
    (hroom : seen.length ≤ config.room)
    (hmore : config.room < (seen ++ Source.unread source).length) :
    ∃ k, max config.limit 1 ≤ (seen ++ Source.unread (source.take k)).length ∧
      (seen ++ Source.unread (source.take k)).length ≤ config.room := by
  induction source generalizing seen with
  | nil =>
    rw [Source.unread, List.flatMap_nil, List.append_nil] at hmore
    omega
  | cons e source ih =>
    have hsplit : ∀ s : Source, seen ++ Source.unread (e :: s)
        = (seen ++ Source.held e) ++ Source.unread s := fun s => (List.append_assoc _ _ _).symm
    by_cases hfull : max config.limit 1 ≤ seen.length
    · have hnone : seen ++ Source.unread ((e :: source).take 0) = seen := List.append_nil _
      exact ⟨0, by rwa [hnone], by rwa [hnone]⟩
    · have hheld : (Source.held e).length ≤ max config.chunk 1 :=
        length_held_le fun bs he => hchunk bs (he ▸ List.mem_cons_self)
      rw [hsplit] at hmore
      obtain ⟨k, hk, hk'⟩ := ih (fun bs hbs => hchunk bs (List.mem_cons_of_mem _ hbs))
        (by rw [List.length_append, DecoderConfig.room]; omega) hmore
      rw [← hsplit] at hk hk'
      exact ⟨k + 1, hk, hk'⟩

/-- A value that there is no room for is found too large, unless the end of input has been seen. -/
theorem Bounded.shows {source : Source} {b : Buffer} (h : Bounded config source b) {size : Nat}
    (hended : b.ended = false) (hlarge : config.room < size)
    (hsize : size ≤ (b.bytes ++ Source.unread source).length) : Shows source b size := by
  obtain ⟨k, hk, hk'⟩ := exists_take_of_room_lt h.chunk h.room (Nat.lt_of_lt_of_le hlarge hsize)
  refine ⟨hended, k, Nat.lt_of_le_of_lt hk' hlarge, ?_, .inr ?_⟩
  · exact List.ne_nil_of_length_pos (by omega)
  · rw [h.limit]
    omega

/-- **What the limit does not promise.** Whether a value that exceeds the limit is refused depends
    on the reads: some read has to leave it incomplete after it shows that it exceeds the limit.
    A value within the limit is never refused, and one that there is no room for always is, unless
    it stands in the buffer with the end of input behind it. -/
theorem tooLarge_iff_shows {d : Decoder} (hd : Reached config d) {r : Request} (hr : Whole r)
    (hsates : Sates r) (hvalue : (serving r).framing = .value)
    (hsource : Source.Delivering d.source) {w tail : Bytes}
    (hfront : d.buffer.bytes ++ Source.unread d.source = w ++ tail) (hw : Values 1 w)
    (hword : w.length ≤ wordMax) :
    ((d.answer r).1 = .error (.tooLarge d.offset config.limit) ↔
        Shows d.source d.buffer w.length) ∧
      (w.length ≤ config.limit → (d.answer r).1 ≠ .error (.tooLarge d.offset config.limit)) ∧
      (d.buffer.ended = false → config.room < w.length →
        (d.answer r).1 = .error (.tooLarge d.offset config.limit)) := by
  have hread : Apportions .value (serving r).read := hvalue ▸ apportions_serving hr
  have hiff : (d.answer r).1 = .error (.tooLarge d.offset config.limit) ↔
      Shows d.source d.buffer w.length := by
    rw [answer_tooLarge_iff hr, hvalue, ← hd.bounded.limit]
    exact pullFrom_tooLarge_iff hread (suffices_serving hsates) d.mode d.reads hd.bounded.scanned
      hsource hfront hw hword
  refine ⟨hiff, fun hle => ?_, fun hended hlarge => hiff.2 ?_⟩
  · rw [ne_eq, hiff]
    exact not_shows_of_le hfront hw hword (hd.bounded.limit ▸ hle)
  · refine hd.bounded.shows hended hlarge ?_
    rw [hfront, List.length_append]
    exact Nat.le_add_right _ _

theorem values_two_bytes : Values 1 [0xCC, 0x05] := .cons rfl rfl (by decide) .nil

/-- A decoder under a limit of one byte, in front of a number of two. -/
def numberCut : Decoder := .new .blocking ([[0xCC], [0x05]].map .bytes) ⟨8, 1⟩

/-- The first byte, read alone, shows that the number exceeds the limit. -/
theorem tooLarge_iff_shows_numberCut :
    (numberCut.answer (.pull .skip)).1 = .error (.tooLarge 0 1) := by
  have hreached : Reached ⟨8, 1⟩ numberCut := ⟨_, _, [], nofun, rfl⟩
  have hsome : ∀ c ∈ [[0xCC], [0x05]], c ≠ ([] : Bytes) := by decide
  have hfront : numberCut.buffer.bytes ++ Source.unread numberCut.source = [0xCC, 0x05] ++ [] :=
    Source.unread_cut [[0xCC], [0x05]] 8
  have hshows : Shows numberCut.source numberCut.buffer 2 :=
    ⟨rfl, 1, by decide +kernel, by decide +kernel, .inr (by decide +kernel)⟩
  exact (tooLarge_iff_shows (r := .pull .skip) hreached trivial trivial rfl
    (Source.delivering_cut hsome 8) hfront values_two_bytes (by decide)).1.2 hshows

/-- Read at once the number is taken; behind a read of its first byte alone it is refused. -/
theorem exceeding_value_accepted :
    Values 1 [0xCC, 0x05] ∧ 1 < ([0xCC, 0x05] : Bytes).length ∧
      (Decoder.new .blocking [.bytes [0xCC, 0x05]] ⟨8, 1⟩).nextValue.1.isOk = true ∧
      reportsTooLarge numberCut.nextValue.1 = true :=
  ⟨values_two_bytes, by decide, by decide +kernel, by decide +kernel⟩

end Decoder

end FrameRpc
