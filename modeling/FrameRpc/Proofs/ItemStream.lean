import FrameRpc.Proofs.Converting
import FrameRpc.Proofs.FrameStream
import FrameRpc.Proofs.Promptness

/-!
# Lists, item by item

A list that is too large to be taken at once can be taken item by item: first its length, and then
each item as a value, or past it (`Decoder.items_one_by_one`). The items come out as they were
written, at the offsets where they stand, and behind the last one the decoder stands where it would
stand if it had taken, or passed over, the whole list.

That the list was found too large before does no harm: a pull that finds a value too large leaves
all its bytes, and the scan of the next one starts anew (`Delivers.tooLarge`).
-/

namespace FrameRpc

open MessagePack

/-! ## What pulls leave -/

namespace Buffer

variable {α : Type} {framing : Framing} {read : Reader α} {b b₁ : Buffer} {source : Source}
  {size : Nat} {bs : Bytes}

theorem Awaits.waited (h : b.Awaits source size bs)
    (hx : b.tryTake framing read = (.waiting, b₁)) : b₁.Awaits source size bs := by
  have htried := hx ▸ tried_tryTake framing read b
  obtain ⟨hbytes, hdelivering, hended, hroom⟩ := h
  rw [← htried.bytes_of_waiting] at hbytes
  rw [← htried.ended_eq] at hended hroom
  rw [← htried.limit_eq] at hroom
  exact ⟨hbytes, hdelivering, hended, hroom⟩

end Buffer

namespace Decoder

variable {α : Type} {framing : Framing} {read : Reader α} {size : Nat} {bs : Bytes} {d d' : Decoder}

theorem Through.awaits {source source' : Source} {b b' : Buffer}
    (h : Through framing read source b source' b') (hb : b.Awaits source size bs) :
    b'.Awaits source' size bs ∧ b'.offset = b.offset := by
  have hwait {b b₁ : Buffer} (hx : b.tryTake framing read = (.waiting, b₁)) :
      b₁.offset = b.offset := (hx ▸ Buffer.tried_tryTake framing read b).offset_of_waiting
  -- Reads move bytes from the source to the buffer, and nothing else happens to either.
  induction h with
  | here => exact ⟨hb, rfl⟩
  | read hx _ ih =>
    obtain ⟨hawaits, hoffset⟩ := ih (hb.waited hx).extend
    exact ⟨hawaits, hoffset.trans ((Buffer.extend_offset _ _).trans (hwait hx))⟩
  | interrupted hx _ ih =>
    obtain ⟨_, _, heq⟩ := hb.delivering _ List.mem_cons_self
    nomatch heq
  | ended hx _ ih =>
    have hwaited := hb.waited hx
    obtain ⟨hawaits, hoffset⟩ := ih ⟨by rw [Buffer.extend_bytes, List.append_nil, hwaited.bytes],
      hwaited.delivering, fun _ => rfl, .inl rfl⟩
    exact ⟨hawaits, hoffset.trans ((Buffer.extend_offset _ _).trans (hwait hx))⟩

/-- Whatever a pull has waited for, its last attempt has all the bytes in front of it. -/
theorem Delivers.exists_ends (h : d.Delivers size bs) (framing : Framing) (read : Reader α) :
    ∃ source b, b.Awaits source size bs ∧ b.offset = d.offset ∧
      Ends framing read source b (d.pull framing read) := by
  obtain ⟨source, b, hthrough, hends⟩ :=
    Decoder.exists_ends framing read d.mode d.source d.buffer d.reads
  obtain ⟨hawaits, hoffset⟩ := hthrough.awaits h.awaits
  exact ⟨source, b, hawaits, hoffset, hends⟩

/-- A pull that finds a value too large leaves everything for the next one. -/
theorem Delivers.tooLarge (h : d.Delivers size bs) {offset limit : Nat}
    (hpull : d.pull framing read = (.error (.tooLarge offset limit), d')) :
    d'.Delivers size bs ∧ d'.offset = d.offset := by
  obtain ⟨source, b, ⟨hbytes, hdelivering, hended, hroom⟩, hoffset, hends⟩ :=
    h.exists_ends framing read
  rw [hpull] at hends
  cases hends with
  | failed hx hsource =>
    obtain ⟨_, _, buffer, _⟩ := d'
    subst hsource
    have htried := hx ▸ Buffer.tried_tryTake framing read b
    cases htried with
    | large => exact ⟨⟨⟨hbytes, hdelivering, hended, hroom⟩, rfl⟩, hoffset⟩

/-- What a pull takes is the portion at the front. -/
theorem Delivers.taken {front tail : Bytes} (h : d.Delivers size (front ++ tail))
    (hread : Apportions framing read) (hportion : Portion framing front) {a : α}
    (hpull : d.pull framing read = (.ok a, d')) :
    d'.Delivers size tail ∧ d'.offset = d.offset + front.length := by
  obtain ⟨source, b, ⟨hbytes, hdelivering, hended, hroom⟩, hoffset, hends⟩ :=
    h.exists_ends framing read
  rw [hpull] at hends
  cases hends with
  | taken hx hsource =>
    obtain ⟨_, _, buffer, _⟩ := d'
    subst hsource
    have htried := hx ▸ Buffer.tried_tryTake framing read b
    cases htried with
    | @taken _ rest _ _ hr =>
      obtain ⟨front', hsplit, hportion'⟩ := hread _ _ _ hr
      rw [hsplit, List.append_assoc] at hbytes
      obtain rfl := hportion'.eq_of_append hportion hbytes
      refine ⟨⟨⟨List.append_cancel_left hbytes, hdelivering, hended, hroom⟩, rfl⟩, ?_⟩
      rw [← hoffset, offset]
      dsimp only
      rw [hsplit, List.length_append, Nat.add_sub_cancel]

end Decoder

/-! ## Heads of lists -/

namespace MessagePack

theorem reads_readListLength {n : Nat} (h : n < lengthRange) :
    Reads readListLength (listHead n) n := by
  intro rest
  rw [listHead]
  split
  · rename_i hn
    rw [List.singleton_append, readListLength_cons, ofByte_fixList hn]
  split
  · rename_i hn
    exact reads_takeField (w := .two) hn rest
  · exact reads_takeField (w := .four) h rest

theorem portion_listHead {n : Nat} (h : n < lengthRange) : Portion .listHead (listHead n) := by
  obtain ⟨front, hfront, hportion⟩ := apportions_readListLength _ _ _ (reads_readListLength h [])
  rw [List.append_nil, List.append_nil] at hfront
  rwa [hfront]

end MessagePack

namespace Decoder

variable {size : Nat} {d : Decoder} {tail : Bytes}

theorem Delivers.nextListLength {n : Nat} (h : d.Delivers size (listHead n ++ tail))
    (hn : n < lengthRange) (hsize : 5 ≤ size) :
    ∃ d', d.nextListLength = (.ok n, d') ∧ d'.Delivers size tail ∧
      d'.offset = d.offset + (listHead n).length := by
  have hportion := portion_listHead hn
  have hlength := length_le_of_portion hportion
  have hread : readListLength (listHead n) = .ok (n, []) := by
    have := reads_readListLength hn []
    rwa [List.append_nil] at this
  -- Nothing is to come behind the end of input, and before it the limit is large enough.
  have hcoming : ∀ e ∈ d.source, e.Brings d.mode := fun e he => .inl (h.awaits.delivering e he)
  have hended : d.buffer.ended = true → d.source = [] := fun hended =>
    h.awaits.delivering.eq_nil (h.awaits.ended hended)
  have hlimit : d.buffer.ended = false → 5 ≤ d.buffer.limit := by
    intro hopen
    have hroom := h.awaits.room.resolve_left fun hended => Bool.noConfusion (hopen.symm.trans hended)
    exact Nat.le_trans hsize hroom.1
  obtain ⟨k, b, -, hpull⟩ := concludes_of_front frontToBack_readListLength
    (needs_readListLength (.listHead hportion (Nat.le_refl 5)))
    (Nat.le_trans hlength (by decide)) (Buffer.steady_of_start h.scan)
    (fun hopen => Nat.le_trans hlength (hlimit hopen)) hcoming hended h.awaits.bytes
  have hpull := hpull [] d.reads
  rw [hread, List.append_nil] at hpull
  exact ⟨_, hpull, h.taken apportions_readListLength hportion hpull⟩

theorem Delivers.skip {v : Value} (h : d.Delivers size (write v ++ tail))
    (hv : v.Writable maxDepth) (hsize : (write v).length ≤ size) :
    ∃ d', d.skip = (.ok (), d') ∧ d'.Delivers size tail ∧
      d'.offset = d.offset + (write v).length :=
  h.pull (reads_skipValue hv) (values_of_reads (reads_write hv) takes_readValue) hsize

/-! ## Items -/

/-- An item is pulled as a value, or passed over. -/
def pick : Bool → Request
  | true => .pull (.next .dynamic)
  | false => .pull .skip

/-- What there is to see of the item `v`. -/
def picked : (keep : Bool) → Value → Except Error (pick keep).Result
  | true, v => .ok v
  | false, _ => .ok ()

/-- The answers to pulls of these items, which stand one behind the other from `offset` on. -/
def itemAnswers (offset : Nat) : List (Bool × Value) → List Answer
  | [] => []
  | (keep, v) :: rest =>
    ⟨pick keep, picked keep v, offset + (write v).length⟩ ::
      itemAnswers (offset + (write v).length) rest

theorem Delivers.answer_pick {v : Value} (h : d.Delivers size (write v ++ tail))
    (hv : v.Writable maxDepth) (hsize : (write v).length ≤ size) (keep : Bool) :
    ∃ d', d.answer (pick keep) = (picked keep v, d') ∧ d'.Delivers size tail ∧
      d'.offset = d.offset + (write v).length := by
  cases keep with
  | true => exact h.nextValue hv hsize
  | false => exact h.skip hv hsize

/-- The items come out one by one, as far as they are asked for, and then the decoder stands behind
    the last one. -/
theorem Delivers.answers_items {vs : List Value} (h : d.Delivers size (writeItems vs ++ tail))
    (hvs : ∀ v ∈ vs, v.Writable maxDepth) (hsize : ∀ v ∈ vs, (write v).length ≤ size)
    {picks : List Bool} (hpicks : picks.length = vs.length) :
    d.answers (picks.map pick) = itemAnswers d.offset (picks.zip vs) ∧
      (d.afterAll (picks.map pick)).offset = d.offset + (writeItems vs).length := by
  induction vs generalizing d picks with
  | nil =>
    obtain rfl := List.eq_nil_of_length_eq_zero hpicks
    exact ⟨rfl, rfl⟩
  | cons v vs ih =>
    obtain ⟨keep, picks, rfl⟩ := List.exists_cons_of_length_eq_add_one hpicks
    obtain ⟨hv, hvs⟩ := List.forall_mem_cons.1 hvs
    obtain ⟨hvsize, hsize⟩ := List.forall_mem_cons.1 hsize
    rw [writeItems, List.append_assoc] at h
    obtain ⟨d', hd', h', hoffset⟩ := h.answer_pick hv hvsize keep
    obtain ⟨hanswers, hafter⟩ := ih h' hvs hsize (Nat.succ.inj hpicks)
    rw [List.map_cons, List.zip_cons_cons]
    refine ⟨?_, ?_⟩
    · rw [answers, itemAnswers, hd', ← hoffset]
      exact congrArg _ hanswers
    · rw [afterAll, hd', writeItems, List.length_append, ← Nat.add_assoc, ← hoffset]
      exact hafter

/-- **Item by item.** A list within the limit comes out whole, or is passed over. Also if it is not
    within the limit but its items are, and also right after it was found too large, its length
    comes out, and then each item, or past it; and all these ways end at the same offset. A limit
    is a word, and a head needs up to five bytes. -/
theorem items_one_by_one {vs : List Value} (hvs : (Value.list vs).Writable maxDepth) (mode : Mode)
    {config : DecoderConfig} (hlimit : config.limit ≤ wordMax) (hhead : 5 ≤ config.limit)
    (hsize : ∀ v ∈ vs, (write v).length ≤ config.limit) {chunks : List Bytes}
    (nonempty : ∀ c ∈ chunks, c ≠ []) {tail : Bytes}
    (hchunks : chunks.flatten = write (.list vs) ++ tail) :
    (∀ d, d = new mode (chunks.map .bytes) config ∨ (∃ offset limit,
          (new mode (chunks.map .bytes) config).nextValue = (.error (.tooLarge offset limit), d)) →
        ∃ d', d.nextListLength = (.ok vs.length, d') ∧
          d'.offset = (listHead vs.length).length ∧
          ∀ picks : List Bool, picks.length = vs.length →
            d'.answers (picks.map pick) = itemAnswers d'.offset (picks.zip vs) ∧
              (d'.afterAll (picks.map pick)).offset = (write (.list vs)).length) ∧
      ((write (.list vs)).length ≤ config.limit →
        (∃ d', (new mode (chunks.map .bytes) config).nextValue = (.ok (.list vs), d') ∧
            d'.offset = (write (.list vs)).length) ∧
          ∃ d', (new mode (chunks.map .bytes) config).skip = (.ok (), d') ∧
            d'.offset = (write (.list vs)).length) := by
  have hnew := delivers_new mode hlimit nonempty
  rw [hchunks] at hnew
  have hwrite : write (.list vs) = listHead vs.length ++ writeItems vs := by rw [write]
  refine ⟨fun d hd => ?_, fun hfits => ⟨?_, ?_⟩⟩
  -- Refused as a whole or not yet pulled, the list still stands in front.
  · have hdelivers : d.Delivers config.limit (write (.list vs) ++ tail) ∧ d.offset = 0 := by
      rcases hd with rfl | ⟨offset, limit, hlarge⟩
      · exact ⟨hnew, rfl⟩
      · exact hnew.tooLarge hlarge
    obtain ⟨h, hzero⟩ := hdelivers
    rw [hwrite, List.append_assoc] at h
    obtain ⟨d', hd', h', hoffset⟩ := h.nextListLength hvs.short.1 hhead
    rw [hzero, Nat.zero_add] at hoffset
    refine ⟨d', hd', hoffset, fun picks hpicks => ?_⟩
    -- Items are less deep than their list.
    have hinside : (Value.list vs).Writable (1022 + 1) := hvs
    have hitems : ∀ v ∈ vs, v.Writable maxDepth := fun v hv =>
      (hinside.of_mem_list v hv).mono (by decide)
    obtain ⟨hanswers, hafter⟩ := h'.answers_items hitems hsize hpicks
    refine ⟨hanswers, ?_⟩
    rw [hafter, hoffset, hwrite, List.length_append]
  · obtain ⟨d', hd', -, hoffset⟩ := hnew.nextValue hvs hfits
    exact ⟨d', hd', hoffset.trans (Nat.zero_add _)⟩
  · obtain ⟨d', hd', -, hoffset⟩ := hnew.skip hvs hfits
    exact ⟨d', hd', hoffset.trans (Nat.zero_add _)⟩

/-- A text, a list and a number. -/
def mixedItems : List Value :=
  [.text "hi", .list [.null, .bool true], .int ⟨7, by decide, by decide⟩]

/-- The list of these, and nil behind it, in pieces. -/
def mixedPieces : List Bytes := [[0x93, 0xA2, 0x68], [0x69, 0x92], [0xC0, 0xC3, 0x07, 0xC0]]

/-- The list is too large, and none of its items is. -/
theorem items_one_by_one_mixed :
    (∃ offset limit, (new .async (mixedPieces.map .bytes) ⟨2, 5⟩).nextValue.1
        = .error (.tooLarge offset limit)) ∧
      ∃ d, (new .async (mixedPieces.map .bytes) ⟨2, 5⟩).nextValue.2.nextListLength = (.ok 3, d) ∧
        d.answers ([true, false, true].map pick)
          = itemAnswers 1 ([true, false, true].zip mixedItems) ∧
        (d.afterAll ([true, false, true].map pick)).offset = 8 := by
  have hvs : (Value.list mixedItems).Writable maxDepth :=
    ⟨⟨trivial, ⟨trivial, trivial, trivial⟩, trivial, trivial⟩, by decide, by decide,
      show ShortText "hi" by decide, ⟨by decide, trivial, trivial, trivial⟩, trivial, trivial⟩
  have hlarge : ∃ offset limit, (new .async (mixedPieces.map .bytes) ⟨2, 5⟩).nextValue.1
      = .error (.tooLarge offset limit) := exists_of_reportsTooLarge (by decide +kernel)
  refine ⟨hlarge, ?_⟩
  obtain ⟨offset, limit, hlarge⟩ := hlarge
  have hword : (⟨2, 5⟩ : DecoderConfig).limit ≤ wordMax := by decide
  have hchunks : mixedPieces.flatten = write (.list mixedItems) ++ [0xC0] := by decide +kernel
  obtain ⟨d, hd, hoffset, hitems⟩ := (items_one_by_one hvs .async hword (by decide)
    (by decide +kernel) (by decide) hchunks).1 _ (.inr ⟨offset, limit, Prod.ext hlarge rfl⟩)
  obtain ⟨hanswers, hafter⟩ := hitems [true, false, true] rfl
  refine ⟨d, hd, ?_, ?_⟩
  · rw [hanswers, hoffset]
    rfl
  · rw [hafter]
    decide +kernel

end Decoder

end FrameRpc
