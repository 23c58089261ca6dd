import FrameRpc.Proofs.Chunking
import FrameRpc.Proofs.Records
import FrameRpc.Proofs.Scanning
import FrameRpc.Frame.Basic

/-!
# Streams of frames

Frames follow each other without a length in front, yet a caller who knows how many values each
frame holds gets back what was sent (`nextFrames_encode`), in whatever pieces it arrives: a decoder
that stands in front of a value takes exactly this value (`Delivers.pull`). While the value is
incomplete, the scan accounts for no more bytes than the value has, so a value that fits the limit
is never found too large.
-/

namespace FrameRpc

open MessagePack

/-! ## Taking a value -/

/-- What the buffer holds and what the source still delivers are these bytes; values of up to `size`
    bytes fit. -/
structure Buffer.Awaits (b : Buffer) (source : Source) (size : Nat) (bs : Bytes) : Prop where
  bytes : b.bytes ++ Source.unread source = bs
  delivering : Source.Delivering source
  /-- Nothing comes after the end of input. -/
  ended : b.ended = true → Source.unread source = []
  /-- All bytes are there, or the limit is large enough and no larger than a word. -/
  room : b.ended = true ∨ size ≤ b.limit ∧ size ≤ wordMax

namespace Buffer

variable {α : Type} {read : Reader α} {w tail : Bytes} {a : α} {b : Buffer} {source : Source}
  {size : Nat}

/-- What is still to come goes to the end of the buffer. -/
theorem Awaits.extend {bs whole : Bytes} (h : b.Awaits (.bytes bs :: source) size whole) :
    (b.extend bs).Awaits source size whole := by
  obtain ⟨bs', hne, heq⟩ := h.delivering _ List.mem_cons_self
  cases heq
  rw [extend_of_ne_nil b hne]
  refine ⟨?_, fun e he => h.delivering e (List.mem_cons_of_mem _ he), fun hended => ?_, h.room⟩
  · rw [← h.bytes, List.append_assoc]
    rfl
  · exact (List.append_eq_nil_iff.1 (h.ended hended)).2

/-- A value that has arrived is taken. -/
theorem Awaits.take (h : b.Awaits source size (w ++ tail)) (hread : Reads read w a)
    (hle : w.length ≤ b.bytes.length) :
    ∃ b', b.take read = (.taken a, b') ∧ b'.Awaits source size tail ∧ b'.scan = .start ∧
      b'.offset = b.offset + w.length := by
  obtain ⟨hbytes, hdelivering, hended, hroom⟩ := h
  obtain ⟨behind, hb, rfl⟩ : ∃ behind, b.bytes = w ++ behind ∧
      behind ++ Source.unread source = tail := by
    rcases List.append_eq_append_iff.1 hbytes with ⟨more, rfl, hmore⟩ | ⟨behind, hb, hbehind⟩
    · have hnil : more = [] := by
        rw [List.length_append] at hle
        exact List.eq_nil_of_length_eq_zero (by omega)
      subst hnil
      exact ⟨[], by rw [List.append_nil, List.append_nil], hmore⟩
    · exact ⟨behind, hb, hbehind.symm⟩
  have hread' : read b.bytes = .ok (a, behind) := by
    rw [hb]
    exact hread behind
  refine ⟨{ b with bytes := behind, offset := b.offset + w.length, scan := .start }, ?_,
    ⟨rfl, hdelivering, hended, hroom⟩, rfl, rfl⟩
  have hsize : b.bytes.length - behind.length = w.length := by
    rw [hb, List.length_append, Nat.add_sub_cancel]
  simp only [Buffer.take, hread', hsize]

/-- An attempt at a value takes it if it has arrived, and waits otherwise. -/
theorem Awaits.tryTake (h : b.Awaits source size (w ++ tail)) (hread : Reads read w a)
    (hne : w ≠ []) (hw : w.length ≤ size) (hscan : b.scan.Tracks w) :
    (∃ b', b.tryTake .value read = (.taken a, b') ∧ b'.Awaits source size tail ∧
        b'.scan = .start ∧ b'.offset = b.offset + w.length) ∨
      (b.bytes.length < w.length ∧ ∃ b', b.tryTake .value read = (.waiting, b') ∧
        b'.Awaits source size (w ++ tail) ∧ b'.scan.Tracks w ∧ b'.offset = b.offset) := by
  have hpos := List.length_pos_iff.2 hne
  by_cases hended : b.ended = true
  · -- All bytes are there, so the value is.
    have hle : w.length ≤ b.bytes.length := by
      have hbytes := congrArg List.length h.bytes
      rw [h.ended hended, List.append_nil, List.length_append] at hbytes
      omega
    have hnil : b.bytes.isEmpty = false :=
      List.isEmpty_eq_false_iff.2 (List.length_pos_iff.1 (by omega))
    rw [tryTake_of_ended .value read hended, hnil, if_neg Bool.false_ne_true]
    exact .inl (h.take hread hle)
  · -- Something may still come, so the scan decides whether to read.
    obtain ⟨hlimit, hword⟩ := h.room.resolve_left hended
    rw [Bool.not_eq_true] at hended
    cases hnil : b.bytes.isEmpty with
    | true =>
      have hlength : b.bytes.length = 0 := by rw [List.isEmpty_iff.1 hnil]; rfl
      refine .inr ⟨by omega, b, ?_, h, hscan, rfl⟩
      rw [Buffer.tryTake, hnil, if_pos rfl, hended, if_neg Bool.false_ne_true]
    | false =>
      obtain ⟨htracks, hverdict⟩ := Scan.advance_tracks hscan (by omega) h.bytes
      have h' : ({ b with scan := (b.scan.advance b.bytes).2 } : Buffer).Awaits source size
          (w ++ tail) := ⟨h.bytes, h.delivering, h.ended, h.room⟩
      rw [Buffer.tryTake, hnil, if_neg Bool.false_ne_true, if_pos ⟨rfl, hended⟩]
      dsimp only
      by_cases hle : w.length ≤ b.bytes.length
      · rw [hverdict, if_pos hle, if_neg Verdict.noConfusion]
        exact .inl (h'.take hread hle)
      · -- The scan accounts for no more than the value, so it is not found too large.
        rw [hverdict, if_neg hle, if_pos rfl]
        refine .inr ⟨by omega, _, ?_, h', htracks, rfl⟩
        have hreach := htracks.reach_le
        rw [needMore, if_neg]
        dsimp only
        omega

end Buffer

/-! ## Pulling a value -/

/-- What the decoder still gives is these bytes, and it stands in front of a value. -/
structure Decoder.Delivers (d : Decoder) (size : Nat) (bs : Bytes) : Prop where
  awaits : d.buffer.Awaits d.source size bs
  scan : d.buffer.scan = .start

namespace Decoder

variable {α : Type} {read : Reader α} {w tail : Bytes} {a : α} {size : Nat}

/-- Whatever has arrived of a value, further reads complete it, and it is taken. -/
theorem pullFrom_of_reads (hread : Reads read w a) (hne : w ≠ []) (hw : w.length ≤ size)
    (mode : Mode) {source : Source} {b : Buffer} (reads : Nat)
    (h : b.Awaits source size (w ++ tail)) (hscan : b.scan.Tracks w) :
    ∃ d, pullFrom .value read mode source b reads = (.ok a, d) ∧ d.Delivers size tail ∧
      d.offset = b.offset + w.length := by
  induction source generalizing b reads with
  | nil =>
    rcases h.tryTake hread hne hw hscan with ⟨b', htake, h', hstart, hoffset⟩ | ⟨hlt, -⟩
    · exact ⟨_, pullFrom_taken htake, ⟨h', hstart⟩, hoffset⟩
    · -- The source is at its end, so nothing is missing.
      have hbytes := congrArg List.length h.bytes
      rw [List.length_append, List.length_append] at hbytes
      have hnil : (Source.unread []).length = 0 := rfl
      omega
  | cons e source ih =>
    rcases h.tryTake hread hne hw hscan with
      ⟨b', htake, h', hstart, hoffset⟩ | ⟨-, b', hwait, h', htracks, hoffset⟩
    · exact ⟨_, pullFrom_taken htake, ⟨h', hstart⟩, hoffset⟩
    · -- What the next read brings goes to the end of the buffer, and the scan goes on from where
      -- it stopped.
      obtain ⟨bs, -, rfl⟩ := h.delivering e List.mem_cons_self
      rw [pullFrom_waiting hwait, ← hoffset, ← Buffer.extend_offset b' bs]
      refine ih (reads + 1) h'.extend ?_
      rw [Buffer.extend_scan]
      exact htracks

/-- A decoder in front of a value takes exactly this value. -/
theorem Delivers.pull {d : Decoder} (h : d.Delivers size (w ++ tail)) (hread : Reads read w a)
    (hvalue : Values 1 w) (hw : w.length ≤ size) :
    ∃ d', d.pull .value read = (.ok a, d') ∧ d'.Delivers size tail ∧
      d'.offset = d.offset + w.length := by
  refine pullFrom_of_reads hread hvalue.ne_nil hw d.mode d.reads h.awaits ?_
  rw [h.scan]
  exact Scan.tracks_start hvalue

/-- What a reader of values reads on its own is a value. -/
theorem values_of_reads (hread : Reads read w a)
    (htakes : ∀ {bs rest a}, read bs = .ok (a, rest) → Takes 1 bs rest) : Values 1 w := by
  obtain ⟨front, hfront, hvalue⟩ := htakes (hread [])
  rw [List.append_nil, List.append_nil] at hfront
  rwa [hfront]

/-- Behind the last value every request finds the end of the stream. -/
theorem Delivers.answer_exhausted {d : Decoder} (h : d.Delivers size []) (r : Request) :
    (d.answer r).1 = .error .exhausted ∧ (d.answer r).2.offset = d.offset := by
  obtain ⟨hbytes, hunread⟩ := List.append_eq_nil_iff.1 h.awaits.bytes
  have hsource : d.source = [] := h.awaits.delivering.eq_nil hunread
  have hpull : (d.pull (serving r).framing (serving r).read).1 = .error .exhausted ∧
      (d.pull (serving r).framing (serving r).read).2.offset = d.offset := by
    obtain ⟨mode, source, ⟨bytes, offset, ended, limit, scan⟩, reads⟩ := d
    obtain rfl : source = [] := hsource
    obtain rfl : bytes = [] := hbytes
    cases ended <;> exact ⟨rfl, rfl⟩
  rw [answer_eq, pullThen, hpull.1]
  exact ⟨rfl, hpull.2⟩

/-! ## Pulling frames -/

/-- Pulls `n` values. -/
def nextValues (d : Decoder) : Nat → Except Error (List Value) × Decoder
  | 0 => (.ok [], d)
  | n + 1 =>
    match d.nextValue with
    | (.ok v, d) => ((d.nextValues n).1.map (v :: ·), (d.nextValues n).2)
    | (.error e, d) => (.error e, d)

/-- Pulls a header and the `n` values behind it. -/
def nextFrame (d : Decoder) (n : Nat) : Except Error Frame × Decoder :=
  match d.nextHeader with
  | (.ok header, d) => ((d.nextValues n).1.map (⟨header, ·⟩), (d.nextValues n).2)
  | (.error e, d) => (.error e, d)

/-- Pulls frames, each with its number of values. -/
def nextFrames (d : Decoder) : List Nat → Except Error (List Frame) × Decoder
  | [] => (.ok [], d)
  | n :: rest =>
    match d.nextFrame n with
    | (.ok f, d) => ((d.nextFrames rest).1.map (f :: ·), (d.nextFrames rest).2)
    | (.error e, d) => (.error e, d)

end Decoder

/-- A frame that can be sent and is read as it is: its header is valid, its values are not too deep,
    and its texts, lists and objects short enough for their length fields. -/
structure Frame.Sendable (f : Frame) : Prop where
  protocol : f.header.protocol = protocolTag
  version_le : f.header.version ≤ protocolVersion
  header : f.header.Short
  values : ∀ v ∈ f.values, v.Writable maxDepth

/-- The header and every value of a frame take at most `limit` bytes. -/
structure Frame.Fits (limit : Nat) (f : Frame) : Prop where
  header : f.header.write.length ≤ limit
  values : ∀ v ∈ f.values, (write v).length ≤ limit

theorem Frame.encode_eq (f : Frame) : f.encode = f.header.write ++ f.values.flatMap write := by
  rw [encode, encodeFrame, List.flatMap_map]
  rfl

theorem Frame.Sendable.check {f : Frame} (h : f.Sendable) : f.header.check = .ok f.header := by
  rw [Header.check, Header.validate, if_neg (fun hne => hne h.protocol),
    if_neg (UInt32.not_lt.2 h.version_le)]

namespace Decoder

variable {size : Nat} {tail : Bytes}

theorem Delivers.nextValue {d : Decoder} {v : Value} (h : d.Delivers size (write v ++ tail))
    (hv : v.Writable maxDepth) (hsize : (write v).length ≤ size) :
    ∃ d', d.nextValue = (.ok v, d') ∧ d'.Delivers size tail ∧
      d'.offset = d.offset + (write v).length :=
  h.pull (reads_write hv) (values_of_reads (reads_write hv) takes_readValue) hsize

theorem Delivers.nextValues {d : Decoder} {vs : List Value}
    (h : d.Delivers size (vs.flatMap write ++ tail)) (hvs : ∀ v ∈ vs, v.Writable maxDepth)
    (hsize : ∀ v ∈ vs, (write v).length ≤ size) :
    ∃ d', d.nextValues vs.length = (.ok vs, d') ∧ d'.Delivers size tail ∧
      d'.offset = d.offset + (vs.flatMap write).length := by
  induction vs generalizing d with
  | nil => exact ⟨d, rfl, h, rfl⟩
  | cons v vs ih =>
    obtain ⟨hv, hvs⟩ := List.forall_mem_cons.1 hvs
    obtain ⟨hvsize, hsize⟩ := List.forall_mem_cons.1 hsize
    rw [List.flatMap_cons, List.append_assoc] at h
    obtain ⟨d₁, hd₁, h₁, hoffset₁⟩ := h.nextValue hv hvsize
    obtain ⟨d₂, hd₂, h₂, hoffset₂⟩ := ih h₁ hvs hsize
    refine ⟨d₂, ?_, h₂, ?_⟩
    · rw [List.length_cons, Decoder.nextValues, hd₁]
      dsimp only
      rw [hd₂]
      rfl
    · rw [hoffset₂, hoffset₁, List.flatMap_cons, List.length_append, Nat.add_assoc]

theorem Delivers.nextHeader {d : Decoder} {header : Header}
    (h : d.Delivers size (header.write ++ tail)) (hshort : header.Short)
    (hcheck : header.check = .ok header) (hsize : header.write.length ≤ size) :
    ∃ d', d.nextHeader = (.ok header, d') ∧ d'.Delivers size tail ∧
      d'.offset = d.offset + header.write.length := by
  have hread := Header.reads_write hshort
  obtain ⟨d', hd', h', hoffset⟩ := h.pull hread (values_of_reads hread takes_readHeader) hsize
  refine ⟨d', ?_, h', hoffset⟩
  rw [Decoder.nextHeader, hd']
  change (header.check, d') = _
  rw [hcheck]

theorem Delivers.nextFrame {d : Decoder} {f : Frame} (h : d.Delivers size (f.encode ++ tail))
    (hf : f.Sendable) (hfits : f.Fits size) :
    ∃ d', d.nextFrame f.values.length = (.ok f, d') ∧ d'.Delivers size tail ∧
      d'.offset = d.offset + f.encode.length := by
  rw [Frame.encode_eq, List.append_assoc] at h
  obtain ⟨d₁, hd₁, h₁, hoffset₁⟩ := h.nextHeader hf.header hf.check hfits.header
  obtain ⟨d₂, hd₂, h₂, hoffset₂⟩ := h₁.nextValues hf.values hfits.values
  refine ⟨d₂, ?_, h₂, ?_⟩
  · rw [Decoder.nextFrame, hd₁]
    dsimp only
    rw [hd₂]
    rfl
  · rw [hoffset₂, hoffset₁, Frame.encode_eq, List.length_append, Nat.add_assoc]

theorem Delivers.nextFrames {d : Decoder} {frames : List Frame}
    (h : d.Delivers size (frames.flatMap Frame.encode ++ tail)) (hf : ∀ f ∈ frames, f.Sendable)
    (hfits : ∀ f ∈ frames, f.Fits size) :
    ∃ d', d.nextFrames (frames.map fun f => f.values.length) = (.ok frames, d') ∧
      d'.Delivers size tail ∧ d'.offset = d.offset + (frames.flatMap Frame.encode).length := by
  induction frames generalizing d with
  | nil => exact ⟨d, rfl, h, rfl⟩
  | cons f frames ih =>
    obtain ⟨hf, hframes⟩ := List.forall_mem_cons.1 hf
    obtain ⟨hfit, hfits⟩ := List.forall_mem_cons.1 hfits
    rw [List.flatMap_cons, List.append_assoc] at h
    obtain ⟨d₁, hd₁, h₁, hoffset₁⟩ := h.nextFrame hf hfit
    obtain ⟨d₂, hd₂, h₂, hoffset₂⟩ := ih h₁ hframes hfits
    refine ⟨d₂, ?_, h₂, ?_⟩
    · rw [List.map_cons, Decoder.nextFrames, hd₁]
      dsimp only
      rw [hd₂]
      rfl
    · rw [hoffset₂, hoffset₁, List.flatMap_cons, List.length_append, Nat.add_assoc]

/-- A new decoder delivers what its source holds. -/
theorem delivers_new (mode : Mode) {config : DecoderConfig} (hlimit : config.limit ≤ wordMax)
    {chunks : List Bytes} (nonempty : ∀ c ∈ chunks, c ≠ []) :
    (Decoder.new mode (chunks.map .bytes) config).Delivers config.limit chunks.flatten where
  awaits := ⟨Source.unread_cut chunks (max config.chunk 1),
    Source.delivering_cut nonempty (max config.chunk 1), fun h => Bool.noConfusion h,
    .inr ⟨Nat.le_refl _, hlimit⟩⟩
  scan := rfl

/-- A decoder that has all its bytes delivers them, whatever the size of values. -/
theorem delivers_ofBytes (size : Nat) (bs : Bytes) : (ofBytes bs).Delivers size bs where
  awaits := ⟨List.append_nil bs, fun _ h => absurd h List.not_mem_nil, fun _ => rfl, .inl rfl⟩
  scan := rfl

end Decoder

/-! ## Parsing a frame -/

/-- The encodings of values are as many values. -/
theorem values_flatMap_write {budget : Nat} {vs : List Value}
    (hvs : ∀ v ∈ vs, v.Writable budget) : Values vs.length (vs.flatMap write) := by
  induction vs with
  | nil => exact .nil
  | cons v vs ih =>
    obtain ⟨hv, hvs⟩ := List.forall_mem_cons.1 hvs
    rw [List.length_cons, Nat.add_comm, List.flatMap_cons]
    exact (Decoder.values_of_reads (reads_write hv) takes_readValue).append (ih hvs)

theorem length_le_flatMap {α : Type} {f : α → Bytes} {as : List α} {a : α} (ha : a ∈ as) :
    (f a).length ≤ (as.flatMap f).length := by
  rw [List.flatMap_def]
  exact (List.sublist_flatten_of_mem (List.mem_map_of_mem ha)).length_le

namespace Frame

theorem drain_eq {size : Nat} {d : Decoder} {vs : List Value}
    (h : d.Delivers size (vs.flatMap write)) (hvs : ∀ v ∈ vs, v.Writable maxDepth)
    (hsize : ∀ v ∈ vs, (write v).length ≤ size) {fuel : Nat} (hfuel : vs.length < fuel)
    (done : List Value) : drain done fuel d = .ok (done.reverse ++ vs) := by
  -- Each value takes one unit of fuel, and so does the end of the stream.
  obtain ⟨fuel, rfl⟩ := Nat.exists_eq_succ_of_ne_zero (Nat.ne_of_gt (Nat.zero_lt_of_lt hfuel))
  induction vs generalizing d done fuel with
  | nil =>
    have hdone : d.nextValue.1 = .error .exhausted :=
      (h.answer_exhausted (.pull (.next .dynamic))).1
    rw [List.append_nil]
    rcases hx : d.nextValue with ⟨r, d'⟩
    rw [hx] at hdone
    obtain rfl : r = .error .exhausted := hdone
    rw [drain, hx]
  | cons v vs ih =>
    obtain ⟨hv, hvs⟩ := List.forall_mem_cons.1 hvs
    obtain ⟨hvsize, hsize⟩ := List.forall_mem_cons.1 hsize
    obtain ⟨d', hd', h', -⟩ := h.nextValue hv hvsize
    have hpos : 0 < fuel := Nat.zero_lt_of_lt (Nat.lt_of_succ_lt_succ hfuel)
    obtain ⟨fuel, rfl⟩ := Nat.exists_eq_succ_of_ne_zero (Nat.ne_of_gt hpos)
    rw [drain, hd']
    dsimp only
    rw [ih h' hvs hsize (v :: done) fuel (Nat.lt_of_succ_lt_succ hfuel), List.reverse_cons,
      List.append_assoc, List.singleton_append]

/-- The bytes of a frame are parsed as the frame. -/
theorem parse_eq {f : Frame} (hf : f.Sendable) : parse f.encode = .ok f := by
  have hfits : f.Fits f.encode.length := by
    rw [encode_eq]
    refine ⟨by rw [List.length_append]; omega, fun v hv => ?_⟩
    rw [List.length_append]
    exact Nat.le_trans (length_le_flatMap hv) (Nat.le_add_left _ _)
  have h := Decoder.delivers_ofBytes f.encode.length f.encode
  have hbytes : f.encode = f.header.write ++ f.values.flatMap write := encode_eq f
  rw [hbytes] at h
  obtain ⟨d, hd, hvalues, -⟩ := h.nextHeader hf.header hf.check (hbytes ▸ hfits).header
  -- There is a unit of fuel for each byte, and no value is without one.
  have hfuel : f.values.length < f.encode.length + 1 := by
    have hle := (values_flatMap_write hf.values).le_length
    rw [hbytes, List.length_append]
    omega
  rw [parse, hbytes, hd]
  dsimp only
  rw [← hbytes, drain_eq hvalues hf.values (hbytes ▸ hfits).values hfuel []]
  rfl

end Frame

/-! ## Streams -/

/-- However a stream of frames is cut into pieces, pulling each frame's header and as many values as
    it holds gives the frames, and then nothing more; and every frame is parsed from its own bytes.
    A limit is a word. -/
theorem nextFrames_encode {frames : List Frame} (sendable : ∀ f ∈ frames, f.Sendable) :
    (∀ (mode : Mode) (config : DecoderConfig) (chunks : List Bytes),
      (∀ c ∈ chunks, c ≠ []) → chunks.flatten = frames.flatMap Frame.encode →
      config.limit ≤ wordMax → (∀ f ∈ frames, f.Fits config.limit) →
      ∃ d, (Decoder.new mode (chunks.map .bytes) config).nextFrames
            (frames.map fun f => f.values.length) = (.ok frames, d) ∧
          d.offset = (frames.flatMap Frame.encode).length ∧
          ∀ r : Request, (d.answer r).1 = .error .exhausted ∧ (d.answer r).2.offset = d.offset) ∧
      ∀ f ∈ frames, Frame.parse f.encode = .ok f := by
  refine ⟨fun mode config chunks nonempty hbytes hlimit hfits => ?_, fun f hf =>
    Frame.parse_eq (sendable f hf)⟩
  have h := Decoder.delivers_new mode hlimit nonempty
  rw [hbytes, ← List.append_nil (frames.flatMap Frame.encode)] at h
  obtain ⟨d, hd, hend, hoffset⟩ := h.nextFrames sendable hfits
  refine ⟨d, hd, ?_, hend.answer_exhausted⟩
  rw [hoffset]
  exact Nat.zero_add _

/-- A request for a sum of an object and a list, and an update without values. -/
def exampleFrames : List Frame :=
  [⟨.once "7" "sum", [.object [("a", .int ⟨-33, by decide, by decide⟩), ("b", .text "é")],
      .list [.null, .list [.bool true]]]⟩,
    ⟨.update "7" true, []⟩]

theorem exampleFrames_sendable : ∀ f ∈ exampleFrames, f.Sendable := by
  intro f hf
  rcases List.mem_cons.1 hf with rfl | hf
  · refine ⟨rfl, by decide, ⟨by decide, by decide, ?_⟩, ?_⟩
    · rintro _ ⟨⟩
      decide
    · intro v hv
      rcases List.mem_cons.1 hv with rfl | hv
      · exact ⟨⟨by unfold Fields.Ordered; decide, trivial, trivial, trivial⟩, by decide, by decide,
          by decide, trivial, by decide, show ShortText "é" by decide, trivial⟩
      · obtain rfl := List.mem_singleton.1 hv
        exact ⟨⟨trivial, ⟨trivial, trivial⟩, trivial⟩, by decide, by decide,
          trivial, ⟨by decide, trivial, trivial⟩, trivial⟩
  · obtain rfl := List.mem_singleton.1 hf
    exact ⟨rfl, by decide, ⟨by decide, by decide, nofun⟩, nofun⟩

/-- From pieces of three bytes, with a limit that just holds the longer header. -/
theorem nextFrames_of_pieces :
    (∀ f ∈ exampleFrames, f.Sendable) ∧
      ∃ d, (Decoder.new .blocking ((pieces 2 (exampleFrames.flatMap Frame.encode)).map .bytes)
            ⟨2, 60⟩).nextFrames [2, 0] = (.ok exampleFrames, d) ∧
          d.offset = (exampleFrames.flatMap Frame.encode).length ∧
          ∀ r : Request, (d.answer r).1 = .error .exhausted ∧ (d.answer r).2.offset = d.offset :=
  ⟨exampleFrames_sendable,
    (nextFrames_encode exampleFrames_sendable).1 .blocking ⟨2, 60⟩ _
      (fun c hc => ne_nil_of_mem_pieces (by decide +kernel) hc) (flatten_pieces 2 _)
      (by decide) (by
        intro f hf
        rcases List.mem_cons.1 hf with rfl | hf
        · exact ⟨by decide +kernel, by decide +kernel⟩
        · obtain rfl := List.mem_singleton.1 hf
          exact ⟨by decide +kernel, by decide +kernel⟩)⟩

end FrameRpc
