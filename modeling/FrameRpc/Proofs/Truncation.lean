import FrameRpc.Proofs.FrameStream
import FrameRpc.Proofs.SizeLimit

/-!
# Where a stream ends

A stream that ends behind a value is exhausted, one that ends inside a value is damaged. Wherever
the encodings of some values are cut off, and however the bytes in front of the cut arrive, pulls
give the values that are there as a whole, and then tell which of the two it is, at the start of the
value that is cut (`verdict_of_cut`). A value that is cut is never read as another one: in front of
a part of what it reads, a reader runs out of bytes (`MessagePack.exists_truncation`).

The verdict is final. A decoder that has told that the bytes have ended tells so again and does not
change any more (`Decoder.pull_again`), whatever has led to it.
-/

namespace FrameRpc

open MessagePack

variable {α : Type} {framing : Framing} {read : Reader α}

/-- In front of a part of what it reads a reader runs out of bytes. -/
theorem MessagePack.exists_truncation {part more : Bytes} {a : α} (hread : FrontToBack read)
    (hreads : Reads read (part ++ more) a) (hmore : more ≠ []) :
    ∃ why, read part = .error why ∧ why.isTruncation = true := by
  have hext := hread part more
  have hwhole := hreads []
  rw [List.append_nil] at hwhole
  rw [hwhole] at hext
  cases hr : read part with
  | ok p =>
    -- What is left of the part would be left of the whole as well, and there nothing is left.
    rw [hr] at hext
    obtain ⟨-, hrest⟩ := Prod.mk.inj (Except.ok.inj hext)
    exact absurd (List.append_eq_nil_iff.1 hrest.symm).2 hmore
  | error why =>
    rw [hr] at hext
    exact ⟨why, rfl, hext.resolve_right (fun h => nomatch h)⟩

/-! ## Final verdicts -/

/-- The bytes have ended, behind a value or inside one. -/
def Error.tellsEnd : Error → Bool
  | .exhausted => true
  | .malformed _ why => why.isTruncation
  | _ => false

/-- An attempt that finds that the bytes have ended finds so again, and leaves the buffer as it
    is. -/
theorem Buffer.Tried.again {b b' : Buffer} {e : Error}
    (h : Tried framing read b (.failed e, b')) (he : e.tellsEnd = true) :
    b'.tryTake framing read = (.failed e, b') := by
  cases h with
  | exhausted hbytes hended => rw [tryTake_of_ended framing read hended, hbytes]; rfl
  | large => nomatch he
  | malformed hbytes _ hr hdone =>
    have hended : b.ended = true := hdone he
    have hnil : b.bytes.isEmpty = false := List.isEmpty_eq_false_iff.2 hbytes
    rw [tryTake_of_ended framing read
      (show ({ b with scan := .start } : Buffer).ended = true from hended), hnil,
      if_neg Bool.false_ne_true]
    simp only [take, hr, hended, Bool.not_true, Bool.and_false, if_false, Bool.false_eq_true]

namespace Decoder

/-- A decoder that has told that the bytes have ended tells so again, and stays as it is: it reads
    no more, and takes nothing. -/
theorem pull_again {d d' : Decoder} {e : Error} (h : d.pull framing read = (.error e, d'))
    (he : e.tellsEnd = true) : d'.pull framing read = (.error e, d') := by
  obtain ⟨source, b, -, hends⟩ := exists_ends framing read d.mode d.source d.buffer d.reads
  rw [show pullFrom framing read d.mode d.source d.buffer d.reads = (.error e, d') from h] at hends
  cases hends with
  | failed hx _ =>
    have htried := Buffer.tried_tryTake framing read b
    rw [hx] at htried
    exact pullFrom_failed (htried.again he)
  | cut => nomatch he

/-- So it does after any number of further pulls. -/
theorem nextValue_after {d : Decoder} {e : Error} (h : d.nextValue = (.error e, d)) (n : Nat) :
    (d.after (List.replicate n (.next .dynamic))).nextValue = (.error e, d) := by
  induction n with
  | zero => exact h
  | succ n ih =>
    have hstep : (d.perform (.next .dynamic)).2 = d := congrArg Prod.snd h
    rw [List.replicate_succ, after, hstep]
    exact ih

end Decoder

/-! ## A part of a value -/

section Part

variable {part more : Bytes} {why : ReadError} {b : Buffer} {source : Source} {size : Nat}

theorem Buffer.Awaits.looked (h : b.Awaits source size part) (framing : Framing) :
    (b.looked framing).Awaits source size part where
  bytes := by rw [looked_bytes, h.bytes]
  delivering := h.delivering
  ended := by
    rw [looked_ended]
    exact h.ended
  room := by
    rw [looked_ended, looked_limit]
    exact h.room

/-- A look at a part of a value accounts for no more than the value. -/
theorem Buffer.Awaits.looked_tracks (h : b.Awaits source size part) (hended : b.ended = false)
    (hsize : (part ++ more).length ≤ size) (hscan : b.scan.Tracks (part ++ more)) :
    (b.looked .value).scan.Tracks (part ++ more) := by
  have hword := (h.room.resolve_left (by rw [hended]; exact Bool.false_ne_true)).2
  have hfront : b.bytes ++ (Source.unread source ++ more) = (part ++ more) ++ [] := by
    rw [← List.append_assoc, h.bytes, List.append_nil]
  rw [Buffer.looked, if_pos ⟨rfl, hended⟩]
  exact (Scan.advance_tracks hscan (Nat.le_trans hsize hword) hfront).1

/-- An attempt at a part of a value waits as long as something may come, and finds it damaged
    afterwards. -/
theorem Buffer.Awaits.tryTake_part (h : b.Awaits source size part) (hread : FrontToBack read)
    (hr : read part = .error why) (ht : why.isTruncation = true) (hne : part ≠ [])
    (hmore : more ≠ []) (hsize : (part ++ more).length ≤ size)
    (hscan : b.scan.Tracks (part ++ more)) :
    (∃ b', b.tryTake .value read = (.failed (.malformed b.offset why), b') ∧
        b'.offset = b.offset) ∨
      (b.ended = false ∧ ∃ b', b.tryTake .value read = (.waiting, b') ∧
        b'.Awaits source size part ∧ b'.scan.Tracks (part ++ more) ∧ b'.offset = b.offset) := by
  have hext := hread b.bytes (Source.unread source)
  rw [h.bytes, hr] at hext
  generalize hx : b.tryTake .value read = x
  cases hx ▸ Buffer.tried_tryTake .value read b with
  | exhausted hbytes hended =>
    have hpart := h.bytes
    rw [hbytes, h.ended hended] at hpart
    exact absurd hpart.symm hne
  | idle _ hended => exact .inr ⟨hended, b, rfl, h, hscan, rfl⟩
  | short _ hended =>
    exact .inr ⟨hended, _, rfl, h.looked .value, h.looked_tracks hended hsize hscan,
      Buffer.looked_offset .value b⟩
  | large _ hended _ hlarge =>
    -- The scan accounts for no more than the value, and of that a part is missing.
    have hlimit := (h.room.resolve_left (by rw [hended]; exact Bool.false_ne_true)).1
    have hreach := (h.looked_tracks hended hsize hscan).reach_le
    have hlength := congrArg List.length h.bytes
    have hpos := List.length_pos_iff.2 hmore
    rw [List.length_append] at hlength hsize hreach
    omega
  | taken _ _ htaken =>
    rw [htaken] at hext
    nomatch hext
  | @malformed why' _ _ hr' hdone =>
    rw [hr'] at hext
    obtain rfl : why' = why := by
      rcases hext with ht' | heq
      · have hbytes := h.bytes
        rw [h.ended (hdone ht'), List.append_nil] at hbytes
        rw [hbytes, hr] at hr'
        exact (Except.error.inj hr').symm
      · exact (Except.error.inj heq).symm
    exact .inl ⟨_, rfl, rfl⟩

/-- Once the source has delivered a part of a value and no more, the pull finds it damaged. -/
theorem Decoder.pullFrom_part (hread : FrontToBack read) (hr : read part = .error why)
    (ht : why.isTruncation = true) (hne : part ≠ []) (hmore : more ≠ [])
    (hsize : (part ++ more).length ≤ size) (mode : Mode) (reads : Nat)
    (h : b.Awaits source size part) (hscan : b.scan.Tracks (part ++ more)) :
    ∃ d, pullFrom .value read mode source b reads = (.error (.malformed b.offset why), d) ∧
      d.offset = b.offset := by
  induction source generalizing b reads with
  | nil =>
    rcases h.tryTake_part hread hr ht hne hmore hsize hscan with
      ⟨b', hx, hoffset⟩ | ⟨-, b', hx, h', hscan', hoffset⟩
    · exact ⟨_, pullFrom_failed hx, hoffset⟩
    · -- The end of input settles it.
      have hend : (b'.extend []).Awaits [] size part :=
        ⟨h'.bytes, h'.delivering, fun _ => rfl, .inl rfl⟩
      rw [pullFrom_waiting_nil hx (Buffer.tryTake_ne_waiting rfl), ← hoffset]
      rcases hend.tryTake_part hread hr ht hne hmore hsize hscan' with
        ⟨b'', hx', hoffset'⟩ | ⟨hended, -⟩
      · exact ⟨_, pullFrom_failed hx', hoffset'⟩
      · nomatch hended
  | cons e source ih =>
    rcases h.tryTake_part hread hr ht hne hmore hsize hscan with
      ⟨b', hx, hoffset⟩ | ⟨-, b', hx, h', hscan', hoffset⟩
    · exact ⟨_, pullFrom_failed hx, hoffset⟩
    · obtain ⟨bs, -, rfl⟩ := h.delivering e List.mem_cons_self
      rw [pullFrom_waiting hx, ← hoffset, ← Buffer.extend_offset b' bs]
      refine ih (reads + 1) h'.extend ?_
      rw [Buffer.extend_scan]
      exact hscan'

end Part

/-! ## Cut encodings -/

/-- The values whose encodings lie wholly inside the first `c` bytes of those of all. -/
def arrived (c : Nat) : List Value → List Value
  | [] => []
  | v :: rest =>
    if (write v).length ≤ c then v :: arrived (c - (write v).length) rest else []

/-- The encodings of some first values take `c` bytes. -/
def IsBoundary (vs : List Value) (c : Nat) : Prop :=
  ∃ k, c = ((vs.take k).flatMap write).length

theorem isBoundary_nil_iff {c : Nat} : IsBoundary [] c ↔ c = 0 := by
  simp [IsBoundary]

theorem isBoundary_cons_iff {v : Value} {vs : List Value} {c : Nat} :
    IsBoundary (v :: vs) c ↔
      c = 0 ∨ (write v).length ≤ c ∧ IsBoundary vs (c - (write v).length) := by
  constructor
  · rintro ⟨k, rfl⟩
    cases k with
    | zero => exact .inl rfl
    | succ k =>
      rw [List.take_succ_cons, List.flatMap_cons, List.length_append]
      exact .inr ⟨Nat.le_add_right _ _, k, Nat.add_sub_cancel_left _ _⟩
  · rintro (rfl | ⟨hle, k, hk⟩)
    · exact ⟨0, rfl⟩
    · refine ⟨k + 1, ?_⟩
      rw [List.take_succ_cons, List.flatMap_cons, List.length_append]
      omega

theorem write_ne_nil {v : Value} {budget : Nat} (hv : v.Writable budget) : write v ≠ [] :=
  (Decoder.values_of_reads (reads_write hv) takes_readValue).ne_nil

/-- In front of the cut there are the values that have arrived, and a part of the next one if the
    cut is no boundary. -/
theorem take_eq_arrived {budget : Nat} {vs : List Value} (hvs : ∀ v ∈ vs, v.Writable budget)
    {c : Nat} (hc : c ≤ (vs.flatMap write).length) :
    (vs.flatMap write).take c = (arrived c vs).flatMap write ∧ IsBoundary vs c ∨
      ¬ IsBoundary vs c ∧ ∃ v ∈ vs, ∃ part more, part ≠ [] ∧ more ≠ [] ∧ part ++ more = write v ∧
        (vs.flatMap write).take c = (arrived c vs).flatMap write ++ part := by
  induction vs generalizing c with
  | nil =>
    obtain rfl : c = 0 := Nat.le_zero.1 hc
    exact .inl ⟨rfl, 0, rfl⟩
  | cons v vs ih =>
    obtain ⟨hv, hvs⟩ := List.forall_mem_cons.1 hvs
    have hpos := List.length_pos_iff.2 (write_ne_nil hv)
    rw [List.flatMap_cons, List.length_append] at hc
    rw [arrived, isBoundary_cons_iff, List.flatMap_cons, List.take_append]
    by_cases hle : (write v).length ≤ c
    · rw [if_pos hle, List.take_of_length_le hle, List.flatMap_cons]
      rcases ih hvs (c := c - (write v).length) (by omega) with
        ⟨htake, hboundary⟩ | ⟨hboundary, v', hv', part, more, hpart, hmore, hwrite, htake⟩
      · exact .inl ⟨by rw [htake], .inr ⟨hle, hboundary⟩⟩
      · refine .inr ⟨?_, v', List.mem_cons_of_mem _ hv', part, more, hpart, hmore, hwrite, ?_⟩
        · rintro (rfl | ⟨-, hboundary'⟩)
          · omega
          · exact hboundary hboundary'
        · rw [htake, List.append_assoc]
    · rw [if_neg hle, Nat.sub_eq_zero_of_le (Nat.le_of_not_le hle), List.take_zero, List.append_nil]
      rcases Nat.eq_zero_or_pos c with rfl | hcpos
      · exact .inl ⟨rfl, .inl rfl⟩
      · refine .inr ⟨by omega, v, List.mem_cons_self, (write v).take c, (write v).drop c, ?_, ?_,
          List.take_append_drop c _, rfl⟩
        · exact List.ne_nil_of_length_pos (by rw [List.length_take]; omega)
        · exact List.ne_nil_of_length_pos (by rw [List.length_drop]; omega)

theorem arrived_subset (c : Nat) (vs : List Value) : arrived c vs ⊆ vs := by
  induction vs generalizing c with
  | nil => exact List.Subset.refl _
  | cons v vs ih =>
    rw [arrived]
    split
    · exact List.cons_subset_cons v (ih _)
    · exact List.nil_subset _

/-! ## Verdicts -/

/-- What is told of a cut behind `c` bytes: behind a value the stream is exhausted, inside a value
    it is damaged, where the value starts. -/
structure CutVerdict (vs : List Value) (c : Nat) (e : Error) : Prop where
  boundary : IsBoundary vs c → e = .exhausted
  inside : ¬ IsBoundary vs c → ∃ why, why.isTruncation = true ∧
    e = .malformed ((arrived c vs).flatMap write).length why

namespace Decoder

/-- Pulls give these values, and then this error without taking anything; after any number of
    further pulls the decoder tells the error again, and has not changed. -/
def Closes (d : Decoder) (values : List Value) (e : Error) : Prop :=
  ∃ d₀ d₁, d.nextValues values.length = (.ok values, d₀) ∧
    d₀.offset = d.offset + (values.flatMap write).length ∧
    d₀.nextValue = (.error e, d₁) ∧ d₁.offset = d₀.offset ∧
    ∀ n, (d₁.after (List.replicate n (.next .dynamic))).nextValue = (.error e, d₁)

variable {d : Decoder} {vs : List Value} {size : Nat}

/-- The bytes end behind the values. -/
theorem Delivers.closes (h : d.Delivers size (vs.flatMap write))
    (hvs : ∀ v ∈ vs, v.Writable maxDepth) (hsize : ∀ v ∈ vs, (write v).length ≤ size) :
    d.Closes vs .exhausted := by
  rw [← List.append_nil (vs.flatMap write)] at h
  obtain ⟨d₀, hd₀, h₀, hoffset⟩ := h.nextValues hvs hsize
  obtain ⟨he, hoffset'⟩ := h₀.answer_exhausted (.pull (.next .dynamic))
  exact ⟨d₀, d₀.nextValue.2, hd₀, hoffset, Prod.ext he rfl, hoffset',
    nextValue_after (pull_again (Prod.ext he rfl) rfl)⟩

/-- The bytes end inside the value behind them. -/
theorem Delivers.closes_part {part more : Bytes} {v : Value} {why : ReadError}
    (h : d.Delivers size (vs.flatMap write ++ part)) (hvs : ∀ v ∈ vs, v.Writable maxDepth)
    (hsize : ∀ v ∈ vs, (write v).length ≤ size) (hv : v.Writable maxDepth)
    (hwrite : part ++ more = write v) (hvsize : (write v).length ≤ size) (hpart : part ≠ [])
    (hmore : more ≠ []) (hr : Shape.dynamic.read part = .error why)
    (ht : why.isTruncation = true) :
    d.Closes vs (.malformed (d.offset + (vs.flatMap write).length) why) := by
  obtain ⟨d₀, hd₀, h₀, hoffset⟩ := h.nextValues hvs hsize
  have htracks : d₀.buffer.scan.Tracks (part ++ more) := by
    rw [h₀.scan, hwrite]
    exact Scan.tracks_start (values_of_reads (reads_write hv) takes_readValue)
  obtain ⟨d₁, hd₁, hoffset'⟩ := pullFrom_part (frontToBack_readShape .dynamic) hr ht hpart hmore
    (by rw [hwrite]; exact hvsize) d₀.mode d₀.reads h₀.awaits htracks
  rw [← hoffset]
  exact ⟨d₀, d₁, hd₀, hoffset, hd₁, hoffset', nextValue_after (pull_again hd₁ ht)⟩

/-- Of a decoder that delivers what is in front of the cut, the verdict depends on the cut alone. -/
theorem Delivers.closes_cut (hvs : ∀ v ∈ vs, v.Writable maxDepth) {c : Nat}
    (hc : c ≤ (vs.flatMap write).length) : ∃ e, CutVerdict vs c e ∧
      ∀ {d : Decoder} {size : Nat}, d.Delivers size ((vs.flatMap write).take c) → d.offset = 0 →
        (vs.flatMap write).length ≤ size → d.Closes (arrived c vs) e := by
  have hmem : ∀ v ∈ arrived c vs, v ∈ vs := fun v hv => arrived_subset c vs hv
  have harrived : ∀ v ∈ arrived c vs, v.Writable maxDepth := fun v hv => hvs v (hmem v hv)
  rcases take_eq_arrived hvs hc with
    ⟨htake, hboundary⟩ | ⟨hboundary, v, hv, part, more, hpart, hmore, hwrite, htake⟩
  · refine ⟨.exhausted, ⟨fun _ => rfl, absurd hboundary⟩, fun {d size} h _ hsize => ?_⟩
    rw [htake] at h
    exact h.closes harrived fun v hv => Nat.le_trans (length_le_flatMap (hmem v hv)) hsize
  · obtain ⟨why, hr, ht⟩ := exists_truncation (frontToBack_readShape .dynamic)
      (hwrite ▸ reads_write (hvs v hv)) hmore
    refine ⟨.malformed ((arrived c vs).flatMap write).length why,
      ⟨fun h => absurd h hboundary, fun _ => ⟨why, ht, rfl⟩⟩, fun {d size} h hzero hsize => ?_⟩
    have hle : ∀ v ∈ vs, (write v).length ≤ size := fun v hv =>
      Nat.le_trans (length_le_flatMap hv) hsize
    rw [htake] at h
    have hcloses := h.closes_part harrived (fun v hv => hle v (hmem v hv)) (hvs v hv) hwrite
      (hle v hv) hpart hmore hr ht
    rwa [hzero, Nat.zero_add] at hcloses

end Decoder

/-- **The end of a stream and damage are told apart.** Of the encodings of some values the first `c`
    bytes arrive, in whatever pieces. Pulls give the values that have arrived as a whole, and then
    for good one verdict, the same for all ways of arriving. A limit is a word. -/
theorem verdict_of_cut {vs : List Value} (hvs : ∀ v ∈ vs, v.Writable maxDepth) {c : Nat}
    (hc : c ≤ (vs.flatMap write).length) :
    ∃ e, CutVerdict vs c e ∧
      (∀ (mode : Mode) (config : DecoderConfig) (chunks : List Bytes),
        (∀ x ∈ chunks, x ≠ []) → chunks.flatten = (vs.flatMap write).take c →
        (vs.flatMap write).length ≤ config.limit → config.limit ≤ wordMax →
        (Decoder.new mode (chunks.map .bytes) config).Closes (arrived c vs) e) ∧
      (Decoder.ofBytes ((vs.flatMap write).take c)).Closes (arrived c vs) e := by
  obtain ⟨e, he, hcloses⟩ := Decoder.Delivers.closes_cut hvs hc
  refine ⟨e, he, fun mode config chunks nonempty hbytes hlimit hword => ?_, ?_⟩
  · have h := Decoder.delivers_new mode hword nonempty
    rw [hbytes] at h
    exact hcloses h rfl hlimit
  · exact hcloses (Decoder.delivers_ofBytes (vs.flatMap write).length _) rfl (Nat.le_refl _)

/-- A text and a list, of six bytes together. -/
def textAndList : List Value := [.text "é", .list [.null, .bool true]]

theorem textAndList_writable : ∀ v ∈ textAndList, v.Writable maxDepth := by
  simp only [textAndList, List.forall_mem_cons]
  refine ⟨⟨trivial, by decide, show ShortText "é" by decide⟩, ⟨?_, by decide, ?_⟩, by simp⟩
  · exact ⟨trivial, trivial, trivial⟩
  · exact ⟨by decide, trivial, trivial, trivial⟩

/-- The last item of the list is missing, and the pieces go across the text and the list. -/
theorem verdict_of_list_cut :
    (∀ v ∈ textAndList, v.Writable maxDepth) ∧ ∃ why, why.isTruncation = true ∧
      (Decoder.new .async ([[0xA2], [0xC3, 0xA9, 0x92], [0xC0]].map .bytes) ⟨2, 6⟩).Closes
        [.text "é"] (.malformed 3 why) ∧
      (Decoder.ofBytes [0xA2, 0xC3, 0xA9, 0x92, 0xC0]).Closes [.text "é"] (.malformed 3 why) := by
  have hinside : ¬ IsBoundary textAndList 5 := by
    rw [textAndList, isBoundary_cons_iff, isBoundary_cons_iff, isBoundary_nil_iff]
    decide +kernel
  obtain ⟨e, he, hnew, hfull⟩ := verdict_of_cut textAndList_writable (c := 5) (by decide +kernel)
  obtain ⟨why, ht, rfl⟩ := he.inside hinside
  refine ⟨textAndList_writable, why, ht, ?_, hfull⟩
  exact hnew .async ⟨2, 6⟩ _ (by decide) (by decide +kernel) (by decide +kernel) (by decide)

end FrameRpc
