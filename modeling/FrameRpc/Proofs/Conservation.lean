import FrameRpc.Proofs.Chunking
import FrameRpc.Proofs.Extent

/-!
# No byte is lost

Every byte that a decoder has got is either behind its offset or in its buffer, in the order in
which it came (`Decoder.Keeps`), whatever the source does and whatever is pulled. A pull that cannot
read leaves the offset where it was and names no other; every other pull has taken one portion from
the front: the one value there, or the head of the list there (`Decoder.Moved`). This holds as well
if what was read is then refused, so a refused value never puts the values behind it out of step.

A portion is found in the bytes alone: of two portions at the front of the same bytes neither is
longer (`MessagePack.Portion.eq_of_append`).
-/

namespace FrameRpc

open MessagePack

/-! ## Portions -/

namespace MessagePack

/-- What is taken from the front at once: a value, or the head of a list. -/
inductive Portion : Framing → Bytes → Prop where
  | value {front : Bytes} (h : Values 1 front) : Portion .value front
  /-- A marker that holds the length of the list. -/
  | shortHead {b : UInt8} {n : Nat} (h : Marker.ofByte b = .fixList n) : Portion .listHead [b]
  /-- A marker and a length field. -/
  | longHead {b : UInt8} {w : Width} {field : Bytes} (h : Marker.ofByte b = .list w)
    (hlength : field.length = w.octets) : Portion .listHead (b :: field)

/-- Of two runs of as many values at the front of the same bytes neither is longer. -/
theorem Values.eq_of_append {n : Nat} {u v s t : Bytes} (hu : Values n u) (hv : Values n v)
    (h : u ++ s = v ++ t) : u = v := by
  induction hu generalizing v with
  | nil =>
    cases hv
    rfl
  | @cons b rest layout a n hlayout hannounced hfits _ ih =>
    cases hv with
    | @cons b' rest' layout' a' _ hlayout' hannounced' hfits' hrest' =>
      rw [List.cons_append, List.cons_append] at h
      obtain ⟨rfl, htail⟩ := List.cons.inj h
      obtain rfl := Option.some.inj (hlayout.symm.trans hlayout')
      -- The length field is at the front of the same bytes, so both announce the same.
      obtain rfl := Layout.announced_unique hannounced hannounced' htail
      have hdrop := congrArg (List.drop (a.width + a.body)) htail
      rw [List.drop_append_of_le_length hfits, List.drop_append_of_le_length hfits'] at hdrop
      have htake := congrArg (List.take (a.width + a.body)) htail
      rw [List.take_append_of_le_length hfits, List.take_append_of_le_length hfits'] at htake
      rw [← List.take_append_drop (a.width + a.body) rest, ih hrest' hdrop, htake,
        List.take_append_drop]

/-- Of two portions at the front of the same bytes neither is longer. -/
theorem Portion.eq_of_append {framing : Framing} {u v s t : Bytes} (hu : Portion framing u)
    (hv : Portion framing v) (h : u ++ s = v ++ t) : u = v := by
  cases hu with
  | value hu =>
    cases hv with
    | value hv => exact hu.eq_of_append hv h
  | @shortHead b n hb =>
    cases hv with
    | shortHead _ => rw [(List.cons.inj h).1]
    | longHead hb' _ =>
      rw [← (List.cons.inj h).1, hb] at hb'
      nomatch hb'
  | @longHead b w field hb hlength =>
    cases hv with
    | shortHead hb' =>
      rw [← (List.cons.inj h).1, hb] at hb'
      nomatch hb'
    | longHead hb' hlength' =>
      rw [← (List.cons.inj h).1, hb] at hb'
      cases hb'
      obtain ⟨rfl, hfield⟩ := List.cons.inj h
      rw [List.append_inj_left hfield (hlength.trans hlength'.symm)]

/-- Whatever the reader reads, it takes a portion. -/
def Apportions {α : Type} (framing : Framing) (read : Reader α) : Prop :=
  ∀ bs a rest, read bs = .ok (a, rest) → ∃ front, bs = front ++ rest ∧ Portion framing front

theorem apportions_of_takes {α : Type} {read : Reader α}
    (h : ∀ {bs a rest}, read bs = .ok (a, rest) → Takes 1 bs rest) : Apportions .value read := by
  intro bs a rest hr
  obtain ⟨front, rfl, hfront⟩ := h hr
  exact ⟨front, rfl, .value hfront⟩

theorem apportions_readListLength : Apportions .listHead readListLength := by
  intro bs n rest hr
  obtain ⟨⟨m, mid⟩, hm, hr⟩ := exists_of_bind_eq_ok hr
  cases bs with
  | nil => nomatch hm
  | cons b bs =>
    obtain ⟨rfl, rfl⟩ := Prod.mk.inj (Except.ok.inj hm)
    dsimp only at hr
    split at hr
    · rename_i hb
      obtain ⟨-, rfl⟩ := Prod.mk.inj (Except.ok.inj hr)
      exact ⟨[b], rfl, .shortHead hb⟩
    · rename_i hb
      obtain ⟨field, rfl, hlength, -⟩ := takeField_eq_ok hr
      exact ⟨b :: field, rfl, .longHead hb hlength⟩
    · nomatch hr

end MessagePack

/-! ## Errors of reading -/

namespace Error

/-- The bytes or the value at the front could not be had. -/
def isReading : Error → Bool
  | .source _ | .malformed _ _ | .exhausted | .tooLarge _ _ => true
  | _ => false

/-- The offset that an error names, if it names one. -/
def offset? : Error → Option Nat
  | .malformed offset _ | .tooLarge offset _ => some offset
  | _ => none

/-- It is an error of reading, and names no offset but this. -/
def StopsAt (offset : Nat) (e : Error) : Prop := e.isReading = true ∧ ∀ n ∈ e.offset?, n = offset

theorem stopsAt_malformed (offset : Nat) (why : ReadError) :
    StopsAt offset (.malformed offset why) :=
  ⟨rfl, fun _ h => (Option.some.inj h).symm⟩

theorem stopsAt_tooLarge (offset limit : Nat) : StopsAt offset (.tooLarge offset limit) :=
  ⟨rfl, fun _ h => (Option.some.inj h).symm⟩

theorem stopsAt_exhausted (offset : Nat) : StopsAt offset .exhausted := ⟨rfl, fun _ h => nomatch h⟩

theorem stopsAt_source (offset : Nat) (text : String) : StopsAt offset (.source text) :=
  ⟨rfl, fun _ h => nomatch h⟩

end Error

/-! ## Attempts -/

namespace Buffer

variable {α : Type}

/-- What an attempt at the front of `b` comes to: nothing is taken and no other offset is named, or
    a portion is taken. -/
def Spends (framing : Framing) (b : Buffer) : Attempt α × Buffer → Prop
  | (.taken _, b') => ∃ front, Portion framing front ∧ b.bytes = front ++ b'.bytes ∧
    b'.offset = b.offset + front.length
  | (.waiting, b') => b'.bytes = b.bytes ∧ b'.offset = b.offset
  | (.failed e, b') => b'.bytes = b.bytes ∧ b'.offset = b.offset ∧ e.StopsAt b.offset

theorem tryTake_spends {framing : Framing} {read : Reader α} (hread : Apportions framing read)
    (b : Buffer) : Spends framing b (b.tryTake framing read) := by
  generalize hx : b.tryTake framing read = x
  cases hx ▸ tried_tryTake framing read b with
  | exhausted => exact ⟨rfl, rfl, Error.stopsAt_exhausted _⟩
  | idle => exact ⟨rfl, rfl⟩
  | short => exact ⟨looked_bytes framing b, looked_offset framing b⟩
  | large => exact ⟨rfl, rfl, Error.stopsAt_tooLarge _ _⟩
  | malformed => exact ⟨rfl, rfl, Error.stopsAt_malformed _ _⟩
  | @taken a rest _ _ hr =>
    obtain ⟨front, hfront, hportion⟩ := hread _ a rest hr
    refine ⟨front, hportion, hfront, ?_⟩
    dsimp only
    rw [hfront, List.length_append, Nat.add_sub_cancel]

end Buffer

/-! ## Pulls -/

namespace Decoder

variable {α β : Type}

/-- What a pull at `offset` comes to, if the bytes from there on that have arrived by its end are
    `got`: nothing is taken and no other offset is named, or a portion is taken, and if there is an
    error it is none of reading. -/
inductive Moved (framing : Framing) (got : Bytes) (offset : Nat) : Except Error β × Decoder → Prop
  | stopped {e : Error} {d : Decoder} (he : e.StopsAt offset) (hbytes : d.buffer.bytes = got)
    (hoffset : d.offset = offset) : Moved framing got offset (.error e, d)
  | took {r : Except Error β} {d : Decoder} {front : Bytes}
    (hr : ∀ e, r = .error e → e.isReading = false) (hportion : Portion framing front)
    (hbytes : got = front ++ d.buffer.bytes) (hoffset : d.offset = offset + front.length) :
    Moved framing got offset (r, d)

/-- A pull, after some reads from the source. -/
def Pulls (framing : Framing) (source : Source) (b : Buffer) (reads : Nat)
    (x : Except Error β × Decoder) : Prop :=
  ∃ k, x.2.reads = reads + k ∧ x.2.source = source.drop k ∧
    Moved framing (b.bytes ++ Source.unread (source.take k)) b.offset x

/-- The first attempt settles it. -/
theorem pulls_of_tryTake {framing : Framing} {read : Reader α} (hread : Apportions framing read)
    (mode : Mode) (source : Source) {b : Buffer} (reads : Nat)
    (h : ∀ b', b.tryTake framing read ≠ (.waiting, b')) :
    Pulls framing source b reads (pullFrom framing read mode source b reads) := by
  have hspends := Buffer.tryTake_spends hread b
  have hgot : b.bytes ++ Source.unread (source.take 0) = b.bytes := List.append_nil _
  rcases hx : b.tryTake framing read with ⟨a | _ | e, b'⟩
  · rw [hx] at hspends
    obtain ⟨front, hportion, hbytes, hoffset⟩ := hspends
    rw [pullFrom_taken hx]
    exact ⟨0, rfl, rfl, .took (fun _ h => nomatch h) hportion (hgot.trans hbytes) hoffset⟩
  · exact absurd hx (h b')
  · rw [hx] at hspends
    obtain ⟨hbytes, hoffset, he⟩ := hspends
    rw [pullFrom_failed hx]
    exact ⟨0, rfl, rfl, .stopped he (hbytes.trans hgot.symm) hoffset⟩

/-- A read from the source that is followed by a pull is part of it. -/
theorem Pulls.of_read {framing : Framing} {e : Delivery} {source : Source} {b b' : Buffer}
    {reads : Nat} {x : Except Error α × Decoder} (h : Pulls framing source b' (reads + 1) x)
    (hbytes : b'.bytes = b.bytes ++ Source.held e) (hoffset : b'.offset = b.offset) :
    Pulls framing (e :: source) b reads x := by
  obtain ⟨k, hreads, hsource, hmoved⟩ := h
  refine ⟨k + 1, by omega, hsource, ?_⟩
  rw [hbytes, hoffset, List.append_assoc] at hmoved
  exact hmoved

theorem pulls_pullFrom {framing : Framing} {read : Reader α} (hread : Apportions framing read)
    (mode : Mode) (source : Source) (b : Buffer) (reads : Nat) :
    Pulls framing source b reads (pullFrom framing read mode source b reads) := by
  induction source generalizing b reads with
  | nil =>
    by_cases hwait : ∃ b', b.tryTake framing read = (.waiting, b')
    · obtain ⟨b', hx⟩ := hwait
      have hspends := Buffer.tryTake_spends hread b
      rw [hx] at hspends
      obtain ⟨hbytes, hoffset⟩ := hspends
      have hdone : ∀ b'', (b'.extend []).tryTake framing read ≠ (.waiting, b'') :=
        Buffer.tryTake_ne_waiting rfl
      rw [pullFrom_waiting_nil hx hdone]
      obtain ⟨k, hreads, hsource, hmoved⟩ := pulls_of_tryTake hread mode [] (reads + 1) hdone
      refine ⟨k + 1, by omega, hsource.trans (by simp), ?_⟩
      rw [Buffer.extend_bytes, Buffer.extend_offset, hbytes, hoffset, List.append_nil] at hmoved
      simpa using hmoved
    · exact pulls_of_tryTake hread mode [] reads (not_exists.1 hwait)
  | cons e source ih =>
    by_cases hwait : ∃ b', b.tryTake framing read = (.waiting, b')
    · obtain ⟨b', hx⟩ := hwait
      have hspends := Buffer.tryTake_spends hread b
      rw [hx] at hspends
      obtain ⟨hbytes, hoffset⟩ := hspends
      have hkept : b'.bytes = b.bytes ++ [] := by rw [hbytes, List.append_nil]
      cases e with
      | bytes bs =>
        rw [pullFrom_waiting hx]
        exact (ih (b'.extend bs) (reads + 1)).of_read (by rw [Buffer.extend_bytes, hbytes]; rfl)
          ((Buffer.extend_offset b' bs).trans hoffset)
      | failure text =>
        rw [pullFrom, hx]
        exact ⟨1, rfl, rfl, .stopped (Error.stopsAt_source _ text) hkept hoffset⟩
      | interruption =>
        rw [pullFrom, hx]
        cases mode with
        | blocking => exact (ih b' (reads + 1)).of_read hkept hoffset
        | async => exact ⟨1, rfl, rfl, .stopped (Error.stopsAt_source _ _) hkept hoffset⟩
    · exact pulls_of_tryTake hread mode (e :: source) reads (not_exists.1 hwait)

/-! ## Requests -/

/-- What a target of the caller's own has to meet: it is read from one value, and what is made of it
    does not fail as if it had not been read. -/
def Whole : Request → Prop
  | .pull _ => True
  | .target read _ finish =>
    Apportions .value read ∧ ∀ a e, finish a = .error e → e.isReading = false

theorem isReading_of_check {h : Header} {e : Error} (he : h.check = .error e) :
    e.isReading = false := by
  rw [Header.check] at he
  split at he <;> cases he
  rfl

theorem isReading_of_mapError {ε : Type} {x : Except ε α} {f : ε → Error} {e : Error}
    (hf : ∀ why, (f why).isReading = false) (he : x.mapError f = .error e) :
    e.isReading = false := by
  cases x with
  | error why =>
    cases he
    exact hf why
  | ok a => nomatch he

theorem apportions_serving {r : Request} (hr : Whole r) :
    Apportions (serving r).framing (serving r).read := by
  rcases r with p | _
  · cases p with
    | next s => exact apportions_of_takes takes_readShape
    | header => exact apportions_of_takes takes_readHeader
    | compact | compactAs => exact apportions_of_takes (takes_readShape (s := .dynamic))
    | listLength => exact apportions_readListLength
    | skip => exact apportions_of_takes fun h => takes_skipValue h
  · exact hr.1

/-- What is made of what was read never fails as if it had not been read. -/
theorem isReading_of_finish {r : Request} (hr : Whole r) {a : (serving r).α} {e : Error}
    (he : (serving r).finish a = .error e) : e.isReading = false := by
  rcases r with p | _
  · cases p with
    | next | listLength | skip => cases he
    | header => exact isReading_of_check he
    | compact s => exact isReading_of_mapError (fun _ => rfl) he
    | compactAs s shape =>
      simp only [serving, Schema.decodeAs] at he
      split at he
      · exact isReading_of_mapError (fun _ => rfl) he
      · cases he
        rfl
  · exact hr.2 a e he

/-- What is made of a result keeps what the pull came to. -/
theorem Moved.bind {framing : Framing} {got : Bytes} {offset : Nat} {r : Except Error α}
    {d : Decoder} (h : Moved framing got offset (r, d)) {finish : α → Except Error β}
    (hfinish : ∀ a e, finish a = .error e → e.isReading = false) :
    Moved framing got offset (r.bind finish, d) := by
  cases h with
  | stopped he hbytes hoffset => exact .stopped he hbytes hoffset
  | took hr hportion hbytes hoffset =>
    refine .took (fun e he => ?_) hportion hbytes hoffset
    cases r with
    | error e' =>
      cases he
      exact hr e rfl
    | ok a => exact hfinish a e he

theorem pulls_answer (d : Decoder) {r : Request} (hr : Whole r) :
    Pulls (serving r).framing d.source d.buffer d.reads (d.answer r) := by
  obtain ⟨k, hreads, hsource, hmoved⟩ :=
    pulls_pullFrom (apportions_serving hr) d.mode d.source d.buffer d.reads
  rw [answer_eq]
  exact ⟨k, hreads, hsource, hmoved.bind fun _ _ => isReading_of_finish hr⟩

/-! ## Runs -/

/-- The decoder after a list of requests, whatever they give. -/
def afterAll (d : Decoder) : List Request → Decoder
  | [] => d
  | r :: rest => (d.answer r).2.afterAll rest

/-- A decoder that nothing was asked of yet. -/
inductive Initial : Decoder → Prop
  | new (mode : Mode) (source : Source) (config : DecoderConfig) : Initial (.new mode source config)
  | ofBytes (bs : Bytes) : Initial (.ofBytes bs)

/-- The bytes that a decoder had at the start and those that its first reads have brought. -/
def received (start : Decoder) (reads : Nat) : Bytes :=
  start.buffer.bytes ++ Source.unread (start.source.take reads)

/-- Of the bytes that have come since the start none is lost and none is there twice. -/
structure Keeps (start d : Decoder) : Prop where
  source : d.source = start.source.drop d.reads
  count : d.offset + d.buffered = (start.received d.reads).length
  bytes : d.buffer.bytes = (start.received d.reads).drop d.offset

theorem Initial.keeps {start : Decoder} (h : Initial start) : start.Keeps start := by
  cases h with
  | new mode source config => exact ⟨rfl, rfl, rfl⟩
  | ofBytes bs =>
    have hreceived : (Decoder.ofBytes bs).received 0 = bs := List.append_nil bs
    refine ⟨rfl, ?_, hreceived.symm⟩
    change 0 + bs.length = ((Decoder.ofBytes bs).received 0).length
    rw [hreceived, Nat.zero_add]

theorem received_add (start : Decoder) (m n : Nat) : start.received (m + n)
    = start.received m ++ Source.unread ((start.source.drop m).take n) := by
  rw [received, received, List.take_add, Source.unread, List.flatMap_append, ← List.append_assoc]
  rfl

/-- What has arrived since, a decoder that keeps all bytes has behind its buffer. -/
theorem Keeps.drop_received {start d : Decoder} (h : start.Keeps d) (k : Nat) :
    (start.received (d.reads + k)).drop d.offset
      = d.buffer.bytes ++ Source.unread (d.source.take k) := by
  have hle : d.offset ≤ (start.received d.reads).length := h.count ▸ Nat.le_add_right _ _
  rw [received_add, List.drop_append_of_le_length hle, ← h.bytes, ← h.source]

/-- If all bytes from the offset on had arrived before, they have after. -/
theorem Moved.keeps {framing : Framing} {total : Bytes} {offset : Nat}
    {x : Except Error β × Decoder} (hle : offset ≤ total.length)
    (h : Moved framing (total.drop offset) offset x) :
    x.2.offset + x.2.buffered = total.length ∧ x.2.buffer.bytes = total.drop x.2.offset := by
  cases h with
  | @stopped e d _ hbytes hoffset =>
    dsimp only
    rw [hoffset, buffered, hbytes, List.length_drop]
    exact ⟨by omega, rfl⟩
  | @took r d front _ _ hbytes hoffset =>
    dsimp only
    have hlength := congrArg List.length hbytes
    rw [List.length_drop, List.length_append] at hlength
    rw [hoffset, ← List.drop_drop, hbytes, List.drop_left, buffered]
    exact ⟨by omega, rfl⟩

/-- A pull loses no byte and takes no byte twice. -/
theorem Keeps.answer {start d : Decoder} (h : start.Keeps d) {r : Request} (hr : Whole r) :
    start.Keeps (d.answer r).2 ∧
      Moved (serving r).framing ((start.received (d.answer r).2.reads).drop d.offset) d.offset
        (d.answer r) := by
  obtain ⟨k, hreads, hsource, hmoved⟩ := pulls_answer d hr
  rw [hreads, h.drop_received k]
  refine ⟨?_, hmoved⟩
  have hle : d.offset ≤ (start.received (d.reads + k)).length := by
    rw [received_add, List.length_append, ← h.count, Nat.add_assoc]
    exact Nat.le_add_right _ _
  rw [← h.drop_received k] at hmoved
  obtain ⟨hcount, hbytes⟩ := hmoved.keeps hle
  rw [← hreads] at hcount hbytes
  exact ⟨by rw [hsource, hreads, h.source, List.drop_drop], hcount, hbytes⟩

theorem keeps_afterAll {start : Decoder} (hstart : Initial start) {requests : List Request}
    (hrequests : ∀ r ∈ requests, Whole r) : start.Keeps (start.afterAll requests) := by
  suffices h : ∀ d, start.Keeps d → start.Keeps (d.afterAll requests) from h start hstart.keeps
  induction requests with
  | nil => exact fun _ h => h
  | cons r rest ih =>
    obtain ⟨hr, hrest⟩ := List.forall_mem_cons.1 hrequests
    exact fun d h => ih hrest _ (h.answer hr).1

/-- **Conservation.** After any requests, of any source, the bytes that have come are those behind
    the offset and those in the buffer; and the next request either cannot read, and then leaves
    the offset and names no other, or takes one portion from the front. -/
theorem keeps_and_moves {start : Decoder} (hstart : Initial start) {requests : List Request}
    (hrequests : ∀ r ∈ requests, Whole r) {r : Request} (hr : Whole r) :
    start.Keeps (start.afterAll requests) ∧
      Moved (serving r).framing
        ((start.received ((start.afterAll requests).answer r).2.reads).drop
          (start.afterAll requests).offset)
        (start.afterAll requests).offset ((start.afterAll requests).answer r) :=
  ⟨keeps_afterAll hstart hrequests, ((keeps_afterAll hstart hrequests).answer hr).2⟩

/-- A list whose head and text arrive around an interruption, a failure, and then the end. -/
def interrupted : Decoder :=
  .new .async [.bytes [0x92, 0xA2], .interruption, .bytes [0x68, 0x69, 0xC0], .failure "reset",
    .bytes []] ⟨2, 64⟩

/-- The list is no header, and can be asked for only after the interruption. Then its head is taken
    alone, and its first item for its kind. -/
def listRequests : List Request :=
  [.pull .header, .pull .header, .pull .listLength,
    .target (readValue 3) (frontToBack_readValue 3) fun v => .ok v.kind]

/-- Then its second item is passed over. -/
theorem keeps_and_moves_interrupted :
    interrupted.Keeps (interrupted.afterAll listRequests) ∧
      Moved .value
        ((interrupted.received
          ((interrupted.afterAll listRequests).answer (.pull .skip)).2.reads).drop
            (interrupted.afterAll listRequests).offset)
        (interrupted.afterAll listRequests).offset
        ((interrupted.afterAll listRequests).answer (.pull .skip)) := by
  refine keeps_and_moves (r := .pull .skip) (.new _ _ _) ?_ trivial
  simp only [listRequests, List.forall_mem_cons]
  refine ⟨trivial, trivial, trivial, ⟨apportions_of_takes takes_readValue, ?_⟩, by simp⟩
  exact fun _ _ h => nomatch h

end Decoder

end FrameRpc
