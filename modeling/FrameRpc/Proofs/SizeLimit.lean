import FrameRpc.Proofs.Conservation
import FrameRpc.Proofs.Scanning
import FrameRpc.Proofs.Sufficiency

/-!
# The limit on sizes

A decoder reads on only while it holds fewer bytes than its limit, so it never holds more than
there is room for, which is that and one read (`DecoderConfig.room`). What it finds too large is too
large: no value within the limit begins with what it holds (`Decoder.limits_of_reached`). This rests
on two facts. What the scan has found out is true of any value that the bytes may begin
(`Buffer.Scanned`), and a reader in front of a whole value does not run out of bytes
(`MessagePack.Suffices`).

The converse fails, see `FrameRpc.Proofs.Refusal`.
-/

namespace FrameRpc

open MessagePack

/-! ## Attempts under the limit -/

namespace Buffer

variable {α : Type} {framing : Framing} {read : Reader α} {b b' : Buffer}

/-- The scan has found out nothing about the front value that is not so. -/
structure Scanned (b : Buffer) : Prop where
  /-- Whichever value it is that the bytes begin. -/
  tracks : ∀ {more w tail : Bytes}, b.bytes ++ more = w ++ tail → Values 1 w →
    w.length ≤ wordMax → b.scan.Tracks w
  /-- A scan from the start would come out no differently. -/
  anew : ∀ more : Bytes, (b.bytes ++ more).length ≤ wordMax →
    b.scan.advance (b.bytes ++ more) = Scan.start.advance (b.bytes ++ more)

theorem scanned_of_start (h : b.scan = .start) : b.Scanned where
  tracks _ hw _ := by
    rw [h]
    exact Scan.tracks_start hw
  anew _ _ := by rw [h]

theorem Scanned.extend (h : b.Scanned) (chunk : Bytes) : (b.extend chunk).Scanned := by
  constructor
  · intro more w tail hfront
    rw [extend_bytes, List.append_assoc] at hfront
    rw [extend_scan]
    exact h.tracks hfront
  · intro more hmore
    rw [extend_bytes, List.append_assoc] at hmore ⊢
    rw [extend_scan]
    exact h.anew _ hmore

theorem Scanned.looked (h : b.Scanned) (framing : Framing) : (b.looked framing).Scanned := by
  rw [Buffer.looked]
  split
  · constructor
    · exact fun hfront hw hle => (Scan.advance_tracks (h.tracks hfront hw hle) hle hfront).1
    · intro more hmore
      exact (b.scan.advance_advance (List.prefix_append _ _) hmore).trans (h.anew more hmore)
  · exact h

theorem Scanned.tried {x : Attempt α × Buffer} (h : b.Scanned) (hx : Tried framing read b x) :
    x.2.Scanned := by
  cases hx with
  | exhausted | idle => exact h
  | short => exact h.looked framing
  | large | taken | malformed => exact scanned_of_start rfl

/-! ### The front value -/

section Front

variable {more w tail : Bytes}

/-- The scan knows whether the front value has arrived. -/
theorem Scanned.seen_iff (h : b.Scanned) (hfront : b.bytes ++ more = w ++ tail) (hw : Values 1 w)
    (hword : w.length ≤ wordMax) (hended : b.ended = false) :
    b.Seen .value ↔ w.length ≤ b.bytes.length := by
  have hverdict := (Scan.advance_tracks (h.tracks hfront hw hword) hword hfront).2
  rw [Seen, hverdict]
  split
  · exact iff_of_true (fun _ _ h => nomatch h) ‹_›
  · exact iff_of_false (fun h => h rfl hended rfl) ‹_›

/-- A front value that has arrived is not found lacking. -/
theorem Scanned.not_lacks (h : b.Scanned) (hread : Suffices read)
    (hfront : b.bytes ++ more = w ++ tail) (hw : Values 1 w) (hword : w.length ≤ wordMax)
    (hle : w.length ≤ b.bytes.length) : ¬ b.Lacks framing read := by
  rintro (hseen | ⟨why, hr, ht⟩)
  · refine hseen fun hvalue hended => ?_
    subst hvalue
    exact (h.seen_iff hfront hw hword hended).2 hle rfl hended
  · -- The bytes begin with the whole value.
    have hsplit : b.bytes = w ++ b.bytes.drop w.length := by
      have htake := congrArg (List.take w.length) hfront
      rw [List.take_append_of_le_length hle, List.take_left] at htake
      calc b.bytes = b.bytes.take w.length ++ b.bytes.drop w.length :=
            (List.take_append_drop _ _).symm
        _ = w ++ b.bytes.drop w.length := by rw [htake]
    rw [hsplit] at hr
    rw [hread w _ why hw hr] at ht
    nomatch ht

/-- The error tells where the value stands, and the limit. -/
theorem Tried.tooLarge_eq {offset limit : Nat}
    (hx : Tried framing read b (.failed (.tooLarge offset limit), b')) :
    offset = b.offset ∧ limit = b.limit := by
  cases hx with
  | large => exact ⟨rfl, rfl⟩

/-- If a value is found too large, the bytes do not begin one within the limit. -/
theorem Tried.limit_lt {offset limit : Nat}
    (hx : Tried framing read b (.failed (.tooLarge offset limit), b')) (h : b.Scanned)
    (hread : Suffices read) (hlimit : b.limit ≤ wordMax) (hfront : b.bytes ++ more = w ++ tail)
    (hw : Values 1 w) : b.limit < w.length := by
  refine Nat.lt_of_not_le fun hle => ?_
  have hword : w.length ≤ wordMax := by omega
  cases hx with
  | large hbytes hended hlacks hlarge =>
    rcases hlarge with hreach | hlength
    · rw [← looked_bytes framing b] at hfront
      have := ((h.looked framing).tracks hfront hw hword).reach_le
      omega
    · exact h.not_lacks hread hfront hw hword (by omega) hlacks

/-- Once all bytes of the front value have arrived, the limit has no say. -/
theorem Tried.outcome_of_le {x : Attempt α × Buffer} (hx : Tried framing read b x) (h : b.Scanned)
    (hread : Suffices read) (hfront : b.bytes ++ more = w ++ tail) (hw : Values 1 w)
    (hword : w.length ≤ wordMax) (hle : w.length ≤ b.bytes.length) :
    x.1 ≠ .waiting ∧ ∀ offset limit, x.1 ≠ .failed (.tooLarge offset limit) := by
  have hlacks : ¬ b.Lacks framing read := h.not_lacks hread hfront hw hword hle
  cases hx with
  | idle hbytes _ =>
    rw [hbytes] at hle
    exact absurd (List.eq_nil_of_length_eq_zero (Nat.le_zero.1 hle)) hw.ne_nil
  | short _ _ hlacks' | large _ _ hlacks' => exact absurd hlacks' hlacks
  | exhausted | taken | malformed => exact ⟨nofun, nofun⟩

end Front

end Buffer

/-! ## Pulls -/

namespace Decoder

variable {α β : Type} {framing : Framing} {read : Reader α}

/-- The sources and buffers that a pull comes through: after each attempt that waits, those that
    the next read leaves. -/
inductive Through (framing : Framing) (read : Reader α) : Source → Buffer → Source → Buffer → Prop
  | here (source : Source) (b : Buffer) : Through framing read source b source b
  | read {bs : Bytes} {source source' : Source} {b b₁ b' : Buffer}
    (hx : b.tryTake framing read = (.waiting, b₁))
    (hrest : Through framing read source (b₁.extend bs) source' b') :
    Through framing read (.bytes bs :: source) b source' b'
  | interrupted {source source' : Source} {b b₁ b' : Buffer}
    (hx : b.tryTake framing read = (.waiting, b₁))
    (hrest : Through framing read source b₁ source' b') :
    Through framing read (.interruption :: source) b source' b'
  /-- Behind the source there is the end of input. -/
  | ended {source' : Source} {b b₁ b' : Buffer} (hx : b.tryTake framing read = (.waiting, b₁))
    (hrest : Through framing read [] (b₁.extend []) source' b') :
    Through framing read [] b source' b'

/-- How a pull ends that has come to `source` and `b`. -/
inductive Ends (framing : Framing) (read : Reader α) (source : Source) (b : Buffer) :
    Except Error α × Decoder → Prop
  | taken {a : α} {d : Decoder} (hx : b.tryTake framing read = (.taken a, d.buffer))
    (hsource : d.source = source) : Ends framing read source b (.ok a, d)
  | failed {e : Error} {d : Decoder} (hx : b.tryTake framing read = (.failed e, d.buffer))
    (hsource : d.source = source) : Ends framing read source b (.error e, d)
  /-- It waits, and the source fails. -/
  | cut {text : String} {e : Delivery} {d : Decoder}
    (hx : b.tryTake framing read = (.waiting, d.buffer)) (he : Source.held e = [])
    (hsource : source = e :: d.source) : Ends framing read source b (.error (.source text), d)

/-- The first attempt ends it. -/
theorem ends_of_tryTake (mode : Mode) (source : Source) {b : Buffer} (reads : Nat)
    (h : ∀ b', b.tryTake framing read ≠ (.waiting, b')) :
    Ends framing read source b (pullFrom framing read mode source b reads) := by
  rcases hx : b.tryTake framing read with ⟨a | _ | e, b'⟩
  · rw [pullFrom_taken hx]
    exact .taken hx rfl
  · exact absurd hx (h b')
  · rw [pullFrom_failed hx]
    exact .failed hx rfl

/-- A pull comes through some sources and buffers, and ends. -/
theorem exists_ends (framing : Framing) (read : Reader α) (mode : Mode) (source : Source)
    (b : Buffer) (reads : Nat) : ∃ source' b', Through framing read source b source' b' ∧
      Ends framing read source' b' (pullFrom framing read mode source b reads) := by
  induction source generalizing b reads with
  | nil =>
    by_cases hwait : ∃ b', b.tryTake framing read = (.waiting, b')
    · obtain ⟨b', hx⟩ := hwait
      have hdone : ∀ b'', (b'.extend []).tryTake framing read ≠ (.waiting, b'') :=
        Buffer.tryTake_ne_waiting rfl
      rw [pullFrom_waiting_nil hx hdone]
      exact ⟨[], _, .ended hx (.here _ _), ends_of_tryTake mode [] (reads + 1) hdone⟩
    · exact ⟨[], b, .here _ _, ends_of_tryTake mode [] reads (not_exists.1 hwait)⟩
  | cons e source ih =>
    by_cases hwait : ∃ b', b.tryTake framing read = (.waiting, b')
    · obtain ⟨b', hx⟩ := hwait
      cases e with
      | bytes bs =>
        rw [pullFrom_waiting hx]
        obtain ⟨source', b'', hthrough, hends⟩ := ih (b'.extend bs) (reads + 1)
        exact ⟨source', b'', .read hx hthrough, hends⟩
      | failure text =>
        rw [pullFrom, hx]
        exact ⟨_, b, .here _ _, .cut hx rfl rfl⟩
      | interruption =>
        rw [pullFrom, hx]
        cases mode with
        | blocking =>
          obtain ⟨source', b'', hthrough, hends⟩ := ih b' (reads + 1)
          exact ⟨source', b'', .interrupted hx hthrough, hends⟩
        | async => exact ⟨_, b, .here _ _, .cut hx rfl rfl⟩
    · exact ⟨_, b, .here _ _, ends_of_tryTake mode _ reads (not_exists.1 hwait)⟩

/-- Bytes go from the source to the buffer. -/
theorem Through.moves {source source' : Source} {b b' : Buffer} (hread : Apportions framing read)
    (h : Through framing read source b source' b') :
    b.bytes ++ Source.unread source = b'.bytes ++ Source.unread source' ∧ b'.offset = b.offset := by
  induction h with
  | here => exact ⟨rfl, rfl⟩
  | @read bs source _ b b₁ _ hx _ ih =>
    have hspends := Buffer.tryTake_spends hread b
    rw [hx] at hspends
    rw [Buffer.extend_bytes, Buffer.extend_offset, hspends.1, hspends.2, List.append_assoc] at ih
    exact ih
  | @interrupted source _ b b₁ _ hx _ ih =>
    have hspends := Buffer.tryTake_spends hread b
    rw [hx] at hspends
    rw [hspends.1, hspends.2] at ih
    exact ih
  | @ended _ b b₁ _ hx _ ih =>
    have hspends := Buffer.tryTake_spends hread b
    rw [hx] at hspends
    rw [Buffer.extend_bytes, Buffer.extend_offset, hspends.1, hspends.2, List.append_nil] at ih
    exact ih

end Decoder

/-! ## Room -/

theorem length_le_of_mem_pieces {n : Nat} {bs p : Bytes} (hp : p ∈ pieces n bs) :
    p.length ≤ n + 1 := by
  fun_induction pieces n bs with
  | case1 bs h =>
    obtain rfl := List.mem_singleton.1 hp
    exact List.drop_eq_nil_iff.1 h
  | case2 bs b rest h ih =>
    rcases List.mem_cons.1 hp with rfl | hp
    · exact List.length_take_le _ _
    · exact ih hp

theorem Source.length_le_of_mem_cut {n : Nat} {s : Source} {bs : Bytes}
    (h : Delivery.bytes bs ∈ s.cut (n + 1)) : bs.length ≤ n + 1 := by
  obtain ⟨d, -, hd⟩ := List.mem_flatMap.1 h
  cases d with
  | bytes whole =>
    obtain ⟨p, hp, hbs⟩ := List.mem_map.1 hd
    cases hbs
    exact length_le_of_mem_pieces hp
  | failure text => nomatch List.mem_singleton.1 hd
  | interruption => nomatch List.mem_singleton.1 hd

/-- The most bytes that a decoder holds: it reads on only below the limit, and then a chunk. -/
def DecoderConfig.room (config : DecoderConfig) : Nat :=
  max config.limit 1 - 1 + max config.chunk 1

namespace Decoder

variable {α β : Type} {framing : Framing} {read : Reader α} {config : DecoderConfig}

/-- What holds of the source and the buffer of a decoder with this tuning. -/
structure Bounded (config : DecoderConfig) (source : Source) (b : Buffer) : Prop where
  limit : b.limit = config.limit
  /-- No read gives more than a chunk. -/
  chunk : ∀ bs, Delivery.bytes bs ∈ source → bs.length ≤ max config.chunk 1
  room : b.bytes.length ≤ config.room
  scanned : b.Scanned

theorem bounded_new (mode : Mode) (source : Source) (config : DecoderConfig) :
    Bounded config (Decoder.new mode source config).source
      (Decoder.new mode source config).buffer where
  limit := rfl
  chunk bs hbs := by
    obtain ⟨n, hn⟩ : ∃ n, max config.chunk 1 = n + 1 := ⟨max config.chunk 1 - 1, by omega⟩
    rw [hn]
    rw [new, hn] at hbs
    exact Source.length_le_of_mem_cut hbs
  room := Nat.zero_le _
  scanned := Buffer.scanned_of_start rfl

theorem Bounded.tried {source : Source} {b : Buffer} (h : Bounded config source b)
    (hread : Apportions framing read) : Bounded config source (b.tryTake framing read).2 := by
  have htried := Buffer.tried_tryTake framing read b
  refine ⟨htried.limit_eq.trans h.limit, h.chunk, Nat.le_trans ?_ h.room, h.scanned.tried htried⟩
  have hspends := Buffer.tryTake_spends hread b
  rcases hx : b.tryTake framing read with ⟨a | _ | e, b'⟩
  · rw [hx] at hspends
    obtain ⟨front, -, hbytes, -⟩ := hspends
    rw [hbytes, List.length_append]
    exact Nat.le_add_left _ _
  · rw [hx] at hspends
    exact Nat.le_of_eq (congrArg List.length hspends.1)
  · rw [hx] at hspends
    exact Nat.le_of_eq (congrArg List.length hspends.1)

/-- A decoder reads on only below the limit. -/
theorem Bounded.arrive {source : Source} {b b₁ : Buffer} {bs : Bytes} (h : Bounded config source b)
    (hread : Apportions framing read) (hbs : bs.length ≤ max config.chunk 1)
    (hx : b.tryTake framing read = (.waiting, b₁)) : Bounded config source (b₁.extend bs) := by
  have htried := h.tried hread
  have hspends := Buffer.tryTake_spends hread b
  have hlt := Buffer.tried_tryTake framing read b
  rw [hx] at htried hspends hlt
  have hlt := hlt.lt_of_waiting
  rw [h.limit] at hlt
  refine ⟨?_, h.chunk, ?_, htried.scanned.extend bs⟩
  · rw [Buffer.extend_limit, htried.limit]
  · rw [Buffer.extend_bytes, List.length_append, hspends.1, DecoderConfig.room]
    omega

theorem Bounded.tail {e : Delivery} {source : Source} {b : Buffer}
    (h : Bounded config (e :: source) b) : Bounded config source b :=
  ⟨h.limit, fun bs hbs => h.chunk bs (List.mem_cons_of_mem _ hbs), h.room, h.scanned⟩

theorem Through.bounded {source source' : Source} {b b' : Buffer} (hread : Apportions framing read)
    (h : Through framing read source b source' b') (hb : Bounded config source b) :
    Bounded config source' b' := by
  induction h with
  | here => exact hb
  | read hx _ ih => exact ih (hb.tail.arrive hread (hb.chunk _ List.mem_cons_self) hx)
  | interrupted hx _ ih =>
    have htried := hb.tail.tried hread
    rw [hx] at htried
    exact ih htried
  | ended hx _ ih => exact ih (hb.arrive hread (Nat.zero_le _) hx)

theorem Ends.bounded {source : Source} {b : Buffer} {x : Except Error α × Decoder}
    (hread : Apportions framing read) (h : Ends framing read source b x)
    (hb : Bounded config source b) : Bounded config x.2.source x.2.buffer := by
  have htried := hb.tried hread
  cases h with
  | taken hx hsource | failed hx hsource =>
    rw [hx, ← hsource] at htried
    exact htried
  | cut hx _ hsource =>
    rw [hx, hsource] at htried
    exact htried.tail

/-- What a decoder with this tuning comes to, whatever its source does and whatever is asked of
    it. -/
def Reached (config : DecoderConfig) (d : Decoder) : Prop :=
  ∃ mode source requests, (∀ r ∈ requests, Whole r) ∧
    d = (Decoder.new mode source config).afterAll requests

theorem bounded_answer {d : Decoder} (h : Bounded config d.source d.buffer) {r : Request}
    (hr : Whole r) : Bounded config (d.answer r).2.source (d.answer r).2.buffer := by
  have hread := apportions_serving hr
  obtain ⟨source, b, hthrough, hends⟩ :=
    exists_ends (serving r).framing (serving r).read d.mode d.source d.buffer d.reads
  have hbounded := hends.bounded hread (hthrough.bounded hread h)
  rw [answer_eq]
  exact hbounded

theorem Reached.bounded {d : Decoder} (h : Reached config d) :
    Bounded config d.source d.buffer := by
  obtain ⟨mode, source, requests, hrequests, rfl⟩ := h
  suffices hall : ∀ d : Decoder, Bounded config d.source d.buffer →
      Bounded config (d.afterAll requests).source (d.afterAll requests).buffer from
    hall _ (bounded_new mode source config)
  induction requests with
  | nil => exact fun _ h => h
  | cons r rest ih =>
    obtain ⟨hr, hrest⟩ := List.forall_mem_cons.1 hrequests
    exact fun d h => ih hrest _ (bounded_answer h hr)

/-! ## Soundness -/

/-- A pull of a value reads the content of values. -/
theorem content_serving {p : Pull} (hvalue : (serving (.pull p)).framing = .value) :
    Content (serving (.pull p)).read := by
  cases p with
  | next s => exact content_readShape s
  | header => exact content_readHeader
  | compact | compactAs => exact content_readShape .dynamic
  | listLength => nomatch hvalue
  | skip => exact content_skipValue maxDepth

/-- A whole value suffices for a target of the caller's own. -/
def Sates : Request → Prop
  | .pull _ => True
  | .target read _ _ => Suffices read

theorem suffices_serving {r : Request} (hr : Sates r) : Suffices (serving r).read := by
  rcases r with p | _
  · cases p with
    | listLength => exact suffices_readListLength
    | next | header | compact | compactAs | skip => exact (content_serving rfl).suffices
  · exact hr

/-- What is made of what was read is not found too large. -/
theorem answer_tooLarge_iff {d : Decoder} {r : Request} (hr : Whole r) {offset limit : Nat} :
    (d.answer r).1 = .error (.tooLarge offset limit) ↔
      (d.pull (serving r).framing (serving r).read).1 = .error (.tooLarge offset limit) := by
  rw [answer_eq, pullThen]
  dsimp only
  cases hpull : (d.pull (serving r).framing (serving r).read).1 with
  | error e =>
    exact ⟨fun h => congrArg _ (Except.error.inj h), fun h => congrArg _ (Except.error.inj h)⟩
  | ok a =>
    constructor
    · intro h
      cases isReading_of_finish hr h
    · intro h
      cases h

/-- What a pull takes has been in the buffer at once. -/
theorem Bounded.taken {source : Source} {b : Buffer} {reads : Nat} (h : Bounded config source b)
    (hread : Apportions framing read) (mode : Mode) {a : α} {d' : Decoder}
    (hpull : pullFrom framing read mode source b reads = (.ok a, d')) :
    ∃ front, Portion framing front ∧ front.length ≤ config.room ∧
      d'.offset = b.offset + front.length ∧
      b.bytes ++ Source.unread source = front ++ (d'.buffer.bytes ++ Source.unread d'.source) := by
  obtain ⟨source', b', hthrough, hends⟩ := exists_ends framing read mode source b reads
  rw [hpull] at hends
  obtain ⟨hbytes, hoffset⟩ := hthrough.moves hread
  have hroom := (hthrough.bounded hread h).room
  cases hends with
  | taken hx hsource =>
    have hspends := Buffer.tryTake_spends hread b'
    rw [hx] at hspends
    obtain ⟨front, hportion, hfront, hend⟩ := hspends
    rw [hfront, List.length_append] at hroom
    refine ⟨front, hportion, by omega, ?_, ?_⟩
    · rw [← hoffset]
      exact hend
    · rw [hbytes, hfront, hsource, List.append_assoc]

/-- What a pull finds too large does not begin with a value within the limit. -/
theorem Bounded.tooLarge {source : Source} {b : Buffer} {reads : Nat} (h : Bounded config source b)
    (hread : Apportions framing read) (hsuffices : Suffices read) (hlimit : config.limit ≤ wordMax)
    (mode : Mode) {offset limit : Nat} {d' : Decoder}
    (hpull : pullFrom framing read mode source b reads = (.error (.tooLarge offset limit), d')) :
    offset = b.offset ∧ limit = config.limit ∧
      b.bytes ++ Source.unread source = d'.buffer.bytes ++ Source.unread d'.source ∧
      ∀ more w tail, d'.buffer.bytes ++ more = w ++ tail → Values 1 w →
        config.limit < w.length := by
  obtain ⟨source', b', hthrough, hends⟩ := exists_ends framing read mode source b reads
  rw [hpull] at hends
  obtain ⟨hbytes, hoffset⟩ := hthrough.moves hread
  have hbounded := hthrough.bounded hread h
  cases hends with
  | failed hx hsource =>
    have htried := Buffer.tried_tryTake framing read b'
    have hspends := Buffer.tryTake_spends hread b'
    rw [hx] at htried hspends
    have hlt : ∀ more w tail, b'.bytes ++ more = w ++ tail → Values 1 w → b'.limit < w.length :=
      fun _ _ _ => htried.limit_lt hbounded.scanned hsuffices (hbounded.limit ▸ hlimit)
    rw [← hspends.1, hbounded.limit] at hlt
    obtain ⟨rfl, rfl⟩ := htried.tooLarge_eq
    exact ⟨hoffset, hbounded.limit, by rw [hbytes, hspends.1, hsource], hlt⟩

/-- What the limit means for a request of a decoder. -/
structure Limits (config : DecoderConfig) (d : Decoder) (r : Request) : Prop where
  /-- The decoder does not hold more than there is room for. -/
  room : d.buffered ≤ config.room
  /-- Nothing longer is taken, and what is taken was at the front. -/
  taken : ∀ a, (d.answer r).1 = .ok a → ∃ front, Portion (serving r).framing front ∧
    front.length ≤ config.room ∧ (d.answer r).2.offset = d.offset + front.length ∧
    d.buffer.bytes ++ Source.unread d.source
      = front ++ ((d.answer r).2.buffer.bytes ++ Source.unread (d.answer r).2.source)
  /-- What is found too large begins no value within the limit, whatever comes behind it. -/
  tooLarge : ∀ offset limit, (d.answer r).1 = .error (.tooLarge offset limit) →
    offset = d.offset ∧ limit = config.limit ∧
      ∀ more w tail, (d.answer r).2.buffer.bytes ++ more = w ++ tail → Values 1 w →
        config.limit < w.length
  /-- A value within the limit is not found too large, however it arrives. -/
  within : ∀ w tail, d.buffer.bytes ++ Source.unread d.source = w ++ tail → Values 1 w →
    w.length ≤ config.limit → ∀ offset limit, (d.answer r).1 ≠ .error (.tooLarge offset limit)

/-- **The limit is sound.** Whatever the source does and whatever was asked for before, a decoder
    has bounded room, and finds nothing too large that is within the limit. -/
theorem limits_of_reached {d : Decoder} (hd : Reached config d) (hlimit : config.limit ≤ wordMax)
    {r : Request} (hr : Whole r) (hsates : Sates r) : Limits config d r := by
  have hread := apportions_serving hr
  have hsecond : (d.answer r).2 = (d.pull (serving r).framing (serving r).read).2 := by
    rw [answer_eq, pullThen]
  have hlarge : ∀ offset limit, (d.answer r).1 = .error (.tooLarge offset limit) → _ :=
    fun offset limit h => hd.bounded.tooLarge hread (suffices_serving hsates) hlimit d.mode
      (Prod.ext ((answer_tooLarge_iff hr).1 h) hsecond.symm)
  refine ⟨hd.bounded.room, fun a ha => ?_, fun offset limit h => ?_, ?_⟩
  · cases hpull : (d.pull (serving r).framing (serving r).read).1 with
    | error e =>
      rw [answer_eq, pullThen, hpull] at ha
      cases ha
    | ok a' => exact hd.bounded.taken hread d.mode (Prod.ext hpull hsecond.symm)
  · obtain ⟨hoffset, hlimit', -, hlt⟩ := hlarge offset limit h
    exact ⟨hoffset, hlimit', hlt⟩
  · intro w tail hfront hw hle offset limit h
    obtain ⟨-, -, hbytes, hlt⟩ := hlarge offset limit h
    exact Nat.not_lt_of_le hle (hlt _ w tail (hbytes.symm.trans hfront) hw)

/-- After a failed read and two values, with the rest of a text of five bytes in three pieces still
    to come. -/
theorem limits_of_text_in_pieces :
    Reached ⟨2, 5⟩ ((Decoder.new .async [.bytes [0xC0, 0x2A, 0xA4], .failure "reset",
        .bytes [0x68, 0x69], .interruption, .bytes [0x68, 0x69]] ⟨2, 5⟩).afterAll
          [.pull .skip, .pull (.next .dynamic), .pull .header]) ∧
      Limits ⟨2, 5⟩ ((Decoder.new .async [.bytes [0xC0, 0x2A, 0xA4], .failure "reset",
        .bytes [0x68, 0x69], .interruption, .bytes [0x68, 0x69]] ⟨2, 5⟩).afterAll
          [.pull .skip, .pull (.next .dynamic), .pull .header]) (.pull (.next .dynamic)) := by
  have hd : Reached ⟨2, 5⟩ ((Decoder.new .async [.bytes [0xC0, 0x2A, 0xA4], .failure "reset",
      .bytes [0x68, 0x69], .interruption, .bytes [0x68, 0x69]] ⟨2, 5⟩).afterAll
        [.pull .skip, .pull (.next .dynamic), .pull .header]) := by
    refine ⟨_, _, _, ?_, rfl⟩
    simp only [List.forall_mem_cons]
    exact ⟨trivial, trivial, trivial, by simp⟩
  exact ⟨hd, limits_of_reached hd (by decide) trivial trivial⟩

end Decoder

end FrameRpc
