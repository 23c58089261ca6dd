import FrameRpc.Proofs.Attempts
import FrameRpc.Proofs.FrontToBack
import FrameRpc.Stream.Pull

/-!
# Chunking

What a decoder gives does not depend on how its bytes arrive. A decoder whose buffer holds the
first bytes of a stream, with the others still to come, is compared with one whose buffer holds
them all (`Buffer.Begins`, `Decoder.Follows`). Each attempt at the front either agrees with the
same attempt on all the bytes, or waits, or finds the value too large (`tryTake_agrees`); and a
decoder that waits reads on, so in the end its pull agrees as well (`pullFrom_agrees`), unless it is
the limit that stops it. Reading front to back is all that this needs of a reader: the scan only
puts reading off.

Callers may ask for more than the pulls of `Pull`, namely for any target of their own that is
read front to back (`Request`).
-/

namespace FrameRpc

open MessagePack

/-! ## Requests -/

/-- What a caller may ask of a decoder. -/
inductive Request : Type 1 where
  /-- One of its pulls. -/
  | pull (p : Pull)
  /-- The next value as a target of the caller's own, read by `read`, of which `finish` makes the
      result. -/
  | target {α β : Type} (read : Reader α) (frontToBack : FrontToBack read)
    (finish : α → Except Error β)

/-- What a request gives. -/
@[reducible]
def Request.Result : Request → Type
  | .pull p => p.Result
  | .target (β := β) _ _ _ => β

/-- What a caller sees of a request. -/
structure Answer : Type 1 where
  /-- What was asked for. -/
  request : Request
  /-- What it gave. -/
  result : Except Error request.Result
  /-- The offset of the decoder behind it. -/
  offset : Nat

/-- The result is that a value is larger than the limit. -/
def reportsTooLarge {α : Type} : Except Error α → Bool
  | .error (.tooLarge _ _) => true
  | _ => false

theorem exists_of_reportsTooLarge {α : Type} {x : Except Error α} (h : reportsTooLarge x = true) :
    ∃ offset limit, x = .error (.tooLarge offset limit) := by
  rcases x with e | a
  · cases e with
    | tooLarge offset limit => exact ⟨offset, limit, rfl⟩
    | _ => exact Bool.noConfusion h
  · exact Bool.noConfusion h

theorem reportsTooLarge_bind {α β : Type} {x : Except Error α} (h : reportsTooLarge x = true)
    (f : α → Except Error β) : reportsTooLarge (x.bind f) = true := by
  obtain ⟨offset, limit, rfl⟩ := exists_of_reportsTooLarge h
  rfl

namespace Decoder

/-- Pulls what a reader reads, and makes a result of it. -/
def pullThen {α β : Type} (framing : Framing) (read : Reader α) (finish : α → Except Error β)
    (d : Decoder) : Except Error β × Decoder :=
  ((d.pull framing read).1.bind finish, (d.pull framing read).2)

/-- Does what a request asks for. -/
def answer (d : Decoder) : (r : Request) → Except Error r.Result × Decoder
  | .pull p => d.perform p
  | .target read _ finish => d.pullThen .value read finish

/-- The answers to a list of requests, one after the other, whatever they are. -/
def answers (d : Decoder) : List Request → List Answer
  | [] => []
  | r :: rest => ⟨r, (d.answer r).1, (d.answer r).2.offset⟩ :: (d.answer r).2.answers rest

/-- How a request is served: how much is taken from the front, what reads it, and what is made of
    what was read. -/
structure Serving (β : Type) where
  {α : Type}
  framing : Framing
  read : Reader α
  finish : α → Except Error β

/-- How each request is served. -/
def serving : (r : Request) → Serving r.Result
  | .pull (.next s) => ⟨.value, s.read, .ok⟩
  | .pull .header => ⟨.value, Header.read, Header.check⟩
  | .pull (.compact s) =>
    ⟨.value, Shape.dynamic.read, fun wire => (s.decode wire).mapError Error.schema⟩
  | .pull (.compactAs s shape) => ⟨.value, Shape.dynamic.read, s.decodeAs shape⟩
  | .pull .listLength => ⟨.listHead, readListLength, .ok⟩
  | .pull .skip => ⟨.value, skipValue maxDepth, .ok⟩
  | .target read _ finish => ⟨.value, read, finish⟩

theorem pullThen_ok {α : Type} (framing : Framing) (read : Reader α) (d : Decoder) :
    d.pullThen framing read .ok = d.pull framing read := by
  refine Prod.ext ?_ rfl
  change (d.pull framing read).1.bind .ok = (d.pull framing read).1
  cases (d.pull framing read).1 <;> rfl

/-- Every request is a pull. -/
theorem answer_eq (d : Decoder) (r : Request) :
    d.answer r = d.pullThen (serving r).framing (serving r).read (serving r).finish := by
  rcases r with p | _
  · cases p with
    | next s => exact (pullThen_ok _ _ d).symm
    | listLength => exact (pullThen_ok _ _ d).symm
    | skip => exact (pullThen_ok _ _ d).symm
    | header | compact | compactAs => rfl
  · rfl

/-- What serves a request reads front to back. -/
theorem frontToBack_serving (r : Request) : FrontToBack (serving r).read := by
  rcases r with p | ⟨read, h, finish⟩
  · cases p with
    | next s => exact frontToBack_readShape s
    | header => exact frontToBack_readHeader
    | compact | compactAs => exact frontToBack_readShape .dynamic
    | listLength => exact frontToBack_readListLength
    | skip => exact frontToBack_skipValue maxDepth
  · exact h

end Decoder

/-! ## Sources that deliver -/

/-- Every read of the source gives bytes, and some. -/
def Source.Delivering (s : Source) : Prop := ∀ e ∈ s, ∃ bs : Bytes, bs ≠ [] ∧ e = .bytes bs

theorem Source.Delivering.eq_nil {s : Source} (h : s.Delivering) (hnone : s.unread = []) :
    s = [] := by
  cases s with
  | nil => rfl
  | cons e s =>
    obtain ⟨bs, hbs, rfl⟩ := h e List.mem_cons_self
    exact absurd (List.append_eq_nil_iff.1 hnone).1 hbs

theorem flatten_pieces (n : Nat) (bs : Bytes) : (pieces n bs).flatten = bs := by
  fun_induction pieces n bs with
  | case1 bs h => simp
  | case2 bs b rest h ih => rw [List.flatten_cons, ih, ← h, List.take_append_drop]

theorem ne_nil_of_mem_pieces {n : Nat} {bs p : Bytes} (hbs : bs ≠ []) (hp : p ∈ pieces n bs) :
    p ≠ [] := by
  fun_induction pieces n bs with
  | case1 bs h =>
    obtain rfl := List.mem_singleton.1 hp
    exact hbs
  | case2 bs b rest h ih =>
    rcases List.mem_cons.1 hp with rfl | hp
    · cases bs with
      | nil => exact absurd rfl hbs
      | cons c cs => exact List.cons_ne_nil _ _
    · exact ih (List.cons_ne_nil _ _) hp

theorem Source.delivering_cut {chunks : List Bytes} (h : ∀ c ∈ chunks, c ≠ []) (n : Nat) :
    Source.Delivering (Source.cut n (chunks.map .bytes)) := by
  intro e he
  obtain ⟨_, hd, he⟩ := List.mem_flatMap.1 he
  obtain ⟨c, hc, rfl⟩ := List.mem_map.1 hd
  obtain ⟨p, hp, rfl⟩ := List.mem_map.1 he
  exact ⟨p, ne_nil_of_mem_pieces (h c hc) hp, rfl⟩

theorem Source.unread_cut (chunks : List Bytes) (n : Nat) :
    Source.unread (Source.cut n (chunks.map .bytes)) = chunks.flatten := by
  induction chunks with
  | nil => rfl
  | cons c rest ih =>
    rw [List.flatten_cons, ← ih, ← flatten_pieces (n - 1) c]
    simp only [Source.cut, Source.unread, List.map_cons, List.flatMap_cons, Delivery.cut,
      List.flatMap_append, List.flatMap_map, Source.held, flatten_pieces]
    rw [List.flatMap_id', flatten_pieces]

/-! ## Buffers -/

/-- `b` holds the first bytes of `whole`, which holds all there are; `coming` are the others. -/
structure Buffer.Begins (b whole : Buffer) (coming : Bytes) : Prop where
  /-- What `b` lacks is still to come. -/
  bytes : whole.bytes = b.bytes ++ coming
  /-- Both stand at the same value. -/
  offset : whole.offset = b.offset
  /-- Nothing comes after `whole`. -/
  whole : whole.ended = true
  /-- Nothing comes after the end of input. -/
  ended : b.ended = true → coming = []

namespace Buffer

variable {α : Type}

/-- How an attempt on `b`, with `coming` still to come, compares with the same attempt on the
    `whole`: it agrees, or finds the value too large, or waits for what is to come. -/
def Agrees (b whole : Buffer) (coming : Bytes) (attempt attemptWhole : Attempt α × Buffer) :
    Prop :=
  match attempt with
  | (.taken a, b') => ∃ w, attemptWhole = (.taken a, w) ∧ b'.Begins w coming
  | (.failed e, b') => reportsTooLarge (α := α) (.error e) = true ∨
      ∃ w, attemptWhole = (.failed e, w) ∧ b'.Begins w coming
  | (.waiting, b') => b.ended = false ∧ b'.Begins whole coming

variable {b w : Buffer} {coming : Bytes}

theorem extend_of_ne_nil (b : Buffer) {chunk : Bytes} (h : chunk ≠ []) :
    b.extend chunk = { b with bytes := b.bytes ++ chunk } := by
  rw [extend, if_neg (by simpa using h)]

@[simp]
theorem extend_bytes (b : Buffer) (chunk : Bytes) : (b.extend chunk).bytes = b.bytes ++ chunk := by
  rw [extend]
  split
  · rename_i hempty
    rw [List.isEmpty_iff.1 hempty, List.append_nil]
  · rfl

@[simp]
theorem extend_offset (b : Buffer) (chunk : Bytes) : (b.extend chunk).offset = b.offset := by
  rw [extend]
  split <;> rfl

@[simp]
theorem extend_limit (b : Buffer) (chunk : Bytes) : (b.extend chunk).limit = b.limit := by
  rw [extend]
  split <;> rfl

@[simp]
theorem extend_scan (b : Buffer) (chunk : Bytes) : (b.extend chunk).scan = b.scan := by
  rw [extend]
  split <;> rfl

/-- On all the bytes there is no scan: reading decides. -/
theorem tryTake_of_ended (framing : Framing) (read : Reader α) (h : w.ended = true) :
    w.tryTake framing read
      = if w.bytes.isEmpty then (.failed .exhausted, w) else w.take read := by
  simp [tryTake, h]

/-- A look at how far the front value has arrived leaves the bytes where they are. -/
theorem Begins.looked (h : b.Begins w coming) (framing : Framing) :
    (b.looked framing).Begins w coming where
  bytes := by rw [looked_bytes, h.bytes]
  offset := by rw [looked_offset, h.offset]
  whole := h.whole
  ended := by
    rw [looked_ended]
    exact h.ended

theorem tryTake_agrees (framing : Framing) {read : Reader α} (hread : FrontToBack read)
    (h : b.Begins w coming) :
    b.Agrees w coming (b.tryTake framing read) (w.tryTake framing read) := by
  have hext := hread b.bytes coming
  rw [← h.bytes] at hext
  have hne : b.bytes ≠ [] → ¬ w.bytes.isEmpty = true := by
    intro hb
    rw [List.isEmpty_iff, h.bytes]
    exact List.append_ne_nil_of_left_ne_nil hb _
  rw [tryTake_of_ended framing read h.whole]
  generalize hx : b.tryTake framing read = x
  cases hx ▸ tried_tryTake framing read b with
  | exhausted hbytes hended =>
    have hw : w.bytes.isEmpty = true := by
      rw [List.isEmpty_iff, h.bytes, h.ended hended, List.append_nil, hbytes]
    rw [if_pos hw]
    exact .inr ⟨w, rfl, h⟩
  | idle _ hended => exact ⟨hended, h⟩
  -- The scan decides whether to read. Reading agrees, and so does putting it off.
  | short _ hended => exact ⟨hended, h.looked framing⟩
  | large => exact .inl rfl
  | @taken a rest hbytes _ hr =>
    rw [hr] at hext
    have hw : read w.bytes = .ok (a, rest ++ coming) := hext
    rw [if_neg (hne hbytes), take, hw]
    refine ⟨_, rfl, ⟨rfl, ?_, h.whole, h.ended⟩⟩
    simp only [h.offset, h.bytes, List.length_append]
    omega
  | @malformed why hbytes _ hr hdone =>
    -- Either the reader refuses what is there, or there is nothing to come.
    have hw : read w.bytes = .error why := by
      rw [hr] at hext
      rcases hext with ht | hw
      · rw [h.bytes, h.ended (hdone ht), List.append_nil, hr]
      · exact hw
    rw [if_neg (hne hbytes), take, hw, h.whole, h.offset]
    simp only [Bool.not_true, Bool.and_false, if_false, Bool.false_eq_true]
    exact .inr ⟨_, rfl, ⟨h.bytes, rfl, rfl, h.ended⟩⟩

/-- Only a buffer that something may still come to waits. -/
theorem begins_of_waiting {framing : Framing} {read : Reader α} {b' : Buffer}
    (hread : FrontToBack read) (h : b.Begins w coming)
    (hx : b.tryTake framing read = (.waiting, b')) : b.ended = false ∧ b'.Begins w coming := by
  have hagree := tryTake_agrees framing hread h
  rw [hx] at hagree
  exact hagree

end Buffer

/-! ## Decoders -/

/-- The buffer of `d` holds the first bytes of what the buffer of `whole` holds, and the source of
    `d` delivers the others. -/
structure Decoder.Follows (d whole : Decoder) : Prop where
  buffer : d.buffer.Begins whole.buffer (Source.unread d.source)
  delivering : Source.Delivering d.source

namespace Decoder

variable {α β : Type}

theorem pullFrom_taken {framing : Framing} {read : Reader α} {mode : Mode} {source : Source}
    {b b' : Buffer} {reads : Nat} {a : α} (h : b.tryTake framing read = (.taken a, b')) :
    pullFrom framing read mode source b reads = (.ok a, ⟨mode, source, b', reads⟩) := by
  unfold pullFrom
  rw [h]

theorem pullFrom_failed {framing : Framing} {read : Reader α} {mode : Mode} {source : Source}
    {b b' : Buffer} {reads : Nat} {e : Error} (h : b.tryTake framing read = (.failed e, b')) :
    pullFrom framing read mode source b reads = (.error e, ⟨mode, source, b', reads⟩) := by
  unfold pullFrom
  rw [h]

theorem pullFrom_waiting {framing : Framing} {read : Reader α} {mode : Mode} {source : Source}
    {b b' : Buffer} {reads : Nat} {bs : Bytes} (h : b.tryTake framing read = (.waiting, b')) :
    pullFrom framing read mode (.bytes bs :: source) b reads
      = pullFrom framing read mode source (b'.extend bs) (reads + 1) := by
  rw [pullFrom, h]

/-- At the end of the source the end of input is one more read. -/
theorem pullFrom_waiting_nil {framing : Framing} {read : Reader α} {mode : Mode}
    {b b' : Buffer} {reads : Nat} (h : b.tryTake framing read = (.waiting, b'))
    (hdone : ∀ b'', (b'.extend []).tryTake framing read ≠ (.waiting, b'')) :
    pullFrom framing read mode [] b reads
      = pullFrom framing read mode [] (b'.extend []) (reads + 1) := by
  rw [pullFrom, h]
  rcases hx : (b'.extend []).tryTake framing read with ⟨_ | _ | e, b''⟩
  · simp only [hx, pullFrom_taken hx]
  · exact absurd hx (hdone b'')
  · simp only [hx, pullFrom_failed hx]

/-- What the first attempt gives has been read from the bytes that had arrived. -/
theorem exists_of_pullFrom_of_done {framing : Framing} {read : Reader α} {mode : Mode}
    {source : Source} {b : Buffer} {reads : Nat} {a : α} {d : Decoder}
    (hdone : ∀ b', b.tryTake framing read ≠ (.waiting, b'))
    (h : pullFrom framing read mode source b reads = (.ok a, d)) :
    ∃ rest, read b.bytes = .ok (a, rest) := by
  rcases hx : b.tryTake framing read with ⟨a' | _ | e, b'⟩
  · rw [pullFrom_taken hx] at h
    obtain rfl := Except.ok.inj (Prod.mk.inj h).1
    exact (hx ▸ Buffer.tried_tryTake framing read b).exists_of_taken
  · exact absurd hx (hdone b')
  · rw [pullFrom_failed hx] at h
    cases (Prod.mk.inj h).1

/-- What is pulled has been read from the first of the bytes that were there or have come. -/
theorem exists_of_pullFrom {framing : Framing} {read : Reader α} {mode : Mode} {source : Source}
    {b : Buffer} {reads : Nat} {a : α} {d : Decoder}
    (h : pullFrom framing read mode source b reads = (.ok a, d)) :
    ∃ got more rest, b.bytes ++ Source.unread source = got ++ more ∧ read got = .ok (a, rest) := by
  have hwait {b b' : Buffer} (hx : b.tryTake framing read = (.waiting, b')) :
      b'.bytes = b.bytes := (hx ▸ Buffer.tried_tryTake framing read b).bytes_of_waiting
  induction source generalizing b reads with
  | nil =>
    by_cases hfirst : ∃ b', b.tryTake framing read = (.waiting, b')
    · obtain ⟨b', hx⟩ := hfirst
      have hdone : ∀ b'', (b'.extend []).tryTake framing read ≠ (.waiting, b'') :=
        Buffer.tryTake_ne_waiting rfl
      rw [pullFrom_waiting_nil hx hdone] at h
      obtain ⟨rest, hr⟩ := exists_of_pullFrom_of_done hdone h
      rw [Buffer.extend_bytes, hwait hx] at hr
      exact ⟨b.bytes ++ [], [], rest, by rw [List.append_nil]; rfl, hr⟩
    · obtain ⟨rest, hr⟩ := exists_of_pullFrom_of_done (not_exists.1 hfirst) h
      exact ⟨b.bytes, _, rest, rfl, hr⟩
  | cons e source ih =>
    by_cases hfirst : ∃ b', b.tryTake framing read = (.waiting, b')
    · obtain ⟨b', hx⟩ := hfirst
      rw [pullFrom, hx] at h
      cases e with
      | bytes bs =>
        have hread := ih h
        rw [Buffer.extend_bytes, hwait hx, List.append_assoc] at hread
        exact hread
      | failure => cases (Prod.mk.inj h).1
      | interruption =>
        cases mode with
        | blocking =>
          have hread := ih h
          rw [hwait hx] at hread
          exact hread
        | async => cases (Prod.mk.inj h).1
    · obtain ⟨rest, hr⟩ := exists_of_pullFrom_of_done (not_exists.1 hfirst) h
      exact ⟨b.bytes, _, rest, rfl, hr⟩

/-- What a pull has in common with the same pull on a decoder that it follows. -/
def Agrees (x y : Except Error α × Decoder) : Prop :=
  reportsTooLarge x.1 = true ∨ x.1 = y.1 ∧ x.2.Follows y.2

/-- A pull whose first attempt does not wait. -/
theorem pullFrom_agrees_of_done {framing : Framing} {read : Reader α} {mode : Mode}
    {source : Source} {b : Buffer} {reads : Nat} {whole : Decoder} (hread : FrontToBack read)
    (hs : Source.Delivering source) (hb : b.Begins whole.buffer (Source.unread source))
    (hdone : ∀ b', b.tryTake framing read ≠ (.waiting, b')) :
    Agrees (pullFrom framing read mode source b reads) (whole.pull framing read) := by
  have hagree := Buffer.tryTake_agrees framing hread hb
  rcases hx : b.tryTake framing read with ⟨a | _ | e, b'⟩
  · rw [hx] at hagree
    obtain ⟨w, hw, hb'⟩ := hagree
    rw [pullFrom_taken hx, pull, pullFrom_taken hw]
    exact .inr ⟨rfl, hb', hs⟩
  · exact absurd hx (hdone b')
  · rw [hx] at hagree
    rw [pullFrom_failed hx]
    rcases hagree with hlarge | ⟨w, hw, hb'⟩
    · exact .inl hlarge
    · rw [pull, pullFrom_failed hw]
      exact .inr ⟨rfl, hb', hs⟩

theorem pullFrom_agrees (framing : Framing) {read : Reader α} (hread : FrontToBack read)
    (mode : Mode) {source : Source} {b : Buffer} {whole : Decoder} (reads : Nat)
    (hs : Source.Delivering source) (hb : b.Begins whole.buffer (Source.unread source)) :
    Agrees (pullFrom framing read mode source b reads) (whole.pull framing read) := by
  -- What one read brings goes from what is to come to the end of the buffer, so after each of them
  -- the buffer still holds the first bytes of the whole.
  induction source generalizing b reads with
  | nil =>
    by_cases hwait : ∃ b', b.tryTake framing read = (.waiting, b')
    · obtain ⟨b', hx⟩ := hwait
      obtain ⟨-, hb'⟩ := Buffer.begins_of_waiting hread hb hx
      have hbe : (b'.extend []).Begins whole.buffer [] :=
        ⟨hb'.bytes, hb'.offset, hb'.whole, fun _ => rfl⟩
      -- After the end of input nothing waits any more.
      have hdone' : ∀ b'', (b'.extend []).tryTake framing read ≠ (.waiting, b'') := fun b'' hx' =>
        Bool.noConfusion (Buffer.begins_of_waiting hread hbe hx').1
      rw [pullFrom_waiting_nil hx hdone']
      exact pullFrom_agrees_of_done hread hs hbe hdone'
    · exact pullFrom_agrees_of_done hread hs hb (not_exists.1 hwait)
  | cons e source ih =>
    by_cases hwait : ∃ b', b.tryTake framing read = (.waiting, b')
    · obtain ⟨b', hx⟩ := hwait
      obtain ⟨-, hb'⟩ := Buffer.begins_of_waiting hread hb hx
      obtain ⟨bs, hbs, rfl⟩ := hs e List.mem_cons_self
      rw [pullFrom_waiting hx]
      refine ih (reads + 1) (fun e he => hs e (List.mem_cons_of_mem _ he)) ?_
      rw [Buffer.extend_of_ne_nil b' hbs]
      refine ⟨?_, hb'.offset, hb'.whole, fun hended => ?_⟩
      · rw [hb'.bytes, List.append_assoc]
        rfl
      · exact (List.append_eq_nil_iff.1 (hb'.ended hended)).2
    · exact pullFrom_agrees_of_done hread hs hb (not_exists.1 hwait)

theorem Follows.answer {d whole : Decoder} (h : d.Follows whole) (r : Request) :
    Agrees (d.answer r) (whole.answer r) := by
  rw [answer_eq, answer_eq, pullThen, pullThen]
  rcases pullFrom_agrees (serving r).framing (frontToBack_serving r) d.mode d.reads h.delivering
    h.buffer with hlarge | ⟨hr, hf⟩
  · exact .inl (reportsTooLarge_bind hlarge _)
  · right
    change (d.pull (serving r).framing (serving r).read).1 = _ at hr
    rw [hr]
    exact ⟨rfl, hf⟩

theorem Follows.answers {d whole : Decoder} (h : d.Follows whole) (requests : List Request)
    (fits : ∀ a ∈ d.answers requests, reportsTooLarge a.result = false) :
    d.answers requests = whole.answers requests := by
  induction requests generalizing d whole with
  | nil => rfl
  | cons r rest ih =>
    obtain ⟨hr, hrest⟩ := List.forall_mem_cons.1 fits
    rcases h.answer r with hlarge | ⟨heq, hf⟩
    · rw [hr] at hlarge
      exact Bool.noConfusion hlarge
    · have hoff : (d.answer r).2.offset = (whole.answer r).2.offset := hf.buffer.offset.symm
      rw [Decoder.answers, Decoder.answers, heq, hoff, ih hf hrest]

theorem follows_ofBytes (mode : Mode) (config : DecoderConfig) {chunks : List Bytes}
    (nonempty : ∀ c ∈ chunks, c ≠ []) :
    (Decoder.new mode (chunks.map .bytes) config).Follows (ofBytes chunks.flatten) where
  buffer := ⟨(Source.unread_cut chunks (max config.chunk 1)).symm, rfl, rfl,
    fun h => Bool.noConfusion h⟩
  delivering := Source.delivering_cut nonempty (max config.chunk 1)

/-- The answers to any requests do not depend on how the bytes arrive, on the size of reads or on
    how the decoder waits: they are those of a decoder that has all the bytes, as long as no value
    is found larger than the limit. -/
theorem answers_eq_ofBytes (mode : Mode) (config : DecoderConfig) (chunks : List Bytes)
    (requests : List Request) (nonempty : ∀ c ∈ chunks, c ≠ [])
    (fits : ∀ a ∈ (Decoder.new mode (chunks.map .bytes) config).answers requests,
      reportsTooLarge a.result = false) :
    (Decoder.new mode (chunks.map .bytes) config).answers requests
      = (Decoder.ofBytes chunks.flatten).answers requests :=
  (follows_ofBytes mode config nonempty).answers requests fits

/-- A list whose text arrives in pieces and turns out to be no text, pulled as a value, passed over,
    pulled once more as a target of the caller's, and followed by the end. -/
theorem answers_of_list_cut_in_text :
    (∀ c ∈ [[0x92, 0xA2], [0x68], [0x69, 0xC3, 0xC1]], c ≠ ([] : Bytes)) ∧
      (Decoder.new .async ([[0x92, 0xA2], [0x68], [0x69, 0xC3, 0xC1]].map .bytes) ⟨1, 5⟩).answers
          [.pull (.next .dynamic), .pull .skip, .pull .header,
            .target (readValue 3) (frontToBack_readValue 3) fun v => .ok v.kind]
        = (Decoder.ofBytes [0x92, 0xA2, 0x68, 0x69, 0xC3, 0xC1]).answers
          [.pull (.next .dynamic), .pull .skip, .pull .header,
            .target (readValue 3) (frontToBack_readValue 3) fun v => .ok v.kind] :=
  ⟨by decide, answers_eq_ofBytes .async ⟨1, 5⟩ [[0x92, 0xA2], [0x68], [0x69, 0xC3, 0xC1]] _
    (by decide) (by decide +kernel)⟩

end Decoder

end FrameRpc
