import FrameRpc.Proofs.SizeLimit

/-!
# Failures of the source

A read that fails loses nothing. A caller who asks again whenever the source has failed
(`Decoder.persist`) sees what he would have seen of a source that does not fail; a blocking decoder
asks again by itself after an interruption, so of those its caller sees nothing at all
(`Decoder.failures_lose_nothing`).

A pull that is cut short leaves the buffer as an attempt that waits has left it. Such an attempt
comes out the same again (`Buffer.tryTake_again`), so the pull that is issued again goes on where
the first one stopped, and both together are the pull without the failure
(`Decoder.pullFrom_filter`).
-/

namespace FrameRpc

open MessagePack

variable {α : Type} {framing : Framing} {read : Reader α}

/-! ## Attempts that wait -/

namespace Buffer

variable {b b' : Buffer}

/-- A second look at the same bytes finds out what the first one has. -/
theorem looked_again (framing : Framing) (h : b.bytes.length ≤ wordMax) :
    (b.looked framing).looked framing = b.looked framing ∧
      ((b.looked framing).Seen framing ↔ b.Seen framing) := by
  by_cases hlook : framing = .value ∧ b.ended = false
  · -- Only a value that is still arriving is looked at, and the second look starts where the first
    -- one has stopped.
    have hscan := b.scan.advance_advance (List.prefix_refl b.bytes) h
    have hlooked : b.looked framing = { b with scan := (b.scan.advance b.bytes).2 } :=
      if_pos hlook
    rw [hlooked]
    refine ⟨?_, ?_⟩
    · rw [looked, if_pos hlook]
      simp only [hscan]
    · simp only [Seen, hscan]
  · have hlooked : b.looked framing = b := if_neg hlook
    rw [hlooked]
    exact ⟨hlooked, Iff.rfl⟩

/-- An attempt that waits waits again, and leaves the buffer as it is. -/
theorem tryTake_again (h : b.tryTake framing read = (.waiting, b')) (hlimit : b.limit ≤ wordMax) :
    b'.tryTake framing read = (.waiting, b') := by
  have htried := tried_tryTake framing read b
  rw [h] at htried
  cases htried with
  | idle => exact h
  | short hbytes hended hlacks hreach hlength =>
    -- What was lacking before the look is lacking after it, so the reader comes to nothing either.
    obtain ⟨hlooked, hseen⟩ := looked_again (b := b) framing (by omega)
    have hlacks' : (b.looked framing).Lacks framing read := by
      rw [Lacks, hseen, looked_bytes]
      exact hlacks
    generalize hx : (b.looked framing).tryTake framing read = x
    cases hx ▸ tried_tryTake framing read (b.looked framing) with
    | exhausted hbytes' | idle hbytes' =>
      exact absurd ((looked_bytes framing b).symm.trans hbytes') hbytes
    | short => rw [hlooked]
    | large _ _ _ hlarge =>
      rw [hlooked, looked_limit, looked_bytes] at hlarge
      omega
    | taken _ hseen' hr =>
      rcases hlacks' with hunseen | ⟨why, hr', -⟩
      · exact absurd hseen' hunseen
      · rw [hr] at hr'
        nomatch hr'
    | malformed _ hseen' hr hdone =>
      rcases hlacks' with hunseen | ⟨why, hr', ht⟩
      · exact absurd hseen' hunseen
      · rw [hr] at hr'
        obtain rfl := Except.error.inj hr'
        rw [looked_ended, hended] at hdone
        nomatch hdone ht

end Buffer

namespace Decoder

/-- A pull goes on where an attempt that waits has stopped. -/
theorem pullFrom_again {b b' : Buffer} (h : b.tryTake framing read = (.waiting, b'))
    (hlimit : b.limit ≤ wordMax) (mode : Mode) (source : Source) (reads : Nat) :
    pullFrom framing read mode source b' reads = pullFrom framing read mode source b reads := by
  have hagain := Buffer.tryTake_again h hlimit
  cases source with
  | nil => rw [pullFrom, pullFrom, h, hagain]
  | cons e source => rw [pullFrom, pullFrom, h, hagain]

end Decoder

/-! ## Sources without some of their reads -/

namespace Delivery

/-- The read gives bytes, or the end of input. -/
def isBytes : Delivery → Bool
  | .bytes _ => true
  | _ => false

/-- The failure that a decoder which waits in this way reports of the read. -/
def failure? (mode : Mode) : Delivery → Option String
  | .bytes _ => none
  | .failure text => some text
  | .interruption => if mode = .async then some "interrupted" else none

/-- A read gives bytes, or is reported as a failure, or is made again. -/
theorem cases_of_mode (mode : Mode) (e : Delivery) : (∃ bs, e = .bytes bs) ∨
    (∃ text, e.failure? mode = some text) ∨ e = .interruption ∧ mode = .blocking := by
  cases e with
  | bytes bs => exact .inl ⟨bs, rfl⟩
  | failure text => exact .inr (.inl ⟨text, rfl⟩)
  | interruption =>
    cases mode with
    | blocking => exact .inr (.inr ⟨rfl, rfl⟩)
    | async => exact .inr (.inl ⟨"interrupted", rfl⟩)

end Delivery

namespace Decoder

/-- The two decoders have the same buffer and the same reads to come, apart from reads that `keep`
    leaves out. -/
structure Alike (keep : Delivery → Bool) (d d' : Decoder) : Prop where
  mode : d.mode = d'.mode
  buffer : d.buffer = d'.buffer
  source : d.source.filter keep = d'.source.filter keep

/-- The same result, and alike decoders behind it. -/
def Same {β : Type} (keep : Delivery → Bool) (x y : Except Error β × Decoder) : Prop :=
  x.1 = y.1 ∧ x.2.Alike keep y.2

variable {keep : Delivery → Bool}

/-- How many reads there were before has no influence. -/
theorem pullFrom_reads (framing : Framing) (read : Reader α) (mode : Mode) (source : Source)
    (b : Buffer) (m n : Nat) : Same keep (pullFrom framing read mode source b m)
      (pullFrom framing read mode source b n) := by
  induction source generalizing b m n with
  | nil =>
    rw [pullFrom, pullFrom]
    rcases b.tryTake framing read with ⟨_ | _ | _, b'⟩
    · exact ⟨rfl, rfl, rfl, rfl⟩
    · dsimp only
      rcases (b'.extend []).tryTake framing read with ⟨_ | _ | _, b''⟩
      all_goals exact ⟨rfl, rfl, rfl, rfl⟩
    · exact ⟨rfl, rfl, rfl, rfl⟩
  | cons e source ih =>
    rw [pullFrom, pullFrom]
    rcases b.tryTake framing read with ⟨_ | _ | _, b'⟩
    · exact ⟨rfl, rfl, rfl, rfl⟩
    · cases e with
      | bytes bs => exact ih (b'.extend bs) (m + 1) (n + 1)
      | failure text => exact ⟨rfl, rfl, rfl, rfl⟩
      | interruption =>
        cases mode with
        | blocking => exact ih b' (m + 1) (n + 1)
        | async => exact ⟨rfl, rfl, rfl, rfl⟩
    · exact ⟨rfl, rfl, rfl, rfl⟩

section Waiting

variable {b b' : Buffer} {source : Source}

theorem pullFrom_waiting_failure {mode : Mode} {e : Delivery} {text : String}
    (h : b.tryTake framing read = (.waiting, b')) (he : e.failure? mode = some text)
    (reads : Nat) : pullFrom framing read mode (e :: source) b reads
      = (.error (.source text), ⟨mode, source, b', reads + 1⟩) := by
  rw [pullFrom, h]
  cases e with
  | bytes bs => cases he
  | failure text' =>
    cases he
    rfl
  | interruption =>
    cases mode with
    | blocking => cases he
    | async =>
      cases he
      rfl

/-- After an interruption a blocking decoder reads again. -/
theorem pullFrom_waiting_interruption (h : b.tryTake framing read = (.waiting, b'))
    (reads : Nat) : pullFrom framing read .blocking (.interruption :: source) b reads
      = pullFrom framing read .blocking source b' (reads + 1) := by
  rw [pullFrom, h]

end Waiting

/-- What a pull leaves as it is, and what a failure of the source comes from. -/
structure Stays (mode : Mode) (source : Source) (b : Buffer) (x : Except Error α × Decoder) :
    Prop where
  mode_eq : x.2.mode = mode
  limit_eq : x.2.buffer.limit = b.limit
  suffix : x.2.source <:+ source
  failed : ∀ text, x.1 = .error (.source text) → ∃ e ∈ source, e.failure? mode = some text

theorem Stays.cons {mode : Mode} {source : Source} {b b' : Buffer} {x : Except Error α × Decoder}
    (h : Stays mode source b' x) (hlimit : b'.limit = b.limit) (e : Delivery) :
    Stays mode (e :: source) b x where
  mode_eq := h.mode_eq
  limit_eq := h.limit_eq.trans hlimit
  suffix := h.suffix.trans (List.suffix_cons e source)
  failed text ht := (h.failed text ht).imp fun _ he => ⟨List.mem_cons_of_mem _ he.1, he.2⟩

/-- The first attempt settles it. -/
theorem stays_of_tryTake (mode : Mode) (source : Source) {b : Buffer} (reads : Nat)
    (h : ∀ b', b.tryTake framing read ≠ (.waiting, b')) :
    Stays mode source b (pullFrom framing read mode source b reads) := by
  have htried := Buffer.tried_tryTake framing read b
  rcases hx : b.tryTake framing read with ⟨a | _ | e, b'⟩
  · rw [hx] at htried
    rw [pullFrom_taken hx]
    exact ⟨rfl, htried.limit_eq, List.suffix_refl _, fun _ h => nomatch h⟩
  · exact absurd hx (h b')
  · rw [hx] at htried
    rw [pullFrom_failed hx]
    refine ⟨rfl, htried.limit_eq, List.suffix_refl _, fun text h => ?_⟩
    obtain rfl := Except.error.inj h
    nomatch htried

theorem stays_pullFrom (framing : Framing) (read : Reader α) (mode : Mode) (source : Source)
    (b : Buffer) (reads : Nat) :
    Stays mode source b (pullFrom framing read mode source b reads) := by
  induction source generalizing b reads with
  | nil =>
    by_cases hwait : ∃ b', b.tryTake framing read = (.waiting, b')
    · obtain ⟨b', hx⟩ := hwait
      have hlimit := (Buffer.tried_tryTake framing read b).limit_eq
      rw [hx] at hlimit
      have hdone : ∀ b'', (b'.extend []).tryTake framing read ≠ (.waiting, b'') :=
        Buffer.tryTake_ne_waiting rfl
      rw [pullFrom_waiting_nil hx hdone]
      have hend := stays_of_tryTake mode [] (reads + 1) hdone
      exact ⟨hend.mode_eq, hend.limit_eq.trans hlimit, hend.suffix, hend.failed⟩
    · exact stays_of_tryTake mode [] reads (not_exists.1 hwait)
  | cons e source ih =>
    by_cases hwait : ∃ b', b.tryTake framing read = (.waiting, b')
    · obtain ⟨b', hx⟩ := hwait
      have hlimit := (Buffer.tried_tryTake framing read b).limit_eq
      rw [hx] at hlimit
      rcases e.cases_of_mode mode with ⟨bs, rfl⟩ | ⟨text, he⟩ | ⟨rfl, rfl⟩
      · rw [pullFrom_waiting hx]
        exact (ih (b'.extend bs) (reads + 1)).cons ((Buffer.extend_limit b' bs).trans hlimit) _
      · rw [pullFrom_waiting_failure hx he]
        refine ⟨rfl, hlimit, List.suffix_cons e source, fun text' h => ?_⟩
        cases h
        exact ⟨e, List.mem_cons_self, he⟩
      · rw [pullFrom_waiting_interruption hx]
        exact (ih b' (reads + 1)).cons hlimit _
    · exact stays_of_tryTake mode (e :: source) reads (not_exists.1 hwait)

/-! ## Pulls that are cut short -/

/-- The pull `x` of the source is cut short by a read that `keep` leaves out. Issued again, without
    further such reads, it comes to the same as `y`. -/
structure CutShort (keep : Delivery → Bool) (framing : Framing) (read : Reader α) (mode : Mode)
    (source : Source) (x y : Except Error α × Decoder) : Prop where
  left : ∃ e ∈ source, keep e = false ∧ e.failure? mode ≠ none
  failed : ∃ text, x.1 = .error (.source text)
  shorter : x.2.source.length < source.length
  again : ∀ reads, Same keep
    (pullFrom framing read x.2.mode (x.2.source.filter keep) x.2.buffer reads) y

theorem CutShort.cons {mode : Mode} {source : Source} {x y : Except Error α × Decoder}
    (h : CutShort keep framing read mode source x y) (e : Delivery) :
    CutShort keep framing read mode (e :: source) x y where
  left := h.left.imp fun _ he => ⟨List.mem_cons_of_mem _ he.1, he.2⟩
  failed := h.failed
  shorter := Nat.lt_succ_of_lt h.shorter
  again := h.again

/-- What a pull comes to on its source, and on the source without the reads that `keep` leaves
    out: the same, unless one of these reads cuts it short. -/
theorem pullFrom_filter (hkeep : ∀ bs, keep (.bytes bs) = true) (framing : Framing)
    (read : Reader α) (mode : Mode) (source : Source) {b : Buffer} (hlimit : b.limit ≤ wordMax)
    (m n : Nat) :
    Same keep (pullFrom framing read mode source b m)
        (pullFrom framing read mode (source.filter keep) b n) ∨
      CutShort keep framing read mode source (pullFrom framing read mode source b m)
        (pullFrom framing read mode (source.filter keep) b n) := by
  have hfilter : ∀ s : Source, s.filter keep = (s.filter keep).filter keep := fun s => by
    rw [List.filter_filter]
    simp only [Bool.and_self]
  induction source generalizing b m n with
  | nil => exact .inl (pullFrom_reads framing read mode [] b m n)
  | cons e source ih =>
    rcases hx : b.tryTake framing read with ⟨a | _ | e', b'⟩
    · rw [pullFrom_taken hx, pullFrom_taken hx]
      exact .inl ⟨rfl, rfl, rfl, hfilter _⟩
    · have hlimit' : b'.limit ≤ wordMax := by
        have htried := (Buffer.tried_tryTake framing read b).limit_eq
        rw [hx] at htried
        exact htried ▸ hlimit
      -- The attempt that waits has left a buffer that may stand for the one before it.
      have hagain := pullFrom_again hx hlimit mode (source.filter keep)
      rcases e.cases_of_mode mode with ⟨bs, rfl⟩ | ⟨text, he⟩ | ⟨rfl, rfl⟩
      · -- Bytes are never left out, and both pulls go on with them.
        rw [List.filter_cons_of_pos (hkeep bs), pullFrom_waiting hx, pullFrom_waiting hx]
        exact (ih ((Buffer.extend_limit b' bs).symm ▸ hlimit') (m + 1) (n + 1)).imp_right
          fun h => h.cons _
      · rw [pullFrom_waiting_failure hx he]
        cases hk : keep e with
        | true =>
          rw [List.filter_cons_of_pos hk, pullFrom_waiting_failure hx he]
          exact .inl ⟨rfl, rfl, rfl, hfilter source⟩
        | false =>
          -- The one pull ends here, and the other one has not begun to read.
          rw [List.filter_cons_of_neg (by rw [hk]; exact Bool.false_ne_true)]
          refine .inr ⟨⟨e, List.mem_cons_self, hk, by rw [he]; exact Option.some_ne_none text⟩,
            ⟨text, rfl⟩, Nat.lt_succ_self _, fun reads => ?_⟩
          rw [hagain]
          exact pullFrom_reads framing read mode _ b reads n
      · rw [pullFrom_waiting_interruption hx]
        cases hk : keep .interruption with
        | true =>
          rw [List.filter_cons_of_pos hk, pullFrom_waiting_interruption hx]
          exact (ih hlimit' (m + 1) (n + 1)).imp_right fun h => h.cons _
        | false =>
          rw [List.filter_cons_of_neg (by rw [hk]; exact Bool.false_ne_true),
            pullFrom_again hx hlimit]
          exact (ih hlimit (m + 1) n).imp_right fun h => h.cons _
    · rw [pullFrom_failed hx, pullFrom_failed hx]
      exact .inl ⟨rfl, rfl, rfl, hfilter _⟩

/-! ## Requests -/

/-- The decoder without the reads that `keep` leaves out. -/
def keeping (keep : Delivery → Bool) (d : Decoder) : Decoder :=
  ⟨d.mode, d.source.filter keep, d.buffer, 0⟩

theorem Alike.keeping_eq {d d' : Decoder} (h : d.Alike keep d') :
    d.keeping keep = d'.keeping keep := by
  rw [keeping, keeping, h.mode, h.buffer, h.source]

theorem Same.trans {β : Type} {x y z : Except Error β × Decoder} (h : Same keep x y)
    (h' : Same keep y z) : Same keep x z :=
  ⟨h.1.trans h'.1, h.2.mode.trans h'.2.mode, h.2.buffer.trans h'.2.buffer,
    h.2.source.trans h'.2.source⟩

theorem Same.bind {β : Type} {x y : Except Error α × Decoder} (h : Same keep x y)
    (finish : α → Except Error β) : Same keep (x.1.bind finish, x.2) (y.1.bind finish, y.2) :=
  ⟨by rw [h.1], h.2⟩

/-- A request comes to the same without the reads that `keep` leaves out, unless it is cut short by
    one of them. -/
theorem answer_keeping (hkeep : ∀ bs, keep (.bytes bs) = true) {d : Decoder}
    (hlimit : d.buffer.limit ≤ wordMax) (r : Request) :
    Same keep (d.answer r) ((d.keeping keep).answer r) ∨
      (∃ e ∈ d.source, keep e = false ∧ e.failure? d.mode ≠ none) ∧
        (∃ text, (d.answer r).1 = .error (.source text)) ∧
        (d.answer r).2.source.length < d.source.length ∧
        Same keep (((d.answer r).2.keeping keep).answer r) ((d.keeping keep).answer r) := by
  simp only [answer_eq, pullThen]
  rcases pullFrom_filter hkeep (serving r).framing (serving r).read d.mode d.source hlimit d.reads 0
    with hsame | hcut
  · exact .inl (hsame.bind _)
  · obtain ⟨text, ht⟩ := hcut.failed
    refine .inr ⟨hcut.left, ⟨text, ?_⟩, hcut.shorter, ?_⟩
    · exact congrArg (·.bind (serving r).finish) ht
    · exact (hcut.again 0).bind (serving r).finish

/-- What a request leaves as it is. -/
theorem stays_answer (d : Decoder) (r : Request) : (d.answer r).2.mode = d.mode ∧
    (d.answer r).2.buffer.limit = d.buffer.limit ∧ (d.answer r).2.source <:+ d.source := by
  have h := stays_pullFrom (serving r).framing (serving r).read d.mode d.source d.buffer d.reads
  rw [answer_eq]
  exact ⟨h.mode_eq, h.limit_eq, h.suffix⟩

/-- What a target of the caller's own makes of what was read is no failure of the source. -/
def Candid : Request → Prop
  | .pull _ => True
  | .target _ _ finish => ∀ a text, finish a ≠ .error (.source text)

theorem finish_ne_source {r : Request} (hr : Candid r) (a : (serving r).α) (text : String) :
    (serving r).finish a ≠ .error (.source text) := by
  rcases r with p | _
  · exact fun h => nomatch isReading_of_finish (r := .pull p) trivial h
  · exact hr a text

/-- Only a read that fails makes a request fail with a failure of the source. -/
theorem answer_ne_source {d : Decoder} {r : Request} (hr : Candid r)
    (hsource : ∀ e ∈ d.source, e.failure? d.mode = none) (text : String) :
    (d.answer r).1 ≠ .error (.source text) := by
  have hfailed := (stays_pullFrom (serving r).framing (serving r).read d.mode d.source d.buffer
    d.reads).failed text
  rw [answer_eq]
  intro h
  change (d.pull (serving r).framing (serving r).read).1.bind (serving r).finish = _ at h
  cases hpull : (d.pull (serving r).framing (serving r).read).1 with
  | ok a =>
    rw [hpull] at h
    exact finish_ne_source hr a text h
  | error e =>
    rw [hpull] at h
    obtain rfl := Except.error.inj h
    obtain ⟨e, he, hfails⟩ := hfailed hpull
    rw [hsource e he] at hfails
    nomatch hfails

/-- Asks again as long as the source fails. Each failure takes a read from the source. -/
def persist (d : Decoder) (r : Request) : Except Error r.Result × Decoder :=
  match (d.answer r).1 with
  | .error (.source _) =>
    if (d.answer r).2.source.length < d.source.length then (d.answer r).2.persist r else d.answer r
  | _ => d.answer r
termination_by d.source.length

theorem persist_of_failed {d : Decoder} {r : Request} {text : String}
    (h : (d.answer r).1 = .error (.source text))
    (hshorter : (d.answer r).2.source.length < d.source.length) :
    d.persist r = (d.answer r).2.persist r := by
  rw [persist, h]
  exact if_pos hshorter

theorem persist_of_done {d : Decoder} {r : Request}
    (h : ∀ text, (d.answer r).1 ≠ .error (.source text)) : d.persist r = d.answer r := by
  rw [persist]
  split
  · exact absurd ‹_› (h _)
  · rfl

/-- Who asks again gets what there would be without failures. -/
theorem persist_keeping {r : Request} (hr : Candid r) (d : Decoder)
    (hlimit : d.buffer.limit ≤ wordMax) :
    Same Delivery.isBytes (d.persist r) ((d.keeping Delivery.isBytes).answer r) := by
  have hbytes : ∀ bs, (Delivery.bytes bs).isBytes = true := fun _ => rfl
  rcases answer_keeping hbytes hlimit r with hsame | ⟨-, ⟨text, ht⟩, hshorter, hagain⟩
  · -- Without failures there is none to report, so the first answer is the last.
    have hsteady : ∀ e ∈ (d.keeping Delivery.isBytes).source, e.failure? d.mode = none := by
      intro e he
      have hbytes := (List.mem_filter.1 he).2
      cases e with
      | bytes bs => rfl
      | failure | interruption => nomatch hbytes
    rw [persist_of_done fun text h =>
      answer_ne_source hr hsteady text (hsame.1.symm.trans h)]
    exact hsame
  · rw [persist_of_failed ht hshorter]
    exact (persist_keeping hr _ ((stays_answer d r).2.1 ▸ hlimit)).trans hagain
termination_by d.source.length

/-! ## Runs -/

/-- What a caller sees of a request: its result, and the position behind it. -/
structure Report : Type 1 where
  request : Request
  result : Except Error request.Result
  offset : Nat
  buffered : Nat

/-- What a caller sees of a request that came to this. -/
def report (r : Request) (x : Except Error r.Result × Decoder) : Report :=
  ⟨r, x.1, x.2.offset, x.2.buffered⟩

theorem Same.report_eq {r : Request} {x y : Except Error r.Result × Decoder}
    (h : Same keep x y) : report r x = report r y := by
  rw [report, report, offset, offset, buffered, buffered, h.1, h.2.buffer]

/-- What a caller sees of a list of requests, one after the other, each made by `ask`. -/
def reports (ask : Decoder → (r : Request) → Except Error r.Result × Decoder) (d : Decoder) :
    List Request → List Report
  | [] => []
  | r :: rest => report r (ask d r) :: reports ask (ask d r).2 rest

/-- Reads that are not reported as failures may be left out. -/
theorem reports_keeping (hkeep : ∀ bs, keep (.bytes bs) = true) (requests : List Request)
    {d : Decoder} (hlimit : d.buffer.limit ≤ wordMax)
    (hleft : ∀ e ∈ d.source, keep e = false → e.failure? d.mode = none) :
    d.reports answer requests = (d.keeping keep).reports answer requests := by
  induction requests generalizing d with
  | nil => rfl
  | cons r rest ih =>
    have hsame : Same keep (d.answer r) ((d.keeping keep).answer r) :=
      (answer_keeping hkeep hlimit r).resolve_right fun h =>
        let ⟨e, he, hk, hfails⟩ := h.1
        hfails (hleft e he hk)
    obtain ⟨hmode, hlimit', hsuffix⟩ := stays_answer d r
    obtain ⟨-, hlimit'', hsuffix'⟩ := stays_answer (d.keeping keep) r
    have hkept : ∀ e ∈ ((d.keeping keep).answer r).2.source, keep e = true := fun e he =>
      (List.mem_filter.1 (hsuffix'.subset he)).2
    -- Behind the request both decoders are alike, so both go on as the one without these reads.
    rw [reports, reports, hsame.report_eq,
      ih (hlimit'.symm ▸ hlimit) fun e he hk => hmode.symm ▸ hleft e (hsuffix.subset he) hk,
      ih (d := ((d.keeping keep).answer r).2) (hlimit''.symm ▸ hlimit) fun e he hk =>
        Bool.noConfusion (hk.symm.trans (hkept e he)),
      hsame.2.keeping_eq]

/-- Who asks again sees what there would be to see without failures. -/
theorem reports_persist {requests : List Request} (hrequests : ∀ r ∈ requests, Candid r)
    {d : Decoder} (hlimit : d.buffer.limit ≤ wordMax) :
    d.reports persist requests = (d.keeping Delivery.isBytes).reports answer requests := by
  induction requests generalizing d with
  | nil => rfl
  | cons r rest ih =>
    obtain ⟨hr, hrest⟩ := List.forall_mem_cons.1 hrequests
    have hsame := persist_keeping hr d hlimit
    obtain ⟨-, hlimit', hsuffix⟩ := stays_answer (d.keeping Delivery.isBytes) r
    have hlimit'' : ((d.keeping Delivery.isBytes).answer r).2.buffer.limit ≤ wordMax :=
      hlimit'.symm ▸ hlimit
    have hkept : ∀ e ∈ ((d.keeping Delivery.isBytes).answer r).2.source, e.isBytes = true :=
      fun e he => (List.mem_filter.1 (hsuffix.subset he)).2
    rw [reports, reports, hsame.report_eq, ih hrest (hsame.2.buffer ▸ hlimit''),
      reports_keeping (fun _ => rfl) rest hlimit'' fun e he hk =>
        Bool.noConfusion (hk.symm.trans (hkept e he)),
      hsame.2.keeping_eq]

/-! ## Interruptions as failures -/

end Decoder

/-- An interruption as the failure that an asynchronous decoder reports. -/
def Delivery.told : Delivery → Delivery
  | .interruption => .failure "interrupted"
  | e => e

theorem Delivery.told_bytes (bs : Bytes) : Delivery.told (.bytes bs) = .bytes bs := rfl

namespace Decoder

/-- The decoder with failures in place of interruptions. -/
def told (d : Decoder) : Decoder := { d with source := d.source.map Delivery.told }

theorem pullFrom_told (framing : Framing) (read : Reader α) (source : Source) (b : Buffer)
    (reads : Nat) : pullFrom framing read .async (source.map Delivery.told) b reads
      = ((pullFrom framing read .async source b reads).1,
        (pullFrom framing read .async source b reads).2.told) := by
  induction source generalizing b reads with
  | nil =>
    rw [List.map_nil, pullFrom]
    rcases b.tryTake framing read with ⟨_ | _ | _, b'⟩
    · rfl
    · dsimp only
      rcases (b'.extend []).tryTake framing read with ⟨_ | _ | _, b''⟩ <;> rfl
    · rfl
  | cons e source ih =>
    rw [List.map_cons]
    rcases hx : b.tryTake framing read with ⟨a | _ | _, b'⟩
    · rw [pullFrom_taken hx, pullFrom_taken hx]
      rfl
    · cases e with
      | bytes bs =>
        rw [Delivery.told_bytes, pullFrom_waiting hx, pullFrom_waiting hx, ih]
      | failure text =>
        rw [pullFrom_waiting_failure (e := .failure text) hx rfl]
        exact pullFrom_waiting_failure hx rfl reads
      | interruption =>
        rw [pullFrom_waiting_failure (e := .interruption) hx rfl]
        exact pullFrom_waiting_failure hx rfl reads
    · rw [pullFrom_failed hx, pullFrom_failed hx]
      rfl

theorem reports_told (requests : List Request) {d : Decoder} (hmode : d.mode = .async) :
    d.told.reports answer requests = d.reports answer requests := by
  induction requests generalizing d with
  | nil => rfl
  | cons r rest ih =>
    have hanswer : d.told.answer r = ((d.answer r).1, (d.answer r).2.told) := by
      have hpull := pullFrom_told (serving r).framing (serving r).read d.source d.buffer d.reads
      rw [answer_eq, answer_eq, pullThen, pullThen, pull, pull, hmode,
        show d.told.mode = .async from hmode]
      exact congrArg (fun x => (x.1.bind (serving r).finish, x.2)) hpull
    rw [reports, reports, hanswer, ← ih ((stays_answer d r).1.trans hmode)]
    rfl

/-! ## New decoders -/

end Decoder

/-- The read is not interrupted. -/
def Delivery.completes : Delivery → Bool
  | .interruption => false
  | _ => true

theorem Source.failure?_of_mem_cut {mode : Mode} {s : Source}
    (h : ∀ e ∈ s, e.failure? mode = none) {n : Nat} : ∀ e ∈ s.cut n, e.failure? mode = none := by
  intro e he
  obtain ⟨whole, hwhole, he⟩ := List.mem_flatMap.1 he
  cases whole with
  | bytes bs =>
    obtain ⟨piece, -, rfl⟩ := List.mem_map.1 he
    rfl
  | failure | interruption =>
    obtain rfl := List.mem_singleton.1 he
    exact h _ hwhole

theorem Source.cut_told (s : Source) (n : Nat) :
    Source.cut n (s.map Delivery.told) = (s.cut n).map Delivery.told := by
  induction s with
  | nil => rfl
  | cons e s ih =>
    have hhead : (Delivery.told e).cut n = (e.cut n).map Delivery.told := by
      cases e with
      | bytes bs =>
        rw [Delivery.told_bytes, Delivery.cut, List.map_map]
        rfl
      | failure | interruption => rfl
    rw [Source.cut, Source.cut, List.map_cons, List.flatMap_cons, List.flatMap_cons,
      List.map_append, ← hhead, ← Source.cut, ih, ← Source.cut]

namespace Decoder

/-- **Failures lose nothing.** Two sources give the same reads, one perhaps with failures and
    interruptions between them. Callers who ask again whenever their source has failed see the same
    of both, and if one never fails, all that there is to see of it. Of interruptions alone the
    caller of a blocking decoder sees nothing, and to an asynchronous one they are failures. A limit
    is a word. -/
theorem failures_lose_nothing {requests : List Request} (hrequests : ∀ r ∈ requests, Candid r)
    {config : DecoderConfig} (hlimit : config.limit ≤ wordMax) (s t : Source) :
    (∀ mode, (new mode t config).source.filter Delivery.isBytes
          = (new mode s config).source.filter Delivery.isBytes →
        (new mode t config).reports persist requests
            = (new mode s config).reports persist requests ∧
          ((∀ e ∈ s, e.failure? mode = none) →
            (new mode t config).reports persist requests
              = (new mode s config).reports answer requests)) ∧
      ((new .blocking t config).source.filter Delivery.completes
          = (new .blocking s config).source.filter Delivery.completes →
        (new .blocking t config).reports answer requests
          = (new .blocking s config).reports answer requests) ∧
      (new .async (s.map Delivery.told) config).reports answer requests
        = (new .async s config).reports answer requests := by
  refine ⟨fun mode hsame => ?_, fun hsame => ?_, ?_⟩
  · have hkeeping : (new mode t config).keeping Delivery.isBytes
        = (new mode s config).keeping Delivery.isBytes := by
      rw [keeping, keeping, hsame]
      rfl
    have hpersist : ∀ u : Source, (new mode u config).reports persist requests
        = ((new mode u config).keeping Delivery.isBytes).reports answer requests :=
      fun _ => reports_persist hrequests hlimit
    refine ⟨by rw [hpersist, hpersist, hkeeping], fun hsteady => ?_⟩
    rw [hpersist, hkeeping]
    exact (reports_keeping (fun _ => rfl) requests hlimit fun e he _ =>
      Source.failure?_of_mem_cut hsteady e he).symm
  · -- A blocking decoder does not report an interruption.
    have hleft : ∀ e : Delivery, e.completes = false → e.failure? .blocking = none := by
      intro e he
      cases e with
      | interruption => rfl
      | bytes | failure => nomatch he
    have hcompletes : ∀ u : Source, (new .blocking u config).reports answer requests
        = ((new .blocking u config).keeping Delivery.completes).reports answer requests :=
      fun _ => reports_keeping (fun _ => rfl) requests hlimit fun e _ => hleft e
    rw [hcompletes, hcompletes, keeping, keeping, hsame]
    rfl
  · have htold : new .async (s.map Delivery.told) config = (new .async s config).told := by
      rw [new, Source.cut_told]
      rfl
    rw [htold]
    exact reports_told requests rfl

/-- A list in two reads, of which the second one is cut in two. -/
def steadyScript : Source := [.bytes [0x92, 0xA2], .bytes [0x68, 0x69, 0xC0]]

/-- The same reads, with failures and interruptions before, between and behind them. -/
def brokenScript : Source :=
  [.failure "reset", .bytes [0x92, 0xA2], .interruption, .failure "reset", .bytes [0x68, 0x69],
    .failure "timeout", .bytes [0xC0], .failure "closed"]

/-- The list, which is too large, and then its head, its items, and what is behind them. -/
def itemRequests : List Request :=
  [.pull (.next .dynamic), .pull .listLength,
    .target (readValue 4) (frontToBack_readValue 4) fun v => .ok v.kind, .pull .skip, .pull .header]

theorem failures_lose_nothing_broken :
    (∀ r ∈ itemRequests, Candid r) ∧
      (new .async brokenScript ⟨2, 4⟩).reports persist itemRequests
        = (new .async steadyScript ⟨2, 4⟩).reports answer itemRequests ∧
      (new .blocking (.interruption :: steadyScript) ⟨2, 4⟩).reports answer itemRequests
        = (new .blocking steadyScript ⟨2, 4⟩).reports answer itemRequests := by
  have hrequests : ∀ r ∈ itemRequests, Candid r := by
    simp only [itemRequests, List.forall_mem_cons]
    refine ⟨trivial, trivial, ?_, trivial, trivial, List.forall_mem_nil _⟩
    intro a text h
    cases h
  have hlimit : (⟨2, 4⟩ : DecoderConfig).limit ≤ wordMax := by decide
  refine ⟨hrequests, ?_, ?_⟩
  · exact ((failures_lose_nothing hrequests hlimit steadyScript brokenScript).1 .async
      (by decide +kernel)).2 (by decide)
  · exact (failures_lose_nothing hrequests hlimit steadyScript (.interruption :: steadyScript)).2.1
      (by decide +kernel)

end Decoder

end FrameRpc
