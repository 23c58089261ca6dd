import FrameRpc.Proofs.Failures
import FrameRpc.Proofs.Tokens

/-!
# Values are delivered promptly

On a line that both sides keep open a read too many waits forever. A decoder does not make one: a
pull returns with the read that brings the last byte of what it needs, and what the source does
behind that has no influence on it (`Decoder.delivers_promptly`). What it needs is a value within
the limit, or the front of one up to a reserved marker, or the head of a list (`Completes`). The
same goes for a target of the caller's own whose reader is content with that (`Decoder.Contents`).

Before that byte has arrived the pull waits, since what the scan has found out is true of whatever
the bytes begin (`Buffer.Steady`), in every state that a decoder comes to (`Decoder.Reached.steady`).
Once it has arrived the pull does not wait, since a reader does not run out of bytes there.
-/

namespace FrameRpc

open MessagePack

/-! ## Buffers that a decoder comes to -/

namespace Buffer

variable {α : Type} {framing : Framing} {read : Reader α} {b b' : Buffer}

/-- Attempts and reads keep the property. -/
structure Kept (P : Buffer → Prop) : Prop where
  tried : ∀ {α : Type} {framing : Framing} {read : Reader α} {b : Buffer} {x : Attempt α × Buffer},
    Tried framing read b x → P b → P x.2
  extend : ∀ {b : Buffer} (bs : Bytes), P b → P (b.extend bs)

/-- What the scan has found out is within the limit, and true of whatever front the bytes begin. -/
structure Steady (b : Buffer) : Prop where
  reach_le : b.scan.reach ≤ b.limit
  within : ∀ {more front tail : Bytes}, b.bytes ++ more = front ++ tail → Conclusive front →
    front.length ≤ wordMax → b.scan.Within front

theorem steady_of_start (h : b.scan = .start) : b.Steady where
  reach_le := by
    rw [h]
    exact Nat.zero_le _
  within _ hfront _ := by
    rw [h]
    exact Scan.within_start hfront

theorem kept_steady : Kept Steady where
  tried hx h := by
    cases hx with
    | exhausted | idle => exact h
    -- Only an attempt that falls short keeps its scan, and that has come no further than the front.
    | short _ _ _ hreach _ =>
      refine ⟨(looked_limit _ _).symm ▸ hreach, fun hsplit hfront hword => ?_⟩
      rw [looked_bytes] at hsplit
      have hwithin := h.within hsplit hfront hword
      rw [looked]
      split
      · exact (Scan.advance_within hwithin hword hsplit).1
      · exact hwithin
    | large | taken | malformed => exact steady_of_start rfl
  extend bs h := by
    refine ⟨?_, fun hsplit hfront hword => ?_⟩
    · rw [extend_scan, extend_limit]
      exact h.reach_le
    · rw [extend_bytes, List.append_assoc] at hsplit
      rw [extend_scan]
      exact h.within hsplit hfront hword

end Buffer

namespace Decoder

variable {α : Type} {framing : Framing} {read : Reader α} {config : DecoderConfig}
  {P : Buffer → Prop}

theorem Through.kept (hP : Buffer.Kept P) {source source' : Source} {b b' : Buffer}
    (h : Through framing read source b source' b') (hb : P b) : P b' := by
  have hwait {b b₁ : Buffer} (hx : b.tryTake framing read = (.waiting, b₁)) (hb : P b) : P b₁ :=
    hP.tried (hx ▸ Buffer.tried_tryTake framing read b) hb
  induction h with
  | here => exact hb
  | read hx _ ih => exact ih (hP.extend _ (hwait hx hb))
  | interrupted hx _ ih => exact ih (hwait hx hb)
  | ended hx _ ih => exact ih (hP.extend _ (hwait hx hb))

theorem Ends.kept (hP : Buffer.Kept P) {source : Source} {b : Buffer} {x : Except Error α × Decoder}
    (h : Ends framing read source b x) (hb : P b) : P x.2.buffer := by
  cases h with
  | taken hx _ | failed hx _ | cut hx _ _ =>
    exact hP.tried (hx ▸ Buffer.tried_tryTake framing read b) hb

/-- What attempts and reads keep holds of every buffer that a decoder comes to, if it holds of the
    first one. -/
theorem Reached.kept (hP : Buffer.Kept P) (hnew : P (.new config.limit)) {d : Decoder}
    (h : Reached config d) : P d.buffer := by
  obtain ⟨mode, source, requests, -, rfl⟩ := h
  suffices hall : ∀ d : Decoder, P d.buffer → P (d.afterAll requests).buffer from hall _ hnew
  induction requests with
  | nil => exact fun _ h => h
  | cons r rest ih =>
    intro d hd
    obtain ⟨source, b, hthrough, hends⟩ :=
      exists_ends (serving r).framing (serving r).read d.mode d.source d.buffer d.reads
    refine ih _ ?_
    rw [answer_eq]
    exact hends.kept hP (hthrough.kept hP hd)

theorem Reached.steady {d : Decoder} (h : Reached config d) : d.buffer.Steady :=
  h.kept Buffer.kept_steady (Buffer.steady_of_start rfl)

end Decoder

/-! ## What a pull needs -/

namespace MessagePack

/-- The front that completes what a pull needs: a value within the limit, or a part of one and a
    reserved marker within it; for the length of a list its head, or a marker of something else. -/
inductive Completes (limit : Nat) : Framing → Bytes → Prop
  | value {w : Bytes} (h : Values 1 w) (hlimit : w.length ≤ limit) : Completes limit .value w
  | reserved {u : Bytes} {n : Nat} (h : Partway (n + 1) 1 u) (hlimit : u.length < limit) :
    Completes limit .value (u ++ [0xC1])
  | listHead {head : Bytes} (h : Portion .listHead head) (hlimit : 5 ≤ limit) :
    Completes limit .listHead head
  | noList {b : UInt8} (hshort : ∀ n, Marker.ofByte b ≠ .fixList n)
    (hlong : ∀ w, Marker.ofByte b ≠ .list w) (hlimit : 5 ≤ limit) : Completes limit .listHead [b]

theorem length_le_of_portion {head : Bytes} (h : Portion .listHead head) : head.length ≤ 5 := by
  cases h with
  | shortHead _ => exact Nat.le_add_left 1 4
  | @longHead b w field hb hlength =>
    -- There is no list with a count field of eight octets.
    have hall : ∀ b, Marker.ofByte b ≠ .list .eight := forall_byte (by decide +kernel)
    rw [List.length_cons, hlength]
    cases w with
    | eight => exact absurd hb (hall b)
    | one | two | four => decide

theorem Completes.length_le {limit : Nat} {framing : Framing} {front : Bytes}
    (h : Completes limit framing front) : front.length ≤ limit := by
  cases h with
  | value _ hlimit => exact hlimit
  | reserved _ hlimit => rwa [List.length_append]
  | listHead h hlimit => exact Nat.le_trans (length_le_of_portion h) hlimit
  | noList _ _ hlimit => exact Nat.le_trans (Nat.le_add_left 1 4) hlimit

/-- The reader needs the front, and it needs nothing behind it. -/
structure Needs {α : Type} (framing : Framing) (read : Reader α) (front : Bytes) : Prop where
  ne_nil : front ≠ []
  conclusive : framing = .value → Conclusive front
  /-- Where no scan is made the reader notices that a part is missing. -/
  short : framing ≠ .value → ∀ part more tail, part ≠ [] → part ++ more = front ++ tail →
    part.length < front.length → ∃ e, read part = .error e ∧ e.isTruncation = true
  enough : ∀ e, read front = .error e → e.isTruncation = false

theorem needs_of_content {α : Type} {read : Reader α} (hread : Content read) {limit : Nat}
    {front : Bytes} (h : Completes limit .value front) : Needs .value read front := by
  cases h with
  | value h _ =>
    refine ⟨h.ne_nil, fun _ => .value h, nofun, fun e he => ?_⟩
    exact hread.suffices front [] e h (by rw [List.append_nil, he])
  | @reserved u n h _ =>
    refine ⟨List.append_ne_nil_of_right_ne_nil u (List.cons_ne_nil _ _), fun _ => .reserved h rfl,
      nofun, fun e he => ?_⟩
    exact hread.refuses h rfl [] he

theorem takeField_of_lt {w : Width} {bs : Bytes} (h : bs.length < w.octets) :
    takeField w bs = .error .noData := by
  have hshort : (bs.take w.octets).length ≠ w.octets := by
    rw [List.length_take]
    omega
  rw [takeField, takeBytes, if_neg hshort]
  rfl

theorem readListLength_cons (b : UInt8) (rest : Bytes) :
    readListLength (b :: rest) = match Marker.ofByte b with
      | .fixList n => .ok (n, rest)
      | .list w => takeField w rest
      | m => .error (.wrongMarker m) := rfl

theorem needs_readListLength {limit : Nat} {front : Bytes} (h : Completes limit .listHead front) :
    Needs .listHead readListLength front := by
  -- A part of a single byte is nothing.
  have hsingle {b : UInt8} {part : Bytes} (hpart : part ≠ []) (hlt : part.length < [b].length) :
      False := hpart (List.eq_nil_of_length_eq_zero (Nat.lt_one_iff.1 hlt))
  cases h with
  | listHead h _ =>
    cases h with
    | shortHead hb =>
      refine ⟨List.cons_ne_nil _ _, nofun, fun _ part _ _ hpart _ hlt => ?_, fun e he => ?_⟩
      · exact (hsingle hpart hlt).elim
      · rw [readListLength_cons, hb] at he
        nomatch he
    | @longHead b w field hb hlength =>
      refine ⟨List.cons_ne_nil _ _, nofun, fun _ part more tail hpart heq hlt => ?_, fun e he => ?_⟩
      · obtain ⟨b', part, rfl⟩ := List.exists_cons_of_ne_nil hpart
        obtain ⟨rfl, -⟩ := List.cons.inj heq
        refine ⟨.noData, ?_, rfl⟩
        rw [readListLength_cons, hb]
        exact takeField_of_lt (hlength ▸ Nat.lt_of_succ_lt_succ hlt)
      · rw [readListLength_cons, hb] at he
        dsimp only at he
        have hfield := reads_takeField_ofBigEndian hlength []
        rw [List.append_nil] at hfield
        rw [hfield] at he
        nomatch he
  | @noList b hshort hlong _ =>
    refine ⟨List.cons_ne_nil _ _, nofun, fun _ part _ _ hpart _ hlt => ?_, fun e he => ?_⟩
    · exact (hsingle hpart hlt).elim
    · rw [readListLength_cons] at he
      split at he
      · exact absurd ‹_› (hshort _)
      · exact absurd ‹_› (hlong _)
      · exact Except.error.inj he ▸ rfl

end MessagePack

namespace Decoder

/-- A target of the caller's own is content with values: of those at the front its reader takes one
    or refuses it. -/
def Contents : Request → Prop
  | .pull _ => True
  | .target read _ _ => Content read

theorem needs_serving {r : Request} (hr : Contents r) {limit : Nat} {front : Bytes}
    (h : Completes limit (serving r).framing front) :
    Needs (serving r).framing (serving r).read front := by
  rcases r with p | _
  · cases p with
    | listLength => exact needs_readListLength h
    | next | header | compact | compactAs | skip => exact needs_of_content (content_serving rfl) h
  · exact needs_of_content hr h

end Decoder

/-! ## Attempts -/

namespace Buffer

variable {α : Type} {framing : Framing} {read : Reader α} {b : Buffer}
  {x : Attempt α × Buffer} {front more tail : Bytes}

/-- A front that has arrived is not found lacking. -/
theorem Steady.not_lacks (h : b.Steady) (hread : FrontToBack read)
    (hneeds : Needs framing read front) (hword : front.length ≤ wordMax)
    (hsplit : b.bytes ++ more = front ++ tail) (hle : front.length ≤ b.bytes.length) :
    ¬ b.Lacks framing read := by
  rintro (hseen | ⟨why, hr, ht⟩)
  -- The scan does not find it incomplete, and the reader does not ask for more.
  · refine hseen fun hvalue _ hverdict => ?_
    have hwithin := h.within hsplit (hneeds.conclusive hvalue) hword
    exact Nat.not_lt_of_le hle ((Scan.advance_within hwithin hword hsplit).2.1 hverdict)
  · obtain ⟨others, hbytes⟩ := List.prefix_of_prefix_length_le ⟨tail, hsplit.symm⟩ ⟨more, rfl⟩ hle
    rw [← hbytes, hread.read_append hneeds.enough] at hr
    cases hr' : read front with
    | ok p =>
      rw [hr'] at hr
      cases hr
    | error e =>
      -- The reader refuses the front for the same reason, and that is another one.
      rw [hr'] at hr
      obtain rfl := Except.error.inj hr
      exact Bool.noConfusion ((hneeds.enough e hr').symm.trans ht)

/-- As long as a part of the front is missing, it is found lacking. -/
theorem Steady.lacks (h : b.Steady) (hneeds : Needs framing read front)
    (hword : front.length ≤ wordMax) (hsplit : b.bytes ++ more = front ++ tail)
    (hbytes : b.bytes ≠ []) (hended : b.ended = false) (hlt : b.bytes.length < front.length) :
    b.Lacks framing read := by
  by_cases hvalue : framing = .value
  · have hwithin := h.within hsplit (hneeds.conclusive hvalue) hword
    exact .inl fun hseen =>
      hseen hvalue hended ((Scan.advance_within hwithin hword hsplit).2.2 hlt)
  · exact .inr (hneeds.short hvalue _ _ _ hbytes hsplit hlt)

/-- As long as a part of the front is missing the attempt waits. -/
theorem Tried.waits (hx : Tried framing read b x) (h : b.Steady)
    (hneeds : Needs framing read front) (hlimit : front.length ≤ b.limit)
    (hword : front.length ≤ wordMax) (hsplit : b.bytes ++ more = front ++ tail)
    (hended : b.ended = false) (hlt : b.bytes.length < front.length) : x.1 = .waiting := by
  have hlacks (hbytes : b.bytes ≠ []) := h.lacks hneeds hword hsplit hbytes hended hlt
  cases hx with
  | exhausted _ hended' => exact Bool.noConfusion (hended.symm.trans hended')
  | idle | short => rfl
  | large _ _ _ hlarge =>
    -- The scan has not left the front, and the limit has room for that.
    have hreach : (b.looked framing).scan.reach ≤ b.limit := by
      rw [looked]
      split
      · rename_i hlook
        have hwithin := h.within hsplit (hneeds.conclusive hlook.1) hword
        exact Nat.le_trans (Scan.advance_within hwithin hword hsplit).1.reach_le hlimit
      · exact h.reach_le
    omega
  | taken hbytes hseen hr =>
    rcases hlacks hbytes with hunseen | ⟨why, hr', -⟩
    · exact absurd hseen hunseen
    · rw [hr] at hr'
      cases hr'
  | malformed hbytes hseen hr hdone =>
    rcases hlacks hbytes with hunseen | ⟨why, hr', ht⟩
    · exact absurd hseen hunseen
    · rw [hr] at hr'
      obtain rfl := Except.error.inj hr'
      exact Bool.noConfusion (hended.symm.trans (hdone ht))

/-- Once the front has arrived it is taken or refused, and what is behind it has no say. -/
theorem Tried.settled (hx : Tried framing read b x) (h : b.Steady) (hread : FrontToBack read)
    (hneeds : Needs framing read front) (hword : front.length ≤ wordMax)
    (hsplit : b.bytes ++ more = front ++ tail) (hle : front.length ≤ b.bytes.length) :
    (∃ a rest, read front = .ok (a, rest) ∧ x.1 = .taken a) ∨
      ∃ why, read front = .error why ∧ x.1 = .failed (.malformed b.offset why) := by
  have hlacks := h.not_lacks hread hneeds hword hsplit hle
  obtain ⟨others, hbytes⟩ := List.prefix_of_prefix_length_le ⟨tail, hsplit.symm⟩ ⟨more, rfl⟩ hle
  have hlong := hread.read_append hneeds.enough others
  rw [hbytes] at hlong
  have hne : b.bytes ≠ [] := hbytes ▸ List.append_ne_nil_of_left_ne_nil hneeds.ne_nil others
  cases hx with
  | exhausted hnil | idle hnil => exact absurd hnil hne
  | short _ _ hlacks' | large _ _ hlacks' => exact absurd hlacks' hlacks
  | taken _ _ hr =>
    cases hr' : read front with
    | ok p =>
      rw [hr, hr'] at hlong
      obtain ⟨rfl, -⟩ := Prod.mk.inj (Except.ok.inj hlong)
      exact .inl ⟨_, _, rfl, rfl⟩
    | error e =>
      rw [hr, hr'] at hlong
      cases hlong
  | malformed _ _ hr _ =>
    cases hr' : read front with
    | ok p =>
      rw [hr, hr'] at hlong
      cases hlong
    | error e =>
      rw [hr, hr'] at hlong
      obtain rfl := Except.error.inj hlong
      exact .inr ⟨_, rfl, rfl⟩

end Buffer

/-! ## Pulls -/

/-- The read brings bytes, or a decoder that waits in this way makes it again. -/
def Delivery.Brings (mode : Mode) (e : Delivery) : Prop :=
  (∃ bs : Bytes, bs ≠ [] ∧ e = .bytes bs) ∨ e = .interruption ∧ mode = .blocking

namespace Decoder

variable {α : Type} {framing : Framing} {read : Reader α} {config : DecoderConfig}

/-- What a pull at this offset makes of what was read. -/
def made (offset : Nat) : Except ReadError (α × Bytes) → Except Error α
  | .ok (a, _) => .ok a
  | .error why => .error (.malformed offset why)

/-- The bytes that are there after `k` of the reads. -/
def seen (bytes : Bytes) (coming : Source) (k : Nat) : Bytes :=
  bytes ++ Source.unread (coming.take k)

/-- After `k` of the reads, and not before, `size` bytes are there. -/
structure ArrivesAt (size : Nat) (bytes : Bytes) (coming : Source) (k : Nat) : Prop where
  le_length : k ≤ coming.length
  arrived : size ≤ (seen bytes coming k).length
  first : ∀ j < k, (seen bytes coming j).length < size

theorem seen_zero (bytes : Bytes) (coming : Source) : seen bytes coming 0 = bytes :=
  List.append_nil bytes

theorem seen_succ (bytes : Bytes) (e : Delivery) (coming : Source) (k : Nat) :
    seen bytes (e :: coming) (k + 1) = seen (bytes ++ Source.held e) coming k :=
  (List.append_assoc _ _ _).symm

theorem ArrivesAt.succ {size k : Nat} {bytes : Bytes} {e : Delivery} {coming : Source}
    (h : ArrivesAt size (bytes ++ Source.held e) coming k) (hlt : bytes.length < size) :
    ArrivesAt size bytes (e :: coming) (k + 1) where
  le_length := Nat.succ_le_succ h.le_length
  arrived := by
    rw [seen_succ]
    exact h.arrived
  first j hj := by
    cases j with
    | zero => rwa [seen_zero]
    | succ j =>
      rw [seen_succ]
      exact h.first j (Nat.lt_of_succ_lt_succ hj)

/-- What the pull comes to once `size` bytes are there, and no read after that. -/
def Concludes (framing : Framing) (read : Reader α) (mode : Mode) (coming : Source) (b : Buffer)
    (size : Nat) (result : Except Error α) : Prop :=
  ∃ k b', ArrivesAt size b.bytes coming k ∧ ∀ rest reads,
    pullFrom framing read mode (coming ++ rest) b reads
      = (result, ⟨mode, coming.drop k ++ rest, b', reads + k⟩)

section

variable {mode : Mode} {coming : Source} {b b₁ : Buffer} {front tail : Bytes}

/-- Once the front is there the first attempt settles the pull. -/
theorem concludes_of_le (hread : FrontToBack read) (hneeds : Needs framing read front)
    (hword : front.length ≤ wordMax) (h : b.Steady)
    (hfront : b.bytes ++ Source.unread coming = front ++ tail)
    (hle : front.length ≤ b.bytes.length) :
    Concludes framing read mode coming b front.length (made b.offset (read front)) := by
  refine ⟨0, (b.tryTake framing read).2, ⟨Nat.zero_le _, ?_, nofun⟩, fun rest reads => ?_⟩
  · rwa [seen_zero]
  · rcases (Buffer.tried_tryTake framing read b).settled h hread hneeds hword hfront hle with
      ⟨a, r, hr, hx⟩ | ⟨why, hr, hx⟩
    · rw [pullFrom_taken (Prod.ext hx rfl), hr]
      rfl
    · rw [pullFrom_failed (Prod.ext hx rfl), hr]
      rfl

/-- What a pull comes to after a read that it waits for, it comes to. -/
theorem Concludes.brought {size : Nat} {result : Except Error α} {bs : Bytes}
    (hx : b.tryTake framing read = (.waiting, b₁)) (hlt : b.bytes.length < size)
    (h : Concludes framing read mode coming (b₁.extend bs) size result) :
    Concludes framing read mode (.bytes bs :: coming) b size result := by
  have hbytes := (hx ▸ Buffer.tried_tryTake framing read b).bytes_of_waiting
  obtain ⟨k, b', harrives, hpull⟩ := h
  rw [Buffer.extend_bytes, hbytes] at harrives
  refine ⟨k + 1, b', harrives.succ hlt, fun rest reads => ?_⟩
  rw [List.cons_append, pullFrom_waiting hx, hpull, Nat.add_right_comm]
  rfl

theorem Concludes.interrupted {size : Nat} {result : Except Error α}
    (hx : b.tryTake framing read = (.waiting, b₁)) (hlt : b.bytes.length < size)
    (h : Concludes framing read .blocking coming b₁ size result) :
    Concludes framing read .blocking (.interruption :: coming) b size result := by
  have hbytes := (hx ▸ Buffer.tried_tryTake framing read b).bytes_of_waiting
  obtain ⟨k, b', harrives, hpull⟩ := h
  rw [hbytes, ← List.append_nil b.bytes] at harrives
  refine ⟨k + 1, b', harrives.succ hlt, fun rest reads => ?_⟩
  rw [List.cons_append, pullFrom_waiting_interruption hx, hpull, Nat.add_right_comm]
  rfl

theorem concludes_of_front (hread : FrontToBack read) (hneeds : Needs framing read front)
    (hword : front.length ≤ wordMax) (h : b.Steady)
    (hlimit : b.ended = false → front.length ≤ b.limit)
    (hcoming : ∀ e ∈ coming, e.Brings mode) (hended : b.ended = true → coming = [])
    (hfront : b.bytes ++ Source.unread coming = front ++ tail) :
    Concludes framing read mode coming b front.length (made b.offset (read front)) := by
  -- The induction is on the reads to come. Each of them is made only as long as a part of the front
  -- is missing.
  induction coming generalizing b with
  | nil =>
    refine concludes_of_le hread hneeds hword h hfront ?_
    have hlength := congrArg List.length hfront
    rw [Source.unread, List.flatMap_nil, List.append_nil, List.length_append] at hlength
    omega
  | cons e coming ih =>
    by_cases hle : front.length ≤ b.bytes.length
    · exact concludes_of_le hread hneeds hword h hfront hle
    · have hopen : b.ended = false := Bool.eq_false_iff.2 fun h => List.cons_ne_nil _ _ (hended h)
      have htried := Buffer.tried_tryTake framing read b
      have hwaits := htried.waits h hneeds (hlimit hopen) hword hfront hopen (Nat.lt_of_not_le hle)
      obtain ⟨b₁, hx⟩ : ∃ b₁, b.tryTake framing read = (.waiting, b₁) :=
        ⟨_, Prod.ext hwaits rfl⟩
      have hsteady := Buffer.kept_steady.tried htried h
      rw [hx] at htried hsteady
      obtain ⟨he, hlater⟩ := List.forall_mem_cons.1 hcoming
      rw [← htried.offset_of_waiting]
      rcases he with ⟨bs, hbs, rfl⟩ | ⟨rfl, rfl⟩
      · have hopen₁ : (b₁.extend bs).ended = false := by
          rw [Buffer.extend_of_ne_nil b₁ hbs]
          exact htried.ended_eq.trans hopen
        refine .brought hx (Nat.lt_of_not_le hle) ?_
        rw [← Buffer.extend_offset b₁ bs]
        refine ih (Buffer.kept_steady.extend bs hsteady) ?_ hlater ?_ ?_
        · rw [Buffer.extend_limit, htried.limit_eq]
          exact fun _ => hlimit hopen
        · exact fun h => Bool.noConfusion (hopen₁.symm.trans h)
        · rw [Buffer.extend_bytes, htried.bytes_of_waiting, List.append_assoc]
          exact hfront
      · refine .interrupted hx (Nat.lt_of_not_le hle) ?_
        refine ih hsteady ?_ hlater ?_ ?_
        · rw [htried.limit_eq]
          exact fun _ => hlimit hopen
        · exact fun h => Bool.noConfusion ((htried.ended_eq.trans hopen).symm.trans h)
        · rw [htried.bytes_of_waiting]
          exact hfront

end

/-- **Promptness.** In any state that a decoder comes to, if what is buffered and the reads to come
    have the front that a request needs, the pull makes of that front what its reader does, and does
    not run out of bytes. It makes the reads up to the one that brings the last byte of the front,
    and no other: none if the front is buffered, and nothing behind has any influence. A limit is a
    word, and behind the end of input no reads are to come. -/
theorem delivers_promptly {d : Decoder} (hd : Reached config d) (hlimit : config.limit ≤ wordMax)
    {r : Request} (hr : Contents r) {coming : Source} (hcoming : ∀ e ∈ coming, e.Brings d.mode)
    (hended : d.buffer.ended = true → coming = []) {front tail : Bytes}
    (hfront : d.buffer.bytes ++ Source.unread coming = front ++ tail)
    (hcompletes : Completes config.limit (serving r).framing front) :
    (∃ k b, ArrivesAt front.length d.buffer.bytes coming k ∧
        (front.length ≤ d.buffered → k = 0) ∧
        ∀ rest, ({ d with source := coming ++ rest } : Decoder).answer r
          = ((made d.offset ((serving r).read front)).bind (serving r).finish,
            ⟨d.mode, coming.drop k ++ rest, b, d.reads + k⟩)) ∧
      ∀ why, (serving r).read front = .error why → why.isTruncation = false := by
  have hneeds := needs_serving hr hcompletes
  have hword : front.length ≤ wordMax := Nat.le_trans hcompletes.length_le hlimit
  have hle : front.length ≤ d.buffer.limit := hd.bounded.limit ▸ hcompletes.length_le
  obtain ⟨k, b, harrives, hpull⟩ := concludes_of_front (frontToBack_serving r) hneeds hword
    hd.steady (fun _ => hle) hcoming hended hfront
  refine ⟨⟨k, b, harrives, fun hbuffered => ?_, fun rest => ?_⟩, hneeds.enough⟩
  · -- Before the first read the front would not have been there.
    refine Nat.eq_zero_of_not_pos fun hpos => ?_
    have hfirst := harrives.first 0 hpos
    rw [seen_zero] at hfirst
    exact Nat.not_lt_of_le hbuffered hfirst
  · have hanswer := answer_eq ({ d with source := coming ++ rest } : Decoder) r
    rw [pullThen, pull] at hanswer
    dsimp only at hanswer
    rw [hpull rest d.reads] at hanswer
    exact hanswer

/-- A decoder whose source has failed in the middle of a list. -/
def cutInList : Decoder :=
  (Decoder.new .async [.bytes [0xC0, 0x92], .failure "reset"] ⟨8, 4⟩).afterAll
    [.pull .skip, .pull (.next .octets)]

/-- The rest of the list, and the beginning of another one. -/
def restOfList : Source := [.bytes [0x01], .bytes [0xCC, 0x80, 0x93], .bytes [0xC0]]

theorem reached_cutInList : Reached ⟨8, 4⟩ cutInList := by
  refine ⟨_, _, _, ?_, rfl⟩
  simp only [List.forall_mem_cons]
  exact ⟨trivial, trivial, List.forall_mem_nil _⟩

/-- The number of octets, as a target of the caller's own. -/
def octetCount : Request :=
  .target Shape.octets.read (frontToBack_readShape .octets) fun octets => .ok octets.length

/-- The list comes with the second of three reads, and so does the number of its items; a reserved
    marker in the middle of a list that is passed over comes with the first of one. -/
theorem delivers_promptly_cutInList :
    (∃ k b, ArrivesAt 4 cutInList.buffer.bytes restOfList k ∧
        (4 ≤ cutInList.buffered → k = 0) ∧
        ∀ rest, ({ cutInList with source := restOfList ++ rest } : Decoder).next .octets
          = (.ok [0x01, 0x80],
            ⟨cutInList.mode, restOfList.drop k ++ rest, b, cutInList.reads + k⟩)) ∧
      (∃ k b, ArrivesAt 4 cutInList.buffer.bytes restOfList k ∧
        (4 ≤ cutInList.buffered → k = 0) ∧
        ∀ rest, ({ cutInList with source := restOfList ++ rest } : Decoder).answer octetCount
          = (.ok (2 : Nat),
            ⟨cutInList.mode, restOfList.drop k ++ rest, b, cutInList.reads + k⟩)) ∧
      ∀ why, skipValue maxDepth ([0x92, 0x01] ++ [0xC1]) = .error why →
        why.isTruncation = false := by
  have hopen : cutInList.buffer.ended = false := by decide +kernel
  have hended (coming : Source) (h : cutInList.buffer.ended = true) : coming = [] :=
    Bool.noConfusion (hopen.symm.trans h)
  have hread : Shape.octets.read [0x92, 0x01, 0xCC, 0x80] = .ok ([0x01, 0x80], []) := by
    with_unfolding_all rfl
  have hlist : cutInList.buffer.bytes ++ Source.unread restOfList
      = [0x92, 0x01, 0xCC, 0x80] ++ [0x93, 0xC0] := by decide +kernel
  have hvalue : Values 1 [0x92, 0x01, 0xCC, 0x80] :=
    .cons rfl rfl (by decide) (.cons rfl rfl (by decide) (.cons rfl rfl (by decide) .nil))
  have hbrings : ∀ e ∈ restOfList, e.Brings cutInList.mode := by simp [restOfList, Delivery.Brings]
  have hlisted {r : Request} (hr : Contents r)
      (hcompletes : Completes 4 (serving r).framing [0x92, 0x01, 0xCC, 0x80]) :=
    delivers_promptly reached_cutInList (by decide) hr hbrings (hended _) hlist hcompletes
  refine ⟨?_, ?_, ?_⟩
  · obtain ⟨⟨k, b, harrives, hbuffered, hanswer⟩, -⟩ :=
      hlisted (r := .pull (.next .octets)) trivial (.value hvalue (by decide))
    refine ⟨k, b, harrives, hbuffered, fun rest => (hanswer rest).trans ?_⟩
    rw [show (serving (.pull (.next .octets))).read = Shape.octets.read from rfl, hread]
    rfl
  · obtain ⟨⟨k, b, harrives, hbuffered, hanswer⟩, -⟩ :=
      hlisted (r := octetCount) (content_readShape .octets) (.value hvalue (by decide))
    refine ⟨k, b, harrives, hbuffered, fun rest => (hanswer rest).trans ?_⟩
    rw [show (serving octetCount).read = Shape.octets.read from rfl, hread]
    rfl
  · have hfront : cutInList.buffer.bytes ++ Source.unread [.bytes [0x01, 0xC1]]
        = [0x92, 0x01] ++ [0xC1] ++ [] := by decide +kernel
    have hpartway : Partway 1 1 [0x92, 0x01] :=
      .marker rfl rfl (by decide) (.marker rfl rfl (by decide) .here)
    exact (delivers_promptly (r := .pull .skip) reached_cutInList (by decide) trivial
      (by simp [Delivery.Brings]) (hended _) hfront (.reserved hpartway (by decide))).2

end Decoder

end FrameRpc
