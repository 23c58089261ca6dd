import FrameRpc.Proofs.Conservation
import FrameRpc.Proofs.Converting
import FrameRpc.Proofs.Truncation

/-!
# Two ways to a typed value

A caller gets a value as a shape by pulling it as the shape, or by pulling whatever it is and taking
this as the shape. In front of a dynamic value both ways come to the same
(`Decoder.next_iff_nextCompactAs`), whatever the limit of the decoder and whatever its source does.

Reading and converting come to the same (`concurs_readShape`), but a decoder also waits, and while
it does, asks its reader whenever the scan does not say that bytes are missing. Two readers of the
same bytes go in parallel all the same (`Decoder.pullFrom_parallel`): neither reads anything before
all bytes are there.
-/

namespace FrameRpc

open MessagePack

/-! ## Two readers of the same bytes -/

/-- What two readers of the same bytes make of a buffer: both take them and leave the same, or both
    wait, or both fail. -/
inductive Buffer.Parallel {α β : Type} (a : α) (b : β) :
    Attempt α × Buffer → Attempt β × Buffer → Prop
  | taken (buffer : Buffer) : Parallel a b (.taken a, buffer) (.taken b, buffer)
  | waiting (buffer : Buffer) : Parallel a b (.waiting, buffer) (.waiting, buffer)
  | failed (e e' : Error) (buffer buffer' : Buffer) :
    Parallel a b (.failed e, buffer) (.failed e', buffer')

section

variable {α β : Type} {read : Reader α} {read' : Reader β} {a : α} {a' : β} {w tail coming : Bytes}

namespace Buffer

variable {b : Buffer}

/-- If the one waits, so does the other. -/
theorem Parallel.eq_of_waiting {x : Attempt β × Buffer} (h : Parallel a a' (.waiting, b) x) :
    x = (.waiting, b) := by
  cases h
  rfl

theorem parallel_needMore (a : α) (a' : β) (b : Buffer) : Parallel a a' b.needMore b.needMore := by
  rw [needMore, needMore]
  split
  · exact .failed _ _ _ _
  · exact .waiting b

theorem parallel_take (hread : FrontToBack read) (hread' : FrontToBack read') (h : Reads read w a)
    (h' : Reads read' w a') (hb : b.bytes ++ coming = w ++ tail) :
    Parallel a a' (b.take read) (b.take read') := by
  by_cases hall : ∃ rest, b.bytes = w ++ rest
  · -- All bytes are there, so both take them.
    obtain ⟨rest, hrest⟩ := hall
    rw [take, take, hrest, h rest, h' rest]
    exact .taken _
  · -- Bytes are missing, and both miss them.
    obtain ⟨more, hw, -⟩ | ⟨rest, hrest, -⟩ := List.append_eq_append_iff.1 hb
    · have hmore : more ≠ [] := by
        rintro rfl
        exact hall ⟨[], by rw [hw, List.append_nil, List.append_nil]⟩
      obtain ⟨why, hr, ht⟩ := exists_truncation hread (hw ▸ h) hmore
      obtain ⟨why', hr', ht'⟩ := exists_truncation hread' (hw ▸ h') hmore
      rw [take, take, hr, hr']
      dsimp only
      rw [ht, ht']
      split
      · exact parallel_needMore a a' b
      · exact .failed _ _ _ _
    · exact absurd ⟨rest, hrest⟩ hall

theorem parallel_tryTake (hread : FrontToBack read) (hread' : FrontToBack read')
    (h : Reads read w a) (h' : Reads read' w a') (hb : b.bytes ++ coming = w ++ tail) :
    Parallel a a' (b.tryTake .value read) (b.tryTake .value read') := by
  rw [tryTake, tryTake]
  by_cases hnil : b.bytes.isEmpty = true
  · rw [if_pos hnil, if_pos hnil]
    split
    · exact .failed _ _ _ _
    · exact .waiting b
  · rw [if_neg hnil, if_neg hnil]
    split
    · dsimp only
      split
      · exact parallel_needMore a a' _
      · exact parallel_take hread hread' h h' hb
    · exact parallel_take hread hread' h h' hb

end Buffer

namespace Decoder

/-- What two readers of the same bytes pull: both pull them and leave the same, or both fail. -/
inductive Parallel (a : α) (a' : β) : Except Error α × Decoder → Except Error β × Decoder → Prop
  | ok (d : Decoder) : Parallel a a' (.ok a, d) (.ok a', d)
  | error (e e' : Error) (d d' : Decoder) : Parallel a a' (.error e, d) (.error e', d')

variable {mode : Mode} {source : Source} {b : Buffer} {reads : Nat}

/-- An attempt that does not wait settles the pull. -/
theorem pullFrom_parallel_of_done
    (hpar : Buffer.Parallel a a' (b.tryTake .value read) (b.tryTake .value read'))
    (hdone : ∀ b', b.tryTake .value read ≠ (.waiting, b')) :
    Parallel a a' (pullFrom .value read mode source b reads)
      (pullFrom .value read' mode source b reads) := by
  generalize hx : b.tryTake .value read = x, hx' : b.tryTake .value read' = x' at hpar
  cases hpar with
  | taken b' =>
    rw [pullFrom_taken hx, pullFrom_taken hx']
    exact .ok _
  | waiting b' => exact absurd hx (hdone b')
  | failed =>
    rw [pullFrom_failed hx, pullFrom_failed hx']
    exact .error _ _ _ _

theorem pullFrom_parallel (hread : FrontToBack read) (hread' : FrontToBack read')
    (h : Reads read w a) (h' : Reads read' w a')
    (hb : b.bytes ++ Source.unread source = w ++ tail) :
    Parallel a a' (pullFrom .value read mode source b reads)
      (pullFrom .value read' mode source b reads) := by
  have hwait {b b' : Buffer} (hx : b.tryTake .value read = (.waiting, b')) :
      b'.bytes = b.bytes := (hx ▸ Buffer.tried_tryTake .value read b).bytes_of_waiting
  induction source generalizing b reads with
  | nil =>
    have hpar := Buffer.parallel_tryTake hread hread' h h' hb
    by_cases hfirst : ∃ b', b.tryTake .value read = (.waiting, b')
    · -- The end of input is one more read, after which nothing waits.
      obtain ⟨b', hx⟩ := hfirst
      rw [hx] at hpar
      have hnow : (b'.extend []).bytes ++ [] = w ++ tail := by
        rw [← hb, Buffer.extend_bytes, hwait hx, List.append_nil]
        rfl
      rw [pullFrom_waiting_nil hx (Buffer.tryTake_ne_waiting rfl),
        pullFrom_waiting_nil hpar.eq_of_waiting (Buffer.tryTake_ne_waiting rfl)]
      exact pullFrom_parallel_of_done (Buffer.parallel_tryTake hread hread' h h' hnow)
        (Buffer.tryTake_ne_waiting rfl)
    · exact pullFrom_parallel_of_done hpar (not_exists.1 hfirst)
  | cons e source ih =>
    have hpar := Buffer.parallel_tryTake hread hread' h h' hb
    by_cases hfirst : ∃ b', b.tryTake .value read = (.waiting, b')
    · obtain ⟨b', hx⟩ := hfirst
      rw [hx] at hpar
      rw [pullFrom, hx, pullFrom, hpar.eq_of_waiting]
      cases e with
      | bytes bs =>
        refine ih ?_
        rw [Buffer.extend_bytes, hwait hx, List.append_assoc]
        exact hb
      | failure => exact .error _ _ _ _
      | interruption =>
        cases mode with
        | blocking =>
          refine ih ?_
          rw [hwait hx]
          exact hb
        | async => exact .error _ _ _ _
    · exact pullFrom_parallel_of_done hpar (not_exists.1 hfirst)

end Decoder

end

/-! ## Decoders -/

namespace Decoder

/-- The bytes that a decoder has not taken: those that have arrived, and those still to come. -/
def ahead (d : Decoder) : Bytes := d.buffer.bytes ++ Source.unread d.source

variable {d d' : Decoder} {v : Value} {tail : Bytes} {s : Shape}

/-- What is pulled as a shape in front of a value is the value, taken as the shape. -/
theorem ofValue_of_next (hd : d.ahead = write v ++ tail) (hv : v.Writable maxDepth)
    {a : s.Carrier} (h : d.next s = (.ok a, d')) : s.ofValue v = .ok a := by
  obtain ⟨got, more, rest, hbytes, hread⟩ := exists_of_pullFrom h
  have hext := frontToBack_readShape s got more
  rw [hread, hbytes.symm.trans hd] at hext
  exact ((concurs_readShape s hv tail a (rest ++ more)).1 hext).1

theorem reads_readShape (hv : v.Writable maxDepth) {a : s.Carrier} (h : s.ofValue v = .ok a) :
    Reads s.read (write v) a := fun rest =>
  (concurs_readShape s hv rest a rest).2 ⟨h, rfl⟩

/-- So it is pulled in parallel as the shape and as whatever it is. -/
theorem next_eq_iff_of_ofValue (hd : d.ahead = write v ++ tail) (hv : v.Writable maxDepth)
    {a : s.Carrier} (h : s.ofValue v = .ok a) :
    d.next s = (.ok a, d') ↔ d.nextValue = (.ok v, d') := by
  have hpar : Parallel a v (d.next s) d.nextValue :=
    pullFrom_parallel (frontToBack_readShape s) (frontToBack_readShape .dynamic)
      (reads_readShape hv h) (reads_write hv) hd
  generalize d.next s = x, d.nextValue = y at hpar
  cases hpar with
  | ok d₁ =>
    constructor
    · intro hx
      rw [(Prod.mk.inj hx).2]
    · intro hy
      rw [(Prod.mk.inj hy).2]
  | error =>
    constructor
    · intro hx
      cases (Prod.mk.inj hx).1
    · intro hy
      cases (Prod.mk.inj hy).1

/-- Converting what is pulled is taking the value as the shape. -/
theorem nextCompactAs_eq_ok_iff (hd : d.ahead = write v ++ tail) (hv : v.Writable maxDepth)
    {a : s.Carrier} :
    d.nextCompactAs .identity s = (.ok a, d')
      ↔ d.nextValue = (.ok v, d') ∧ s.ofValue v = .ok a := by
  rcases hx : d.nextValue with ⟨_ | v', d₁⟩
  · rw [nextCompactAs, hx]
    constructor
    · intro h
      cases (Prod.mk.inj h).1
    · rintro ⟨h, -⟩
      cases (Prod.mk.inj h).1
  · obtain rfl : v = v' := Except.ok.inj (ofValue_of_next (s := .dynamic) hd hv hx)
    rw [nextCompactAs, hx]
    change ((s.ofValue v).mapError Error.conversion, d₁) = _ ↔ _
    cases s.ofValue v with
    | error m =>
      constructor
      · intro h
        cases (Prod.mk.inj h).1
      · rintro ⟨-, h⟩
        cases h
    | ok a' =>
      constructor
      · intro h
        obtain ⟨ha, rfl⟩ := Prod.mk.inj h
        exact ⟨rfl, congrArg Except.ok (Except.ok.inj ha)⟩
      · rintro ⟨h, ha⟩
        rw [(Prod.mk.inj h).2, Except.ok.inj ha]
        rfl

/-- A pull takes the value, nothing less and nothing more. -/
theorem taken_of_next (hd : d.ahead = write v ++ tail) (hv : v.Writable maxDepth) {a : s.Carrier}
    (h : d.next s = (.ok a, d')) :
    d'.offset = d.offset + (write v).length ∧ d'.ahead = tail := by
  have hpulls : Pulls .value d.source d.buffer d.reads (d.next s) :=
    pulls_pullFrom (apportions_of_takes takes_readShape) d.mode d.source d.buffer d.reads
  rw [h] at hpulls
  obtain ⟨k, -, hsource, hmoved⟩ := hpulls
  cases hmoved with
  | @took _ _ front _ hportion hbytes hoffset =>
    have hall : front ++ d'.ahead = write v ++ tail := by
      rw [← hd, ahead, ahead, hsource, ← List.append_assoc, ← hbytes, List.append_assoc,
        Source.unread, Source.unread, Source.unread, ← List.flatMap_append, List.take_append_drop]
    have hwhole : Portion .value (write v) :=
      .value (values_of_reads (reads_write hv) takes_readValue)
    obtain rfl := hportion.eq_of_append hwhole hall
    exact ⟨hoffset, List.append_cancel_left hall⟩

/-- **Agreement.** In front of a value, a pull as a shape succeeds exactly if pulling whatever is
    there and converting it does; both give the same, and have taken the value and nothing more.
    This holds of any limit, and of any source that still has the bytes of the value. -/
theorem next_iff_nextCompactAs (hd : d.ahead = write v ++ tail) (hv : v.Writable maxDepth)
    (s : Shape) :
    (∀ a d', d.next s = (.ok a, d') ↔ d.nextCompactAs .identity s = (.ok a, d')) ∧
      ∀ a d', d.next s = (.ok a, d') →
        d'.offset = d.offset + (write v).length ∧ d'.ahead = tail := by
  refine ⟨fun a d' => ?_, fun a d' h => taken_of_next hd hv h⟩
  rw [nextCompactAs_eq_ok_iff hd hv]
  constructor
  · intro h
    have ha := ofValue_of_next hd hv h
    exact ⟨(next_eq_iff_of_ofValue hd hv ha).1 h, ha⟩
  · rintro ⟨h, ha⟩
    exact (next_eq_iff_of_ofValue hd hv ha).2 h

/-- If nothing interrupts the source and the value fits, the pull does succeed when the value can be
    taken as the shape. -/
theorem Delivers.next {size : Nat} (h : d.Delivers size (write v ++ tail))
    (hv : v.Writable maxDepth) (hsize : (write v).length ≤ size) {a : s.Carrier}
    (ha : s.ofValue v = .ok a) : ∃ d', d.next s = (.ok a, d') ∧ d'.Delivers size tail ∧
      d'.offset = d.offset + (write v).length :=
  h.pull (reads_readShape hv ha) (values_of_reads (reads_write hv) takes_readValue) hsize

/-- An object with a field that no caller asks for. -/
def described : Value :=
  .object [("limit", .int ⟨3, by decide, by decide⟩), ("note", .list [.null])]

/-- What a caller asks for; the object lacks the first field. -/
def settings : RecordType :=
  ⟨"Settings", [⟨"strict", .defaulted .bool true⟩, ⟨"limit", .required .u8⟩]⟩

/-- The object and nil behind it, in pieces of at most four bytes around an interruption. -/
def inPieces : Decoder :=
  .new .blocking [.bytes ((write described).take 6), .interruption,
    .bytes ((write described).drop 6 ++ writeNil)] ⟨4, 64⟩

theorem nextCompactAs_inPieces :
    ∃ d', inPieces.nextCompactAs .identity (.record settings) = (.ok (true, 3, ()), d') ∧
      d'.offset = (write described).length ∧ d'.ahead = writeNil := by
  have hd : inPieces.ahead = write described ++ writeNil := by
    decide +kernel
  have hv : described.Writable maxDepth :=
    ⟨⟨by unfold Fields.Ordered; decide, trivial, ⟨trivial, trivial⟩, trivial⟩, by decide, by decide,
      by decide, trivial, by decide, ⟨by decide, trivial, trivial⟩, trivial⟩
  have h : (inPieces.next (.record settings)).1 = .ok (true, 3, ()) := by
    with_unfolding_all rfl
  obtain ⟨hiff, htaken⟩ := next_iff_nextCompactAs hd hv (.record settings)
  obtain ⟨hoffset, hbytes⟩ := htaken _ _ (Prod.ext h rfl)
  exact ⟨_, (hiff _ _).1 (Prod.ext h rfl), hoffset.trans (Nat.zero_add _), hbytes⟩

end Decoder

end FrameRpc
