import FrameRpc.Stream.Buffer

/-!
# Attempts

An attempt at the front of a buffer comes to one of six things (`Buffer.Tried`): there is nothing
and there will be nothing, or there is nothing yet; the front value has not arrived, and there is
room for it or not; it is taken; or it is refused. Each case carries what has led to it and the
buffer that it leaves, so whatever is said of attempts is said case by case.
-/

namespace FrameRpc

open MessagePack

namespace Buffer

variable {α : Type} {framing : Framing} {read : Reader α} {b b' : Buffer}

/-- The buffer after a look at how far the front value has arrived. There is such a look only for
    a whole value, and only as long as something may still arrive. -/
def looked (framing : Framing) (b : Buffer) : Buffer :=
  if framing = .value ∧ b.ended = false then { b with scan := (b.scan.advance b.bytes).2 } else b

/-- Such a look does not show that bytes of the front value are still to come. -/
def Seen (framing : Framing) (b : Buffer) : Prop :=
  framing = .value → b.ended = false → (b.scan.advance b.bytes).1 ≠ .incomplete

/-- The front value has not arrived: the scan says so, or the reader runs out of bytes. -/
def Lacks (framing : Framing) (read : Reader α) (b : Buffer) : Prop :=
  ¬ b.Seen framing ∨ ∃ why, read b.bytes = .error why ∧ why.isTruncation = true

/-- What an attempt comes to. -/
inductive Tried (framing : Framing) (read : Reader α) (b : Buffer) : Attempt α × Buffer → Prop
  /-- There is nothing, and there will be nothing. -/
  | exhausted (hbytes : b.bytes = []) (hended : b.ended = true) :
    Tried framing read b (.failed .exhausted, b)
  /-- There is nothing yet. -/
  | idle (hbytes : b.bytes = []) (hended : b.ended = false) : Tried framing read b (.waiting, b)
  /-- The front value has not arrived, and so far there is room for it. -/
  | short (hbytes : b.bytes ≠ []) (hended : b.ended = false) (hlacks : b.Lacks framing read)
    (hreach : (b.looked framing).scan.reach ≤ b.limit) (hlength : b.bytes.length < b.limit) :
    Tried framing read b (.waiting, b.looked framing)
  /-- The front value has not arrived, and there is no room for it. -/
  | large (hbytes : b.bytes ≠ []) (hended : b.ended = false) (hlacks : b.Lacks framing read)
    (hlarge : b.limit < (b.looked framing).scan.reach ∨ b.limit ≤ b.bytes.length) :
    Tried framing read b (.failed (.tooLarge b.offset b.limit), { b with scan := .start })
  /-- What was asked for is there. -/
  | taken {a : α} {rest : Bytes} (hbytes : b.bytes ≠ []) (hseen : b.Seen framing)
    (hr : read b.bytes = .ok (a, rest)) :
    Tried framing read b (.taken a,
      { b with bytes := rest, offset := b.offset + (b.bytes.length - rest.length), scan := .start })
  /-- What is there is not what was asked for. -/
  | malformed {why : ReadError} (hbytes : b.bytes ≠ []) (hseen : b.Seen framing)
    (hr : read b.bytes = .error why) (hdone : why.isTruncation = true → b.ended = true) :
    Tried framing read b (.failed (.malformed b.offset why), { b with scan := .start })

@[simp]
theorem looked_bytes (framing : Framing) (b : Buffer) : (b.looked framing).bytes = b.bytes := by
  rw [looked]
  split <;> rfl

@[simp]
theorem looked_offset (framing : Framing) (b : Buffer) : (b.looked framing).offset = b.offset := by
  rw [looked]
  split <;> rfl

@[simp]
theorem looked_ended (framing : Framing) (b : Buffer) : (b.looked framing).ended = b.ended := by
  rw [looked]
  split <;> rfl

@[simp]
theorem looked_limit (framing : Framing) (b : Buffer) : (b.looked framing).limit = b.limit := by
  rw [looked]
  split <;> rfl

/-- The front value has not arrived: the limit decides whether to wait. -/
theorem tried_needMore (hbytes : b.bytes ≠ []) (hended : b.ended = false)
    (hlacks : b.Lacks framing read) : Tried framing read b (b.looked framing).needMore := by
  rw [needMore]
  simp only [looked_bytes, looked_offset, looked_ended, looked_limit]
  split
  · rename_i hlarge
    exact .large hbytes hended hlacks hlarge
  · rename_i hsmall
    exact .short hbytes hended hlacks (by omega) (by omega)

/-- It may have arrived: reading decides. -/
theorem tried_take (hbytes : b.bytes ≠ []) (hseen : b.Seen framing) :
    Tried framing read b ((b.looked framing).take read) := by
  rw [take, looked_bytes]
  cases hr : read b.bytes with
  | ok p =>
    simp only [looked_offset, looked_ended, looked_limit]
    exact .taken hbytes hseen hr
  | error why =>
    by_cases hwait : (why.isTruncation && !b.ended) = true
    · simp only [looked_ended, hwait, if_true]
      rw [Bool.and_eq_true, Bool.not_eq_true'] at hwait
      exact tried_needMore hbytes hwait.2 (.inr ⟨why, hr, hwait.1⟩)
    · simp only [looked_offset, looked_ended, looked_limit, hwait, if_false, Bool.false_eq_true]
      exact .malformed hbytes hseen hr fun ht => by simpa [ht] using hwait

/-- An attempt comes to one of these. -/
theorem tried_tryTake (framing : Framing) (read : Reader α) (b : Buffer) :
    Tried framing read b (b.tryTake framing read) := by
  rw [tryTake]
  split
  · rename_i hempty
    rw [List.isEmpty_iff] at hempty
    split
    · exact .exhausted hempty ‹_›
    · exact .idle hempty (eq_false_of_ne_true ‹_›)
  · rename_i hbytes
    rw [List.isEmpty_iff] at hbytes
    by_cases hscan : framing = .value ∧ b.ended = false
    · have hlooked : b.looked framing = { b with scan := (b.scan.advance b.bytes).2 } :=
        if_pos hscan
      rw [if_pos hscan]
      dsimp only
      rw [← hlooked]
      split
      · rename_i hverdict
        exact tried_needMore hbytes hscan.2 (.inl fun hseen => hseen hscan.1 hscan.2 hverdict)
      · exact tried_take hbytes fun _ _ => ‹_›
    · rw [if_neg hscan]
      have hlooked : b.looked framing = b := if_neg hscan
      have htake : Tried framing read b ((b.looked framing).take read) :=
        tried_take hbytes fun hvalue hended => absurd ⟨hvalue, hended⟩ hscan
      rwa [hlooked] at htake

theorem Tried.limit_eq {x : Attempt α × Buffer} (h : Tried framing read b x) :
    x.2.limit = b.limit := by
  cases h with
  | short => exact looked_limit framing b
  | _ => rfl

theorem Tried.ended_eq {x : Attempt α × Buffer} (h : Tried framing read b x) :
    x.2.ended = b.ended := by
  cases h with
  | short => exact looked_ended framing b
  | _ => rfl

/-- A buffer that waits is below the limit, or empty. -/
theorem Tried.lt_of_waiting (h : Tried framing read b (.waiting, b')) :
    b.bytes.length < max b.limit 1 := by
  cases h with
  | idle hbytes _ =>
    rw [hbytes]
    exact Nat.lt_of_lt_of_le Nat.zero_lt_one (Nat.le_max_right _ _)
  | short _ _ _ _ hlength => exact Nat.lt_of_lt_of_le hlength (Nat.le_max_left _ _)

/-- To wait takes nothing. -/
theorem Tried.bytes_of_waiting (h : Tried framing read b (.waiting, b')) : b'.bytes = b.bytes := by
  cases h with
  | idle => rfl
  | short => exact looked_bytes framing b

theorem Tried.offset_of_waiting (h : Tried framing read b (.waiting, b')) :
    b'.offset = b.offset := by
  cases h with
  | idle => rfl
  | short => exact looked_offset framing b

/-- What is taken has been read from the bytes that have arrived. -/
theorem Tried.exists_of_taken {a : α} (h : Tried framing read b (.taken a, b')) :
    ∃ rest, read b.bytes = .ok (a, rest) := by
  cases h with
  | taken _ _ hr => exact ⟨_, hr⟩

/-- After the end of input nothing waits, and the limit has no say. -/
theorem Tried.outcome_of_ended {x : Attempt α × Buffer} (hx : Tried framing read b x)
    (hended : b.ended = true) :
    x.1 ≠ .waiting ∧ ∀ offset limit, x.1 ≠ .failed (.tooLarge offset limit) := by
  cases hx with
  | idle _ hended' | short _ hended' | large _ hended' =>
    rw [hended] at hended'
    nomatch hended'
  | exhausted | taken | malformed => exact ⟨nofun, nofun⟩

theorem tryTake_ne_waiting (h : b.ended = true) (b' : Buffer) :
    b.tryTake framing read ≠ (.waiting, b') := fun hx =>
  ((tried_tryTake framing read b).outcome_of_ended h).1 (congrArg Prod.fst hx)

end Buffer

end FrameRpc
