/-!
# Fair locks

A lock that is handed on in the order in which it was asked for. It is the line of those who have
asked for it: the one at the front has it, the others wait. So whoever asks gets the lock at once
if nobody has it, and who no longer wants it just leaves the line, which hands the lock on if it
was already there (`withdraw_of_holder`).
-/

namespace FrameRpc

/-- A lock, as the line of those who have asked for it, the holder at the front. -/
structure Lock (τ : Type) where
  /-- The holder, and then those who wait, the next one first. -/
  line : List τ

namespace Lock

variable {τ : Type}

/-- Nobody has asked for it. -/
def free : Lock τ := ⟨[]⟩

/-- Who has it. -/
def holder (l : Lock τ) : Option τ := l.line.head?

/-- Somebody asks for it. -/
def ask (l : Lock τ) (t : τ) : Lock τ := ⟨l.line ++ [t]⟩

/-- The holder hands it on. -/
def release (l : Lock τ) : Lock τ := ⟨l.line.tail⟩

/-- Somebody no longer wants it. -/
def withdraw [DecidableEq τ] (l : Lock τ) (t : τ) : Lock τ := ⟨l.line.erase t⟩

@[simp]
theorem holder_free : (free : Lock τ).holder = none := rfl

/-- Asking takes the lock from nobody. -/
theorem holder_ask (l : Lock τ) (t : τ) : (l.ask t).holder = some (l.holder.getD t) := by
  cases l with
  | mk line => cases line <;> rfl

/-- A holder that no longer wants the lock hands it on. -/
theorem withdraw_of_holder [DecidableEq τ] {l : Lock τ} {t : τ} (h : l.holder = some t) :
    l.withdraw t = l.release := by
  cases l with
  | mk line =>
    cases line with
    | nil => simp [holder] at h
    | cons a rest =>
      obtain rfl : a = t := by simpa [holder] using h
      simp [withdraw, release]

end Lock

end FrameRpc
