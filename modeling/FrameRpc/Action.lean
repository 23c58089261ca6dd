/-!
# Actions

What a frame asks for or carries. On the wire an action is its tag, and the three tags are the
only ones (`Action.ofTag?_eq_some_iff`).
-/

namespace FrameRpc

/-- What a frame asks for or carries. -/
inductive Action where
  /-- One request, one response. -/
  | once
  /-- Opens a stream of updates. -/
  | subscribe
  /-- A pushed value. -/
  | update
  deriving DecidableEq, Repr

namespace Action

/-- The tag of an action. -/
def tag : Action → String
  | .once => "client:once"
  | .subscribe => "client:subscribe"
  | .update => "server:update"

/-- The action of a tag. -/
def ofTag? (s : String) : Option Action :=
  if s = "client:once" then some .once
  else if s = "client:subscribe" then some .subscribe
  else if s = "server:update" then some .update
  else none

theorem ofTag?_tag (a : Action) : ofTag? a.tag = some a := by
  cases a <;> rfl

theorem ofTag?_eq_some_iff {s : String} {a : Action} : ofTag? s = some a ↔ s = a.tag := by
  refine ⟨fun h => ?_, fun h => h ▸ ofTag?_tag a⟩
  unfold ofTag? at h
  split at h
  · simp_all [tag]; subst h; rfl
  split at h
  · simp_all [tag]; subst h; rfl
  split at h
  · simp_all [tag]; subst h; rfl
  · simp at h

end Action

end FrameRpc
