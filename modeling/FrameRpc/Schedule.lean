/-!
# Schedules

One thread runs tasks that share a state. The task at the front of a queue runs until it has to
wait; every other task that one of its steps makes ready goes to the back of the queue, once.
The state is settled when the queue is empty (`Tasks.settle`).
-/

namespace FrameRpc

/-- Tasks that take steps on a shared state. -/
structure Tasks (σ τ : Type) where
  /-- The tasks that can take a step, in a fixed order. -/
  ready : σ → List τ
  /-- A step of a task. -/
  step : τ → σ → σ

namespace Tasks

variable {σ τ : Type} [DecidableEq τ]

/-- The queue behind a running task, with those whom its last step has made ready. -/
def wake (m : Tasks σ τ) (running : τ) (queue : List τ) (s : σ) : List τ :=
  queue ++ (m.ready s).filter fun t => t ≠ running && !queue.contains t

/-- Runs the task that is running, if there is one, and then the queue. Every step and every
    change of the running task takes one unit of `fuel`. -/
def run (m : Tasks σ τ) : (fuel : Nat) → Option τ → List τ → σ → σ
  | 0, _, _, s => s
  | _ + 1, none, [], s => s
  | fuel + 1, none, t :: queue, s => run m fuel (some t) queue s
  | fuel + 1, some t, queue, s =>
    if t ∈ m.ready s then
      let s := m.step t s
      run m fuel (some t) (m.wake t queue s) s
    else run m fuel none queue s

/-- The state after all tasks of the queue, and all that they make ready, have run. -/
def settle (m : Tasks σ τ) (fuel : Nat) (queue : List τ) (s : σ) : σ := m.run fuel none queue s

end Tasks

end FrameRpc
