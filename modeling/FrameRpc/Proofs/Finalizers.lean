import FrameRpc.Proofs.RunControl

/-!
# One finalizer a run

A service with a finalizer calls it once for every run: after a run is created nothing else is
created before the finalizer has been called, and it is not called again before another run is
created (`Mark.at`). At the time of the call, and for as long as the finalizer takes, the token of
the run is not cancelled, no other finalizer is called, and no run is created
(`Service.finalizer_of_every_run`).

How often the status has changed tells how many runs have been created and how often the finalizer
was called, just as it tells the control (`Book.after`).
-/

namespace FrameRpc

namespace Service

/-! ## Marks -/

/-- What is told of runs and finalizers. -/
inductive Mark where
  /-- A run is created. -/
  | created (r : Nat)
  /-- The finalizer is called; whether the token of the latest run is cancelled then. -/
  | finalizing (n : Nat) (cancelled : Bool)
  deriving DecidableEq

/-- What an event tells of runs and finalizers. -/
def Event.mark? : Event → Option Mark
  | .created r _ => some (.created r)
  | .finalizing n cancelled => some (.finalizing n cancelled)
  | .started _ | .ended _ | .dropped _ | .finalized _ | .unfinalized _ => none

/-- What has been told of runs and finalizers so far. -/
def marks (s : Service) : List Mark := s.log.filterMap Event.mark?

/-- The `k`-th mark: by turns a run is created and the finalizer is called for it, while its token
    is not cancelled. -/
def Mark.at (k : Nat) : Mark := if k % 2 = 0 then .created (k / 2) else .finalizing (k / 2) false

/-- The first marks. -/
def Mark.upTo (k : Nat) : List Mark := (List.range k).map Mark.at

theorem Mark.upTo_succ (k : Nat) : upTo (k + 1) = upTo k ++ [Mark.at k] := by
  rw [upTo, upTo, List.range_succ, List.map_append]
  rfl

/-- What the finalizers and runs of a service come to. -/
@[ext]
structure Book where
  /-- It has a finalizer. -/
  finalizes : Bool
  /-- The number of times that the finalizer was called. -/
  finalizers : Nat
  /-- The number of runs. -/
  runs : Nat
  /-- What has been told of both. -/
  marks : List Mark

/-- The book of a service. -/
def book (s : Service) : Book := ⟨s.finalizes, s.finalizers, s.runs.length, s.marks⟩

/-- The book after `n` changes of status. -/
def Book.after (n : Nat) : Book where
  finalizes := true
  finalizers := (n + 1) / 4
  runs := (n + 2) / 4
  marks := Mark.upTo ((n + 2) / 4 + (n + 1) / 4)

variable {s t u : Service} {n : Nat}

/-! ## Who runs the finalizer -/

variable {x : Task}

/-- Whoever runs the finalizer after a step has done so before, or has just called it. -/
theorem Step.finalizing_cases {m : Move} (hstep : s.Step m t)
    (h : t.stopping? x = some (.finalizing n)) : s.stopping? x = some (.finalizing n) ∨
      s.status = .ready ∧ n = s.finalizers ∧ t.published.length = s.published.length + 1 := by
  rcases hstep.stopping_cases h with hs | harriving | ⟨p₀, u, -, turn, rfl⟩
  · exact .inl hs
  · cases harriving
  · right
    cases turn with
    | finalize _ hstatus =>
      refine ⟨hstatus, rfl, ?_⟩
      rw [published_placeStopping]
      exact List.length_append

/-! ## From one book to the next -/

/-- What is told without a mark leaves the marks alone. -/
theorem filterMap_mark?_append {log events : List Event} (h : ∀ e ∈ events, e.mark? = none) :
    (log ++ events).filterMap Event.mark? = log.filterMap Event.mark? := by
  rw [List.filterMap_append, List.filterMap_eq_nil_iff.2 h, List.append_nil]

theorem book_placeStopping (s : Service) (p : Stopping) (x : Task) :
    (s.placeStopping p x).book = s.book := by
  cases x with
  | call i => rfl
  | supervisor r => exact Book.ext rfl rfl (List.length_modify _ _ _) rfl
  | run r => rfl

theorem book_cancelToken (s : Service) : s.cancelToken.book = s.book := by
  rw [cancelToken]
  cases s.token with
  | none => rfl
  | some r => exact Book.ext rfl rfl (List.length_modify _ _ _) rfl

/-- A start that fails, and the end of a stop, leave the book alone. -/
theorem Book.after_succ (h : n % 4 = 0 ∨ n % 4 = 3) : after (n + 1) = after n := by
  have hfinalizers : (n + 1 + 1) / 4 = (n + 1) / 4 := by omega
  have hruns : (n + 1 + 2) / 4 = (n + 2) / 4 := by omega
  exact Book.ext rfl hfinalizers hruns
    (congrArg Mark.upTo (congr (congrArg HAdd.hAdd hruns) hfinalizers))

/-- A run is launched. -/
theorem book_launch (h : s.book = .after n) (hn : n % 4 = 0) (i : Nat) :
    (s.launch i).book = .after (n + 2) := by
  have hruns : s.runs.length = n / 4 := by
    have := congrArg Book.runs h
    change s.runs.length = (n + 2) / 4 at this
    omega
  apply Book.ext
  · exact (congrArg Book.finalizes h :)
  · refine (congrArg Book.finalizers h).trans ?_
    show (n + 1) / 4 = (n + 2 + 1) / 4
    omega
  · show (s.runs ++ [_]).length = (n + 2 + 2) / 4
    rw [List.length_append, hruns, List.length_singleton]
    omega
  · have hmark : Mark.at ((n + 2) / 4 + (n + 1) / 4) = .created s.runs.length := by
      rw [Mark.at, if_pos (by omega), hruns]
      congr 1
      omega
    show (s.log ++ [_]).filterMap Event.mark? = Mark.upTo ((n + 2 + 2) / 4 + (n + 2 + 1) / 4)
    rw [List.filterMap_append, show (n + 2 + 2) / 4 + (n + 2 + 1) / 4 =
      (n + 2) / 4 + (n + 1) / 4 + 1 by omega, Mark.upTo_succ, hmark]
    exact congrArg (· ++ _) (congrArg Book.marks h)

/-- The token of the latest run of a service that is ready is not cancelled. -/
theorem Guarded.latestCancelled_eq_false (h : s.Guarded) (hready : s.status = .ready) :
    s.latestCancelled = false := by
  have hn := cycle_eq_ready_iff.1 (h.status_eq ▸ hready)
  have hruns := runs_of_control h.control
  have hkept := tokenAfter_of_le (n := s.published.length) (by omega)
  have hr : s.published.length / 4 < s.runs.length := by omega
  have hrun := List.getElem?_eq_getElem hr
  obtain ⟨-, hc⟩ := Prod.mk.inj (ticket_of_control h.control hrun)
  rw [latestCancelled, List.getLast?_eq_getElem?, show s.runs.length - 1 = s.published.length / 4 by
    omega, hrun, Option.any_some, hc, hkept]
  simp

/-- The finalizer is called. -/
theorem book_finalize (h : s.book = .after n) (hn : n % 4 = 2)
    (halive : s.latestCancelled = false) :
    book (({ s.publish .pending with finalizers := s.finalizers + 1 }).tell
      (.finalizing s.finalizers s.latestCancelled)) = .after (n + 1) := by
  have hfinalizers : s.finalizers = n / 4 := by
    have := congrArg Book.finalizers h
    change s.finalizers = (n + 1) / 4 at this
    omega
  apply Book.ext
  · exact (congrArg Book.finalizes h :)
  · show s.finalizers + 1 = (n + 1 + 1) / 4
    omega
  · refine (congrArg Book.runs h).trans ?_
    show (n + 2) / 4 = (n + 1 + 2) / 4
    omega
  · have hmark : Mark.at ((n + 2) / 4 + (n + 1) / 4) =
        .finalizing s.finalizers s.latestCancelled := by
      rw [Mark.at, if_neg (by omega), hfinalizers, halive]
      congr 1
      omega
    show (s.log ++ [_]).filterMap Event.mark? = Mark.upTo ((n + 1 + 2) / 4 + (n + 1 + 1) / 4)
    rw [List.filterMap_append, show (n + 1 + 2) / 4 + (n + 1 + 1) / 4 =
      (n + 2) / 4 + (n + 1) / 4 + 1 by omega, Mark.upTo_succ, hmark]
    exact congrArg (· ++ _) (congrArg Book.marks h)

theorem RunTurn.mark?_eq_none {r : Nat} {m : Move} {run run' : Run} {events : List Event}
    (h : RunTurn r m run run' events) : ∀ e ∈ events, e.mark? = none := by
  cases h with
  | spawn | interrupt | notice | close => exact fun e he => nomatch he
  | start | drop | finish =>
    intro e he
    rw [List.mem_singleton.1 he]
    rfl

/-! ## The invariant -/

/-- The book is what the changes of status make it, and whoever runs the finalizer has called it
    last. -/
structure Booked (s : Service) : Prop where
  book : s.book = .after s.published.length
  running : ∀ x n, s.stopping? x = some (.finalizing n) → n = s.published.length / 4

theorem booked_new : (new true).Booked where
  book := by
    show (new true).book = .after 0
    rfl
  running x n h := by
    cases x <;> nomatch h

/-- Only a change of status changes the book. -/
theorem Booked.keep (h : s.Booked) (hbook : t.book = s.book)
    (hpublished : t.published = s.published) : t.book = .after t.published.length := by
  rw [hbook, hpublished]
  exact h.book

theorem Booked.book_step (h : s.Booked) (hg : s.Guarded) {m : Move} (hstep : s.Step m t) :
    t.book = .after t.published.length := by
  have hone : ∀ status, (s.published ++ [status]).length = s.published.length + 1 :=
    fun _ => List.length_append
  cases hstep with
  | start | stop => exact h.book
  | @startTurn i _ _ p' _ hcall turn =>
    cases turn with
    | launch hlock hstatus =>
      have hn := cycle_eq_stopped_iff.1 (hg.status_eq ▸ hstatus)
      show (s.launch i).book = .after (s.published ++ [_, _]).length
      rw [List.length_append]
      exact book_launch h.book hn i
    | crash hlock hstatus =>
      have hn := cycle_eq_stopped_iff.1 (hg.status_eq ▸ hstatus)
      show s.book = .after (s.published ++ [_]).length
      rw [hone, Book.after_succ (.inl hn), h.book]
    | ask | skip | await | leave | unwind | join | joinPanicked => exact h.keep rfl rfl
  | @stopTurn x _ _ p' _ hstop turn =>
    rw [book_placeStopping, published_placeStopping]
    cases turn with
    | finalize hlock hstatus =>
      have hn := cycle_eq_ready_iff.1 (hg.status_eq ▸ hstatus)
      show _ = Book.after (s.published ++ [_]).length
      rw [hone]
      exact book_finalize h.book hn (hg.latestCancelled_eq_false hstatus)
    | close _ _ _ hfinalizes =>
      -- There is a finalizer.
      have := congrArg Book.finalizes h.book
      exact nomatch hfinalizes.symm.trans this
    | cancel =>
      have hn := hg.stops x (hold_of_stopping? hstop)
      have hpublished : s.cancelToken.published = s.published ++ [.stopped] := by
        rw [cancelToken]
        cases s.token <;> rfl
      rw [book_cancelToken, hpublished, hone, Book.after_succ (.inr hn), h.book]
    | finalized =>
      exact h.keep (Book.ext rfl rfl rfl (filterMap_mark?_append (by simp [Event.mark?]))) rfl
    | ask | pass | panic | leave | unwind => exact h.keep rfl rfl
  | runTurn hrun turn =>
    exact h.keep
      (Book.ext rfl rfl List.length_set (filterMap_mark?_append turn.mark?_eq_none)) rfl
  | dropIdle | dropWaiting => exact h.keep rfl rfl
  | dropFinalizing =>
    exact h.keep (Book.ext rfl rfl rfl (filterMap_mark?_append (by simp [Event.mark?]))) rfl

theorem Booked.step (h : s.Booked) (hg : s.Guarded) {m : Move} (hstep : s.Step m t) : t.Booked := by
  refine ⟨h.book_step hg hstep, fun x n hrunning => ?_⟩
  obtain hbefore | ⟨hready, rfl, hpublished⟩ := hstep.finalizing_cases hrunning
  · -- It had the lock before and has it still, and nobody else has changed the status.
    have hs := hg.stops x (hold_of_stopping? hbefore)
    have ht := (hg.step hstep).stops x (hold_of_stopping? hrunning)
    have hn := h.running x n hbefore
    have hle := hstep.published_le
    omega
  · have hn := cycle_eq_ready_iff.1 (hg.status_eq ▸ hready)
    have hfinalizers := congrArg Book.finalizers h.book
    change s.finalizers = (s.published.length + 1) / 4 at hfinalizers
    omega

theorem booked_of_run? {moves : List Move} (hrun : (new true).run? moves = some t) :
    t.Guarded ∧ t.Booked :=
  of_run? (P := fun s => s.Guarded ∧ s.Booked)
    (fun hstep h => ⟨h.1.step hstep, h.2.step h.1 hstep⟩) ⟨guarded_new true, booked_new⟩ hrun

/-! ## What the invariant says -/

namespace Booked

theorem finalizers_eq (h : s.Booked) : s.finalizers = (s.published.length + 1) / 4 :=
  congrArg Book.finalizers h.book

theorem runs_eq (h : s.Booked) : s.runs.length = (s.published.length + 2) / 4 :=
  congrArg Book.runs h.book

theorem marks_eq (h : s.Booked) : s.marks = Mark.upTo (s.runs.length + s.finalizers) := by
  rw [h.runs_eq, h.finalizers_eq]
  exact congrArg Book.marks h.book

/-- While the finalizer runs, the token of the latest run is kept and not cancelled. -/
theorem of_running (h : s.Booked) (hg : s.Guarded)
    (hrunning : s.stopping? x = some (.finalizing n)) :
    n + 1 = s.generation ∧ n + 1 = s.finalizers ∧ s.token = some n ∧
      ∃ run, s.runs[n]? = some run ∧ run.generation = s.generation ∧ run.cancelled = false := by
  have hpending := hg.stops x (hold_of_stopping? hrunning)
  have hn := h.running x n hrunning
  have hgeneration := hg.generation_eq
  have hfinalizers := h.finalizers_eq
  have hkept := tokenAfter_of_le (n := s.published.length) (by omega)
  rw [← hn] at hkept
  have hr : n < s.runs.length := by
    have := h.runs_eq
    omega
  have hrun := List.getElem?_eq_getElem hr
  obtain ⟨hrun', hc⟩ := Prod.mk.inj (ticket_of_control hg.control hrun)
  refine ⟨by omega, by omega, (token_of_control hg.control).trans hkept, _, hrun, by omega, ?_⟩
  rw [hc, hkept]
  simp

end Booked

/-- **One finalizer a run.** After any moves of a service with a finalizer: while the service is
    stopped, the finalizer has been called as often as a run was started, and while it is ready,
    once less. Runs are created and the finalizer is called by turns, each time while the token of
    the run is not cancelled. While a task runs the finalizer, it has the lock, and the token of the
    latest run is kept and still not cancelled; and from any time on that it has run the finalizer,
    nothing was created and the finalizer was not called again. -/
theorem finalizer_of_every_run {moves : List Move} (hrun : (new true).run? moves = some t) :
    (t.status = .stopped → t.finalizers = t.generation ∧ t.runs.length = t.generation) ∧
    (t.status = .ready → t.finalizers + 1 = t.generation ∧ t.runs.length = t.generation) ∧
    t.marks = Mark.upTo (t.runs.length + t.finalizers) ∧
    (∀ x n, t.stopping? x = some (.finalizing n) → t.lock.holder = some x ∧
      n + 1 = t.generation ∧ n + 1 = t.finalizers ∧ t.token = some n ∧
        ∃ run, t.runs[n]? = some run ∧ run.generation = t.generation ∧ run.cancelled = false) ∧
    ∀ before after s x n, moves = before ++ after → (new true).run? before = some s →
      s.stopping? x = some (.finalizing n) → t.stopping? x = some (.finalizing n) →
        t.marks = s.marks := by
  obtain ⟨hg, h⟩ := booked_of_run? hrun
  have hgeneration := hg.generation_eq
  have hfinalizers := h.finalizers_eq
  have hruns := h.runs_eq
  refine ⟨fun hstopped => ?_, fun hready => ?_, h.marks_eq, fun x n hrunning => ?_, ?_⟩
  · have hn := cycle_eq_stopped_iff.1 (hg.status_eq ▸ hstopped)
    omega
  · have hn := cycle_eq_ready_iff.1 (hg.status_eq ▸ hready)
    omega
  · have hholds : t.hold x ≠ .none := by
      rw [hold_of_stopping? hrunning]
      nofun
    exact ⟨hg.lock x hholds, h.of_running hg hrunning⟩
  · intro before after s x n _ hbefore hs ht
    -- Both times the status has changed as often.
    obtain ⟨hg', h'⟩ := booked_of_run? hbefore
    have hsame : t.published.length = s.published.length := by
      have hn := h.running x n ht
      have hn' := h'.running x n hs
      have := hg.stops x (hold_of_stopping? ht)
      have := hg'.stops x (hold_of_stopping? hs)
      omega
    have hbook : t.book = s.book := by rw [h.book, h'.book, hsame]
    exact congrArg Book.marks hbook

/-- A run is stopped; while the finalizer takes its time another stop and another start ask for the
    lock. -/
def slowMoves : List Move :=
  [.start, .step (.call 0), .step (.call 0), .step (.call 0), .step (.supervisor 0), .step (.run 0),
    .stop, .step (.call 1), .step (.call 1)]

/-- What asks meanwhile. -/
def meanwhileMoves : List Move :=
  [.stop, .start, .step (.call 2), .step (.call 3), .finish 0 .completed, .step (.supervisor 0),
    .step (.supervisor 0)]

/-- The service when the finalizer has been called. -/
def slow : Service := ((new true).run? slowMoves).getD (new true)

/-- The service after that. -/
def meanwhile : Service := (slow.run? meanwhileMoves).getD slow

theorem finalizer_of_every_run_slow :
    (new true).run? (slowMoves ++ meanwhileMoves) = some meanwhile ∧
      meanwhile.lock.holder = some (.call 1) ∧ meanwhile.token = some 0 ∧
      meanwhile.marks = Mark.upTo 2 ∧ meanwhile.marks = slow.marks := by
  have hrun : (new true).run? (slowMoves ++ meanwhileMoves) = some meanwhile := rfl
  obtain ⟨-, -, hmarks, hrunning, hsame⟩ := finalizer_of_every_run hrun
  obtain ⟨hholder, -, -, htoken, -⟩ := hrunning (.call 1) 0 rfl
  exact ⟨hrun, hholder, htoken, hmarks,
    hsame slowMoves meanwhileMoves slow (.call 1) 0 rfl rfl rfl rfl⟩

end Service

end FrameRpc
