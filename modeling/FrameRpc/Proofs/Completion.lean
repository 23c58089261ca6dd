import FrameRpc.Proofs.Concluding
import FrameRpc.Proofs.LockLine

/-!
# The completion of a run

A run that is over does not stay ready, and it stops no other run, however late its supervisor gets
the lock (`Service.completion_of_run`). A start call waits for the supervisor of the run that it has
launched (`Launched`), so that it finds all of this done when it returns.
-/

namespace FrameRpc

namespace Service

variable {s t u : Service} {i r : Nat} {m : Move}

/-! ## What a start call waits for -/

/-- The supervisor of the run with the number has finished. -/
def Closed (s : Service) (r : Nat) : Prop := ∃ run, s.runs[r]? = some run ∧ run.closed = true

/-- Where a start call can stand that has launched a run. -/
inductive Starting.Follows (s : Service) (r : Nat) : Starting → Prop where
  | launching : Follows s r (.launching r)
  | awaiting : Follows s r (.awaiting r)
  | returned (o : Outcome) (h : s.Closed r) : Follows s r (.returned o)

theorem closed_iff : s.Closed r ↔
    s.stopping? (.supervisor r) = some .done ∨ s.stopping? (.supervisor r) = some .panicked := by
  constructor
  · rintro ⟨run, hrun, hclosed⟩
    obtain ⟨o, p, hwatch, rfl | rfl⟩ := run.exists_of_closed hclosed
    · exact .inl (stopping?_of_supervisor hrun hwatch)
    · exact .inr (stopping?_of_supervisor hrun hwatch)
  · rintro (h | h)
    all_goals
      obtain ⟨run, o, hrun, hwatch⟩ := exists_run_of_stopping h
      exact ⟨run, hrun, by rw [Run.closed, hwatch]⟩

/-- A supervisor that has finished has finished for good. -/
theorem Step.closed (hstep : s.Step m t) (h : s.Closed r) : t.Closed r := by
  rw [closed_iff] at h ⊢
  rcases h with h | h
  · rcases hstep.stopping_goes h with ht | ⟨u, p', turn, -⟩ | ⟨i, hi, -⟩
    · exact .inl ht
    · cases turn
    · cases hi
  · rcases hstep.stopping_goes h with ht | ⟨u, p', turn, -⟩ | ⟨i, hi, -⟩
    · exact .inr ht
    · cases turn
    · cases hi

theorem Step.created_cases (hstep : s.Step m t) (h : .created r i ∈ t.log) :
    .created r i ∈ s.log ∨ t.calls[i]? = some (.start (.launching r)) := by
  have hlog {events : List Event} (h : .created r i ∈ s.log ++ events)
      (hnot : .created r i ∉ events) : .created r i ∈ s.log :=
    (List.mem_append.1 h).resolve_right hnot
  cases hstep with
  | start | stop | dropIdle | dropWaiting => exact .inl h
  | dropFinalizing => exact .inl (hlog h (by simp))
  | runTurn hrun turn =>
    refine .inl (hlog h ?_)
    cases turn <;> simp
  | startTurn hcall turn =>
    cases turn with
    | launch =>
      rcases List.mem_append.1 h with h | h
      · exact .inl h
      · obtain ⟨rfl, rfl⟩ := Event.created.inj (List.mem_singleton.1 h)
        exact .inr (List.getElem?_set_self (List.getElem?_eq_some_iff.1 hcall).1)
    | ask | crash | skip | await | leave | unwind | join | joinPanicked => exact .inl h
  | @stopTurn x _ _ p' u hstop turn =>
    left
    have hplace : (u.placeStopping p' x).log = u.log := by cases x <;> rfl
    rw [hplace] at h
    cases turn with
    | finalize | finalized => exact hlog h (by simp)
    | cancel =>
      rw [cancelToken] at h
      cases htoken : s.token with
      | none =>
        rw [htoken] at h
        exact h
      | some k =>
        rw [htoken] at h
        exact h
    | ask | close | pass | panic | leave | unwind => exact h

theorem Step.calls_le (hstep : s.Step m t) : s.calls.length ≤ t.calls.length := by
  cases hstep with
  | start | stop => exact Nat.le_of_lt (by simp)
  | startTurn hcall turn => exact Nat.le_of_eq (by simp [placeCall, turn.calls_eq])
  | @stopTurn x _ _ p' u hstop turn =>
    cases x <;> exact Nat.le_of_eq (by simp [placeStopping, placeCall, modifyRun, turn.calls_eq])
  | runTurn => exact Nat.le_refl _
  | dropIdle | dropWaiting | dropFinalizing => exact Nat.le_of_eq (List.length_set ..).symm

/-- A start call that has launched a run follows it, and has nothing to return before the supervisor
    of the run has finished. -/
structure Launched (s : Service) : Prop where
  known : ∀ r i, .created r i ∈ s.log → i < s.calls.length
  follows : ∀ r i p, .created r i ∈ s.log → s.calls[i]? = some (.start p) → p.Follows s r
  launched : ∀ i p r, s.calls[i]? = some (.start p) → p = .launching r ∨ p = .awaiting r →
    .created r i ∈ s.log
  returned : ∀ i o, s.calls[i]? = some (.start (.returned o)) →
    o = .skipped ∨ ∃ r, .created r i ∈ s.log

theorem launched_new (finalizes : Bool) : (new finalizes).Launched where
  known := fun _ _ h => nomatch h
  follows := fun _ _ _ h => nomatch h
  launched := fun _ _ _ h => nomatch h
  returned := fun _ _ h => nomatch h

namespace Launched

theorem known_step (h : s.Launched) (hstep : s.Step m t) (hcreated : .created r i ∈ t.log) :
    i < t.calls.length := by
  rcases hstep.created_cases hcreated with hcreated | hnew
  · exact Nat.lt_of_lt_of_le (h.known r i hcreated) hstep.calls_le
  · exact (List.getElem?_eq_some_iff.1 hnew).1

theorem follows_step (h : s.Launched) (hstep : s.Step m t) {p' : Starting}
    (hcreated : .created r i ∈ t.log) (hcall : t.calls[i]? = some (.start p')) :
    p'.Follows t r := by
  rcases hstep.created_cases hcreated with hbefore | hnew
  · rcases hstep.start_cases hcall with hs | ⟨-, hcome⟩ | ⟨p, u, hp, turn, rfl⟩
    · cases h.follows r i p' hbefore hs with
      | launching => exact .launching
      | awaiting => exact .awaiting
      | returned o hclosed => exact .returned o (hstep.closed hclosed)
    · exact absurd (h.known r i hbefore) (Nat.not_lt.2 hcome)
    · cases h.follows r i p hbefore hp with
      | launching =>
        cases turn with
        | await => exact .awaiting
      | awaiting =>
        cases turn with
        | join hrun hwatch | joinPanicked hrun hwatch =>
          exact .returned _ (hstep.closed ⟨_, hrun, by rw [Run.closed, hwatch]⟩)
      | returned => cases turn
  · obtain rfl := Call.start.inj (Option.some.inj (hnew.symm.trans hcall))
    exact .launching

theorem launched_step (h : s.Launched) (hstep : s.Step m t) {p' : Starting}
    (hcall : t.calls[i]? = some (.start p')) (hp' : p' = .launching r ∨ p' = .awaiting r) :
    .created r i ∈ t.log := by
  rcases hstep.start_cases hcall with hs | ⟨rfl, -⟩ | ⟨p, u, hp, turn, rfl⟩
  · exact hstep.log_subset (h.launched i p' r hs hp')
  · rcases hp' with hp' | hp' <;> cases hp'
  · cases turn with
    | launch =>
      rcases hp' with hp' | hp'
      · obtain rfl := Starting.launching.inj hp'
        exact List.mem_append_right _ (List.mem_singleton_self _)
      · cases hp'
    | await =>
      rcases hp' with hp' | hp'
      · cases hp'
      · obtain rfl := Starting.awaiting.inj hp'
        exact h.launched i _ _ hp (.inl rfl)
    | ask | crash | skip | leave | unwind | join | joinPanicked =>
      rcases hp' with hp' | hp' <;> cases hp'

theorem returned_step (h : s.Launched) (hstep : s.Step m t) {o : Outcome}
    (hcall : t.calls[i]? = some (.start (.returned o))) :
    o = .skipped ∨ ∃ r, .created r i ∈ t.log := by
  rcases hstep.start_cases hcall with hs | ⟨hcome, -⟩ | ⟨p, u, hp, turn, rfl⟩
  · exact (h.returned i o hs).imp_right fun ⟨r, hr⟩ => ⟨r, hstep.log_subset hr⟩
  · cases hcome
  · cases turn with
    | leave => exact .inl rfl
    | join | joinPanicked => exact .inr ⟨_, h.launched i _ _ hp (.inr rfl)⟩

theorem step (h : s.Launched) (hstep : s.Step m t) : t.Launched where
  known := fun _ _ => h.known_step hstep
  follows := fun _ _ _ => h.follows_step hstep
  launched := fun _ _ _ => h.launched_step hstep
  returned := fun _ _ => h.returned_step hstep

end Launched

/-- What is known of a service that was new once. -/
theorem launched_of_run? {finalizes : Bool} {moves : List Move}
    (hrun : (new finalizes).run? moves = some t) : t.Launched :=
  of_run? (fun hstep h => h.step hstep) (launched_new finalizes) hrun

/-! ## Completion -/

/-- **Completion.** After any moves of a service:
    * what a supervisor does changes the control only if its run is the current one and the service
      is ready, or was when the supervisor found it so and began to stop it; it touches no other
      run;
    * once the supervisor of a run has finished, the service is never again ready with this run;
    * if the service is ready and the task of the current run is over, then the supervisor of the
      run still has work to do: it can take a step, or waits for the lock behind somebody who can;
    * when a start call returns that was not skipped, the supervisor of the run that it launched has
      finished, the service is not ready with this run, and the finalizer has been called for it and
      is done, unless it was given up. -/
theorem completion_of_run {finalizes : Bool} {moves : List Move}
    (hrun : (new finalizes).run? moves = some t) :
    (∀ (r : Nat) (run : Run) m u, t.runs[r]? = some run → m.supervisor? = some r →
      t.perform? m = some u → u.control ≠ t.control →
      run.generation = t.generation ∧ t.lock.holder = some (.supervisor r) ∧
        (t.status = .ready ∨ t.hold (.supervisor r) = .stops) ∧
        ∀ k, k ≠ r → u.runs[k]?.map Run.ticket = t.runs[k]?.map Run.ticket) ∧
    (∀ r : Nat, t.hold (.supervisor r) = .stops →
      ∃ before after s, ∃ run : Run, moves = before ++ .step (.supervisor r) :: after ∧
        (new finalizes).run? before = some s ∧ s.runs[r]? = some run ∧ s.status = .ready ∧
        run.generation = s.generation) ∧
    (∀ (r : Nat) (run : Run), t.runs[r]? = some run → run.closed = true →
      ∀ later u, t.run? later = some u → ¬ (u.status = .ready ∧ u.generation = run.generation)) ∧
    (t.status = .ready → ∀ (r : Nat) (run : Run), t.runs[r]? = some run →
      run.generation = t.generation → run.over = true → run.closed = false ∧
        ((t.step? (.supervisor r)).isSome = true ∨ t.stopping? (.supervisor r) = some .queued ∧
          ∃ y, t.lock.holder = some y ∧ (t.step? y).isSome = true)) ∧
    ∀ (i : Nat) (o : Outcome), t.calls[i]? = some (.start (.returned o)) → o ≠ .skipped →
      (∃ r : Nat, .created r i ∈ t.log) ∧ ∀ r : Nat, .created r i ∈ t.log →
        ∃ run : Run, t.runs[r]? = some run ∧ run.closed = true ∧
        ¬ (t.status = .ready ∧ t.generation = run.generation) ∧
        (finalizes = true → .finalizing r false ∈ t.log ∧
          (r ∉ (new true).givenUp moves → .finalized r ∈ t.log)) := by
  obtain ⟨hg, ht⟩ := timely_of_run? hrun
  obtain ⟨hlined, hheeds⟩ := lined_of_run? hrun
  have hlaunched := launched_of_run? hrun
  refine ⟨fun r run m u hown hm hu hne => ?_, fun r hstops => ?_,
    fun r run hown hclosed later u => ?_,
    fun hready r run hown hcurrent hover => ?_, fun i o hcall ho => ⟨?_, fun r hcreated => ?_⟩⟩
  · exact ht.of_control_ne hg (step_of_perform? hu) hm hown hne
  · exact exists_entrance hrun nofun hstops
  · exact ht.not_current hg hown hclosed later
  · exact step_of_over ht hg hlined hheeds hready hown hcurrent hover
  · exact (hlaunched.returned i o hcall).resolve_left ho
  · obtain ⟨run, hown, hclosed⟩ : t.Closed r := by
      cases hlaunched.follows r i _ hcreated hcall with
      | returned _ hclosed => exact hclosed
    refine ⟨run, hown, hclosed, ht.not_current hg hown hclosed [] rfl, ?_⟩
    rintro rfl
    exact finalized_of_closed hrun hown hclosed

/-- A run is done by itself while a stop runs the finalizer, and its supervisor asks for the lock
    behind another start. When the supervisor has passed the lock on, and the start call has
    returned, the second run panics. -/
def lateMoves : List Move :=
  [.start, .step (.call 0), .step (.call 0), .step (.call 0), .step (.supervisor 0), .step (.run 0),
    .stop, .step (.call 1), .step (.call 1), .finish 0 .completed, .notice 0,
    .start, .step (.call 2), .step (.supervisor 0),
    .finalize (.call 1), .step (.call 1), .step (.call 1), .step (.call 2), .step (.call 2),
    .step (.supervisor 0), .step (.supervisor 0), .step (.call 0),
    .step (.supervisor 1), .step (.run 1), .finish 1 .panicked]

/-- The service after these moves. -/
def late : Service := ((new true).run? lateMoves).getD (new true)

/-- The late supervisor has left the second run alone, and that of the second run can go on. -/
theorem completion_of_run_late :
    (new true).run? lateMoves = some late ∧ late.status = .ready ∧ late.generation = 2 ∧
      (∃ run : Run, late.runs[0]? = some run ∧ run.closed = true ∧ run.generation = 1 ∧
        (∀ later u, late.run? later = some u →
          ¬ (u.status = .ready ∧ u.generation = run.generation)) ∧
        .finalized 0 ∈ late.log) ∧
      (late.step? (.supervisor 1)).isSome = true := by
  have hrun : (new true).run? lateMoves = some late := rfl
  obtain ⟨-, -, hnever, hready, hreturned⟩ := completion_of_run hrun
  obtain ⟨-, hfinalized⟩ := hreturned 0 .completed rfl nofun
  obtain ⟨run, hown, hclosed, -, hdone⟩ := hfinalized 0 (.head _)
  have hgeneration : run.generation = 1 := (congrArg Run.generation (Option.some.inj hown)).symm
  refine ⟨hrun, rfl, rfl, ⟨run, hown, hclosed, hgeneration, hnever 0 run hown hclosed,
    (hdone rfl).2 (by decide)⟩, ?_⟩
  obtain ⟨-, hgoes | ⟨hqueued, -⟩⟩ := hready rfl 1 _ rfl rfl rfl
  · exact hgoes
  · cases hqueued

end Service

end FrameRpc
