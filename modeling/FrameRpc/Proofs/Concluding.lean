import FrameRpc.Proofs.Abandonment
import FrameRpc.Proofs.Finalizers
import FrameRpc.Proofs.LateStops

/-!
# Concluded runs

The finalizer of a run is called while the service is stopped for this run, and it is done before the
token is cancelled, unless it is given up: it panics, or the caller of the stop drops it meanwhile
(`givenUp`). A supervisor that has passed the lock on finds its run concluded: the service has been
stopped for it, or its finalizer has been given up (`Concluded.passed`). So once the supervisor of a
run has finished, the finalizer has been called for the run, and unless it was given up it is done
(`finalized_of_closed`).
-/

namespace FrameRpc

namespace Service

/-! ## Finalizers that are given up -/

/-- The stop that gives its finalizer up when it panics or is dropped. -/
def finalizing? (s : Service) (x : Task) : Option Nat :=
  match s.stopping? x with
  | some (.finalizing n) => some n
  | _ => none

/-- The finalizer that a move gives up. -/
def givesUp? (s : Service) : Move → Option Nat
  | .panic x => s.finalizing? x
  | .drop i => s.finalizing? (.call i)
  | .start | .stop | .step _ | .notice _ | .finish _ _ | .finalize _ => none

/-- The finalizers that some moves give up. -/
def givenUp (s : Service) : List Move → List Nat
  | [] => []
  | m :: rest => (s.givesUp? m).toList ++ (s.perform? m).elim [] fun t => givenUp t rest

/-- The stop hands the lock on, or has done so. -/
def Stopping.passed : Stopping → Bool
  | .unlocking | .unwinding | .done | .panicked => true
  | .arriving | .queued | .finalizing _ | .cancelling => false

variable {s t u : Service} {x : Task} {n r : Nat} {p p' : Stopping} {m : Move}
  {lost : List Nat}

theorem finalizing?_of_stopping? (h : s.stopping? x = some (.finalizing n)) :
    s.finalizing? x = some n := by
  rw [finalizing?, h]

theorem Stopping.entered_of_passed (h : p.passed = true) : p.entered = true := by
  cases p with
  | unlocking | unwinding | done | panicked => rfl
  | arriving | queued | finalizing | cancelling => cases h

theorem Stopping.eq_of_hold (h : p.hold = .stops) : p = .cancelling ∨ ∃ n, p = .finalizing n := by
  cases p with
  | finalizing n => exact .inr ⟨n, rfl⟩
  | cancelling => exact .inl rfl
  | arriving | queued | unlocking | unwinding | done | panicked => cases h

/-- Whoever has the lock and stops the service stands at a stop. -/
theorem exists_stopping_of_stops (h : s.hold x = .stops) :
    ∃ p, s.stopping? x = some p ∧ p.hold = .stops := by
  cases x with
  | call i =>
    rw [hold] at h
    cases hcall : s.calls[i]? with
    | none =>
      rw [hcall] at h
      cases h
    | some c =>
      rw [hcall] at h
      cases c with
      | start p => exact absurd h (Starting.hold_ne_stops p)
      | stop p => exact ⟨p, stopping?_of_call hcall, h⟩
      | dropped => cases h
  | supervisor r =>
    have hhas : s.hold (.supervisor r) ≠ .none := by
      rw [h]
      exact Hold.noConfusion
    obtain ⟨p, hp, hhold⟩ := exists_stopping_of_hold hhas
    exact ⟨p, hp, hhold.trans h⟩
  | run r => cases h

theorem Step.log_subset (hstep : s.Step m t) {e : Event} (he : e ∈ s.log) : e ∈ t.log := by
  have hplace (u : Service) (p : Stopping) (x : Task) : (u.placeStopping p x).log = u.log := by
    cases x <;> rfl
  cases hstep with
  | start | stop | dropIdle | dropWaiting => exact he
  | runTurn | dropFinalizing => exact List.mem_append_left _ he
  | startTurn hcall turn =>
    cases turn with
    | launch => exact List.mem_append_left _ he
    | ask | crash | skip | await | leave | unwind | join | joinPanicked => exact he
  | stopTurn hstop turn =>
    rw [hplace]
    cases turn with
    | finalize | finalized => exact List.mem_append_left _ he
    | cancel =>
      rw [cancelToken]
      cases s.token <;> exact he
    | ask | close | pass | panic | leave | unwind => exact he

/-- A stop waits for nothing but the lock and the finalizer, so it is dropped nowhere else. -/
theorem Step.ne_cancelling_of_drop {i : Nat} (hstep : s.Step (.drop i) t) :
    s.stopping? (.call i) ≠ some .cancelling := by
  intro h
  obtain ⟨j, hj, hcall⟩ | ⟨k, -, -, hk, -⟩ := exists_of_stopping? h
  · obtain rfl := Task.call.inj hj
    cases hstep with
    | startTurn _ turn | stopTurn _ turn => cases turn
    | runTurn _ turn =>
      cases turn with
      | notice hm => rcases hm with hm | ⟨hm, -⟩ <;> cases hm
    | dropIdle hown hidle =>
      obtain rfl := Option.some.inj (hown.symm.trans hcall)
      cases hidle
    | dropWaiting hown hwaits =>
      obtain rfl := Option.some.inj (hown.symm.trans hcall)
      cases hwaits
    | dropFinalizing hown => cases hown.symm.trans hcall
  · cases hk

/-! ## How the status changes -/

theorem published_cancelToken (s : Service) :
    s.cancelToken.published = s.published ++ [.stopped] := by
  rw [cancelToken]
  cases s.token <;> rfl

/-- How a step changes the status. -/
inductive Change (s t : Service) : Prop where
  /-- It does not. -/
  | none (h : t.published.length = s.published.length)
  /-- A start finds the service stopped. -/
  | start (hstatus : s.status = .stopped)
  /-- A stop finds it ready. -/
  | enter (hstatus : s.status = .ready) (hstops : t.Stops)
    (h : t.published.length = s.published.length + 1)
  /-- A stop is done. -/
  | leave {x : Task} (hstop : s.stopping? x = some .cancelling)
    (h : t.published.length = s.published.length + 1)

theorem Step.change (hstep : s.Step m t) : Change s t := by
  cases hstep with
  | start | stop | runTurn | dropIdle | dropWaiting | dropFinalizing => exact .none rfl
  | startTurn hcall turn =>
    cases turn with
    | launch hlock hstatus | crash hlock hstatus => exact .start hstatus
    | ask | skip | await | leave | unwind | join | joinPanicked => exact .none rfl
  | stopTurn hstop turn =>
    have hturned := turn.turned hstop
    have hpublished := fun u p x => congrArg List.length (published_placeStopping u p x)
    cases turn with
    | finalize _ hready | close _ hready =>
      exact .enter hready ⟨_, hturned.own⟩ ((hpublished ..).trans List.length_append)
    | cancel =>
      refine .leave hstop ((hpublished ..).trans ?_)
      rw [published_cancelToken, List.length_append, List.length_singleton]
    | ask | pass | finalized | panic | leave | unwind => exact .none (hpublished ..)

/-! ## The invariant -/

/-- Runs of a service with a finalizer are concluded by the finalizer, unless it is among those that
    were given up. -/
structure Concluded (lost : List Nat) (s : Service) : Prop where
  /-- A stop goes on until it is done or given up. -/
  stops : s.published.length % 4 = 3 → s.Stops ∨ s.published.length / 4 ∈ lost
  /-- Before the token is cancelled the finalizer is done. -/
  cancelling : ∀ x, s.stopping? x = some .cancelling → .finalized (s.published.length / 4) ∈ s.log
  finalized : ∀ k, 4 * k + 4 ≤ s.published.length → .finalized k ∈ s.log
  /-- A supervisor that passes the lock on has stopped the service or found that somebody had. -/
  passed : ∀ r p, s.stopping? (.supervisor r) = some p → p.passed = true →
    4 * r + 4 ≤ s.published.length ∨ r ∈ lost

theorem concluded_new : Concluded [] (new true) where
  stops := fun h => nomatch h
  cancelling x h := by cases x <;> cases h
  finalized := fun _ h => nomatch h
  passed := fun _ _ h => nomatch h

namespace Concluded

/-- Somebody stops the service and goes on with it, unless the finalizer is given up. -/
theorem stops_step (h : Concluded lost s) (hg : s.Guarded) (hb : s.Booked) (hstep : s.Step m t)
    (hpending : t.published.length % 4 = 3) :
    t.Stops ∨ t.published.length / 4 ∈ lost ++ (s.givesUp? m).toList := by
  have hle := hstep.published_le
  cases hstep.change with
  | start hstatus =>
    have hn := cycle_eq_stopped_iff.1 (hg.status_eq ▸ hstatus)
    omega
  | enter _ hstops => exact .inl hstops
  | leave hstop hlength =>
    have hn := hg.stops _ (hold_of_stopping? hstop)
    omega
  | none hlength =>
    rw [hlength] at hpending ⊢
    rcases h.stops hpending with ⟨x, hx⟩ | hlost
    · obtain ⟨p, hp, hhold⟩ := exists_stopping_of_stops hx
      have hkeeps (q : Stopping) (hq : t.stopping? x = some q) (hhold : q.hold = .stops) :
          t.Stops := ⟨x, (hold_of_stopping? hq).trans hhold⟩
      rcases hstep.stopping_goes hp with ht | ⟨u, p', turn, rfl⟩ | ⟨i, rfl, rfl⟩
      · exact .inl (hkeeps p ht hhold)
      · have hturned := turn.turned hp
        rcases Stopping.eq_of_hold hhold with rfl | ⟨n, rfl⟩
        · cases turn with
          | cancel =>
            rw [published_placeStopping, published_cancelToken, List.length_append,
              List.length_singleton] at hlength
            omega
        · cases turn with
          | finalized => exact .inl ⟨x, hturned.own⟩
          | panic =>
            right
            rw [givesUp?, finalizing?_of_stopping? hp, hb.running x n hp]
            exact List.mem_append_right _ (List.mem_singleton_self _)
      · rcases Stopping.eq_of_hold hhold with rfl | ⟨n, rfl⟩
        · exact absurd hp hstep.ne_cancelling_of_drop
        · right
          rw [givesUp?, finalizing?_of_stopping? hp, hb.running _ n hp]
          exact List.mem_append_right _ (List.mem_singleton_self _)
    · exact .inr (List.mem_append_left _ hlost)

theorem cancelling_step (h : Concluded lost s) (hg : s.Guarded) (hb : s.Booked)
    (hstep : s.Step m t) (hx : t.stopping? x = some .cancelling) :
    .finalized (t.published.length / 4) ∈ t.log := by
  have hle := hstep.published_le
  have hpending := (hg.step hstep).stops x (hold_of_stopping? hx)
  rcases hstep.stopping_cases hx with hs | hp | ⟨p₀, u, hp₀, turn, rfl⟩
  · have hbefore := hg.stops x (hold_of_stopping? hs)
    rw [show t.published.length = s.published.length by omega]
    exact hstep.log_subset (h.cancelling x hs)
  · cases hp
  · cases turn with
    | finalized n =>
      have hn := hb.running x n hp₀
      have hlog : (((s.tell (.finalized n)).placeStopping .cancelling x).log) =
          s.log ++ [.finalized n] := by
        cases x <;> rfl
      rw [published_placeStopping, hlog]
      exact List.mem_append_right _ (List.mem_singleton.2 (congrArg _ hn.symm))
    | close _ _ _ hfinalizes =>
      -- There is a finalizer.
      have hbook := congrArg Book.finalizes hb.book
      exact nomatch hfinalizes.symm.trans hbook

theorem finalized_step (h : Concluded lost s) (hg : s.Guarded) (hstep : s.Step m t) {k : Nat}
    (hk : 4 * k + 4 ≤ t.published.length) : .finalized k ∈ t.log := by
  by_cases hold : 4 * k + 4 ≤ s.published.length
  · exact hstep.log_subset (h.finalized k hold)
  · have hle := hstep.published_le
    cases hstep.change with
    | none hlength => omega
    | start hstatus =>
      have hn := cycle_eq_stopped_iff.1 (hg.status_eq ▸ hstatus)
      omega
    | enter hstatus =>
      have hn := cycle_eq_ready_iff.1 (hg.status_eq ▸ hstatus)
      omega
    | leave hstop hlength =>
      have hdone := h.cancelling _ hstop
      rw [show s.published.length / 4 = k by omega] at hdone
      exact hstep.log_subset hdone

theorem passed_step (h : Concluded lost s) (hg : s.Guarded) (hb : s.Booked) (ht : s.Timely)
    (hstep : s.Step m t) (hp : t.stopping? (.supervisor r) = some p) (hpassed : p.passed = true) :
    4 * r + 4 ≤ t.published.length ∨ r ∈ lost ++ (s.givesUp? m).toList := by
  have hmono (h : 4 * r + 4 ≤ s.published.length ∨ r ∈ lost) :
      4 * r + 4 ≤ t.published.length ∨ r ∈ lost ++ (s.givesUp? m).toList :=
    h.imp (fun h => Nat.le_trans h hstep.published_le.1) (List.mem_append_left _)
  have hentered := (ht.step hg hstep).entered r p hp (Stopping.entered_of_passed hpassed)
  rcases hstep.stopping_cases hp with hs | rfl | ⟨p₀, u, hp₀, turn, rfl⟩
  · exact hmono (h.passed r p hs hpassed)
  · cases hpassed
  · rw [published_placeStopping] at hentered ⊢
    cases turn with
    | ask | finalize | close | finalized => cases hpassed
    | pass hlock =>
      by_cases hdone : 4 * r + 4 ≤ s.published.length
      · exact .inl hdone
      · -- The service is pending for its run, and nobody stops it while the supervisor has the lock.
        right
        have hlength : s.published.length = 4 * r + 3 := by omega
        rcases h.stops (by omega) with ⟨y, hy⟩ | hlost
        · have hholder := hg.holder_of_stops hy
          obtain rfl := Option.some.inj (hlock.symm.trans hholder)
          cases hy.symm.trans (hold_of_stopping? hp₀)
        · rw [show s.published.length / 4 = r by omega] at hlost
          exact List.mem_append_left _ hlost
    | panic n =>
      right
      have hlength := ht.stops r (hold_of_stopping? hp₀)
      have hn := hb.running _ n hp₀
      rw [givesUp?, finalizing?_of_stopping? hp₀, show n = r by omega]
      exact List.mem_append_right _ (List.mem_singleton_self _)
    | cancel =>
      left
      have hlength := ht.stops r (hold_of_stopping? hp₀)
      rw [published_cancelToken, List.length_append, List.length_singleton]
      omega
    | leave | unwind => exact hmono (h.passed r _ hp₀ rfl)

theorem step (h : Concluded lost s) (hg : s.Guarded) (hb : s.Booked) (ht : s.Timely)
    (hstep : s.Step m t) : Concluded (lost ++ (s.givesUp? m).toList) t where
  stops := h.stops_step hg hb hstep
  cancelling := fun _ => h.cancelling_step hg hb hstep
  finalized := fun _ => h.finalized_step hg hstep
  passed := fun _ _ => h.passed_step hg hb ht hstep

theorem run (h : Concluded lost s) (hg : s.Guarded) (hb : s.Booked) (ht : s.Timely)
    {moves : List Move} (hrun : s.run? moves = some t) : Concluded (lost ++ s.givenUp moves) t := by
  induction moves generalizing s lost with
  | nil =>
    obtain rfl := Option.some.inj hrun
    rwa [givenUp, List.append_nil]
  | cons m rest ih =>
    obtain ⟨u, hu, hrest⟩ := Option.bind_eq_some_iff.1 hrun
    have hstep := step_of_perform? hu
    have hfinal := ih (h.step hg hb ht hstep) (hg.step hstep) (hb.step hg hstep)
      (ht.step hg hstep) hrest
    rwa [givenUp, hu, Option.elim_some, ← List.append_assoc]

end Concluded

/-! ## What the invariant says -/

theorem Booked.finalizing_mem (h : s.Booked) (hr : 4 * r + 3 ≤ s.published.length) :
    .finalizing r false ∈ s.log := by
  have hmark : Mark.at (2 * r + 1) = .finalizing r false := by
    rw [Mark.at, if_neg (by omega)]
    congr 1
    omega
  have hmem : Mark.finalizing r false ∈ s.marks := by
    rw [h.marks_eq, h.runs_eq, h.finalizers_eq, Mark.upTo, List.mem_map]
    exact ⟨2 * r + 1, List.mem_range.2 (by omega), hmark⟩
  obtain ⟨e, he, hmark⟩ := List.mem_filterMap.1 hmem
  cases e with
  | finalizing n c =>
    obtain ⟨rfl, rfl⟩ := Mark.finalizing.inj (Option.some.inj hmark)
    exact he
  | created => cases Option.some.inj hmark
  | started | ended | dropped | finalized | unfinalized => cases hmark

/-- Once the supervisor of a run has finished, the finalizer has been called for the run, and unless
    it was given up, it is done. -/
theorem finalized_of_closed {moves : List Move} {run : Run}
    (hrun : (new true).run? moves = some t) (hown : t.runs[r]? = some run)
    (hclosed : run.closed = true) :
    .finalizing r false ∈ t.log ∧ (r ∉ (new true).givenUp moves → .finalized r ∈ t.log) := by
  obtain ⟨hg, hb⟩ := booked_of_run? hrun
  obtain ⟨-, ht⟩ := timely_of_run? hrun
  have h := concluded_new.run (guarded_new true) booked_new (timely_new true) hrun
  rw [List.nil_append] at h
  refine ⟨hb.finalizing_mem (ht.length_of_closed hown hclosed), fun hkept => ?_⟩
  obtain ⟨o, p, hwatch, hp⟩ := run.exists_of_closed hclosed
  have hpassed : p.passed = true := by
    rcases hp with rfl | rfl <;> rfl
  rcases h.passed r p (stopping?_of_supervisor hown hwatch) hpassed with hlength | hlost
  · exact h.finalized r hlength
  · exact absurd hlost hkept

end Service

end FrameRpc
