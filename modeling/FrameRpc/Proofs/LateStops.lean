import FrameRpc.Proofs.RunControl

/-!
# Late stops

When a run is over, its supervisor stops the service, but it may get the lock late: after another
stop, after a restart, or while a finalizer still takes its time. How often the status has changed
tells whether it is late: the run with the number `r` is the current one of a service that is ready
exactly after `4 * r + 2` changes (`Guarded.current_iff`). A supervisor that has got the lock leaves
at least one change more behind (`Timely`). So it never stops another run than its own
(`Timely.of_control_ne`), and once it has finished, the service is not ready with its run any more
(`Timely.not_current`).
-/

namespace FrameRpc

namespace Service

/-- The stop has got the lock. -/
def Stopping.entered : Stopping → Bool
  | .finalizing _ | .cancelling | .unlocking | .unwinding | .done | .panicked => true
  | .arriving | .queued => false

/-- The supervisor of the run has finished. -/
def Run.closed (run : Run) : Bool :=
  match run.watch with
  | .closing _ .done | .closing _ .panicked => true
  | _ => false

/-- The supervisor that takes a move. -/
def Move.supervisor? : Move → Option Nat
  | .step (.supervisor r) | .notice r | .finalize (.supervisor r) | .panic (.supervisor r) => some r
  | _ => none

variable {s t u : Service} {r : Nat} {run : Run} {p : Stopping} {m : Move}

theorem Run.exists_of_closed (h : run.closed = true) :
    ∃ o p, run.watch = .closing o p ∧ (p = .done ∨ p = .panicked) := by
  rw [closed] at h
  split at h
  · rename_i o hwatch
    exact ⟨o, _, hwatch, .inl rfl⟩
  · rename_i o hwatch
    exact ⟨o, _, hwatch, .inr rfl⟩
  · cases h

theorem Stopping.entered_of_hold (h : p.hold ≠ .none) : p.entered = true := by
  cases p with
  | arriving | queued | done | panicked => exact absurd rfl h
  | finalizing | cancelling | unlocking | unwinding => rfl

/-- A supervisor that has the lock stops the service. -/
theorem exists_stopping_of_hold (h : s.hold (.supervisor r) ≠ .none) :
    ∃ p, s.stopping? (.supervisor r) = some p ∧ p.hold = s.hold (.supervisor r) := by
  rw [hold_eq_place] at h ⊢
  cases hplace : s.place? (.supervisor r) with
  | none =>
    rw [hplace] at h
    exact absurd rfl h
  | some w =>
    obtain ⟨run, hrun, rfl⟩ := Option.map_eq_some_iff.1 hplace
    rw [hplace] at h
    cases hwatch : run.watch with
    | closing o p => exact ⟨p, stopping?_of_supervisor hrun hwatch, rfl⟩
    | fresh | watching | interrupting =>
      rw [hwatch] at h
      exact absurd rfl h

theorem exists_run_of_stopping (h : s.stopping? (.supervisor r) = some p) :
    ∃ run o, s.runs[r]? = some run ∧ run.watch = .closing o p := by
  rcases exists_of_stopping? h with ⟨i, hi, -⟩ | ⟨k, run, o, hk, hrun, hwatch⟩
  · cases hi
  · obtain rfl := Task.supervisor.inj hk
    exact ⟨run, o, hrun, hwatch⟩

theorem only?_supervisor (hrun : s.runs[r]? = some run) :
    s.only? (.supervisor r) = some run.generation := by
  rw [only?, hrun, Option.map_some]

/-! ## When a run is the current one -/

theorem Guarded.generation_of_run (h : s.Guarded) (hrun : s.runs[r]? = some run) :
    run.generation = r + 1 :=
  (Prod.mk.inj (ticket_of_control h.control hrun)).1

theorem Guarded.le_of_run (h : s.Guarded) (hrun : s.runs[r]? = some run) :
    4 * r + 2 ≤ s.published.length := by
  have hr := (List.getElem?_eq_some_iff.1 hrun).1
  have hruns := runs_of_control h.control
  omega

/-- The service is ready, and the run is the current one. -/
theorem Guarded.current_iff (h : s.Guarded) (hrun : s.runs[r]? = some run) :
    s.status = .ready ∧ run.generation = s.generation ↔ s.published.length = 4 * r + 2 := by
  rw [h.status_eq, cycle_eq_ready_iff, h.generation_of_run hrun, h.generation_eq]
  omega

/-- A supervisor that has got the lock has waited for its run to be stopped, or stops it itself. -/
structure Timely (s : Service) : Prop where
  entered : ∀ r p, s.stopping? (.supervisor r) = some p → p.entered = true →
    4 * r + 3 ≤ s.published.length
  stops : ∀ r, s.hold (.supervisor r) = .stops → s.published.length = 4 * r + 3

theorem timely_new (finalizes : Bool) : (new finalizes).Timely where
  entered := fun _ _ h => nomatch h
  stops := fun _ h => nomatch h

namespace Timely

/-- The turns of a supervisor that has the lock or gets it. -/
theorem entered_turn (h : s.Timely) (hg : s.Guarded) {p₀ : Stopping}
    (hp₀ : s.stopping? (.supervisor r) = some p₀) (turn : StopTurn s (.supervisor r) m p₀ u p)
    (hentered : p.entered = true) : 4 * r + 3 ≤ u.published.length := by
  obtain ⟨run, o, hrun, -⟩ := exists_run_of_stopping hp₀
  have honly := only?_supervisor hrun
  cases turn with
  | ask => cases hentered
  | finalize _ hready hcurrent | close _ hready hcurrent =>
    have hlength := (hg.current_iff hrun).1 ⟨hready, hcurrent _ honly⟩
    show 4 * r + 3 ≤ (s.published ++ [_]).length
    rw [List.length_append, List.length_singleton]
    omega
  | pass _ hnot =>
    -- Its run has been there, and is not the current one any more.
    have hle := hg.le_of_run hrun
    have hne : s.published.length ≠ 4 * r + 2 := fun hlength => by
      obtain ⟨hready, hcurrent⟩ := (hg.current_iff hrun).2 hlength
      refine hnot ⟨hready, fun g hmem => ?_⟩
      rw [honly] at hmem
      exact Option.some.inj hmem ▸ hcurrent
    omega
  | cancel =>
    have hle := h.entered r _ hp₀ rfl
    have hpublished : s.cancelToken.published = s.published ++ [.stopped] := by
      rw [cancelToken]
      cases s.token <;> rfl
    rw [hpublished, List.length_append]
    exact Nat.le_add_right_of_le hle
  | finalized | panic | leave | unwind => exact h.entered r _ hp₀ rfl

theorem step (h : s.Timely) (hg : s.Guarded) (hstep : s.Step m t) : t.Timely := by
  have hle := hstep.published_le
  have hentered (r : Nat) (p : Stopping) (hp : t.stopping? (.supervisor r) = some p)
      (hentered : p.entered = true) : 4 * r + 3 ≤ t.published.length := by
    rcases hstep.stopping_cases hp with hs | rfl | ⟨p₀, u, hp₀, turn, rfl⟩
    · exact Nat.le_trans (h.entered r p hs hentered) hle.1
    · cases hentered
    · rw [published_placeStopping]
      exact h.entered_turn hg hp₀ turn hentered
  refine ⟨hentered, fun r hstops => ?_⟩
  obtain ⟨p, hp, hhold⟩ := exists_stopping_of_hold (by rw [hstops]; nofun)
  rw [hstops] at hhold
  have hlower := hentered r p hp (Stopping.entered_of_hold (by rw [hhold]; nofun))
  have hpending := (hg.step hstep).stops _ hstops
  -- The status has changed at most twice since its run was the current one or it had the lock.
  suffices s.published.length ≤ 4 * r + 3 by omega
  rcases hstep.stopping_cases hp with hs | rfl | ⟨p₀, u, hp₀, turn, -⟩
  · exact Nat.le_of_eq (h.stops r (by rw [hold_of_stopping? hs, hhold]))
  · cases hhold
  · obtain ⟨run, o, hrun, -⟩ := exists_run_of_stopping hp₀
    cases turn with
    | finalize _ hready hcurrent | close _ hready hcurrent =>
      have hlength := (hg.current_iff hrun).1 ⟨hready, hcurrent _ (only?_supervisor hrun)⟩
      omega
    | finalized => exact Nat.le_of_eq (h.stops r (hold_of_stopping? hp₀))
    | ask | pass | panic | cancel | leave | unwind => cases hhold

end Timely

/-- What is known of a service that was new once. -/
theorem timely_of_run? {finalizes : Bool} {moves : List Move}
    (hrun : (new finalizes).run? moves = some t) : t.Guarded ∧ t.Timely :=
  of_run? (P := fun s => s.Guarded ∧ s.Timely)
    (fun hstep h => ⟨h.1.step hstep, h.2.step h.1 hstep⟩)
    ⟨guarded_new finalizes, timely_new finalizes⟩ hrun

/-! ## What a supervisor changes -/

theorem StopTurn.supervisor?_eq {x : Task} {p' : Stopping} (turn : StopTurn s x m p u p')
    (h : m.supervisor? = some r) : x = .supervisor r := by
  have hx : m = .step x ∨ m = .finalize x ∨ m = .panic x := by
    cases turn <;> simp
  cases x with
  | supervisor k =>
    rcases hx with rfl | rfl | rfl <;> exact congrArg Task.supervisor (Option.some.inj h)
  | call i | run k => rcases hx with rfl | rfl | rfl <;> cases h

theorem StartTurn.supervisor?_eq {i : Nat} {p p' : Starting} (turn : StartTurn s i m p u p') :
    m.supervisor? = none := by
  cases turn <;> rfl

/-- The tickets of other runs stay as they are. -/
theorem Timely.tickets_cancelToken (h : s.Timely) (hg : s.Guarded)
    (hstops : s.hold (.supervisor r) = .stops) {k : Nat} (hk : k ≠ r) :
    s.cancelToken.runs[k]?.map Run.ticket = s.runs[k]?.map Run.ticket := by
  have hlength := h.stops r hstops
  have hkept : s.token = some r := by
    rw [token_of_control hg.control, tokenAfter_of_le (by omega)]
    congr 1
    omega
  rw [cancelToken, hkept]
  show (s.runs.modify r fun run => { run with cancelled := true })[k]?.map Run.ticket = _
  rw [List.getElem?_modify_ne _ _ (Ne.symm hk)]

/-- When a move of a supervisor changes the control, then the supervisor has the lock, its run is the
    current one, the service is ready or it is the supervisor that stops it, and no other run is
    touched. -/
theorem Timely.of_control_ne (h : s.Timely) (hg : s.Guarded) (hstep : s.Step m t)
    (hm : m.supervisor? = some r) (hrun : s.runs[r]? = some run) (hne : t.control ≠ s.control) :
    run.generation = s.generation ∧ s.lock.holder = some (.supervisor r) ∧
      (s.status = .ready ∨ s.hold (.supervisor r) = .stops) ∧
      ∀ k, k ≠ r → t.runs[k]?.map Run.ticket = s.runs[k]?.map Run.ticket := by
  cases hstep with
  | startTurn _ turn => cases turn.supervisor?_eq.symm.trans hm
  | runTurn hown turn => exact absurd (turn.control_eq hown) hne
  | @stopTurn x _ _ p' u hstop turn =>
    obtain rfl := turn.supervisor?_eq hm
    have hcontrol := control_placeStopping u p' (.supervisor r)
    have htickets (k : Nat) : (u.placeStopping p' (.supervisor r)).runs[k]?.map Run.ticket =
        u.runs[k]?.map Run.ticket := by
      have htickets := congrArg (fun c => c.tickets[k]?) hcontrol
      rwa [control, control, List.getElem?_map, List.getElem?_map] at htickets
    cases turn with
    | finalize hlock hready hcurrent | close hlock hready hcurrent =>
      exact ⟨hcurrent _ (only?_supervisor hrun), hlock, .inl hready, fun k _ => htickets k⟩
    | cancel =>
      have hstops := hold_of_stopping? hstop
      have hlength := h.stops r hstops
      have hgeneration := hg.generation_eq
      have hown := hg.generation_of_run hrun
      exact ⟨by omega, hg.lock _ (by rw [hstops]; nofun), .inr hstops,
        fun k hk => (htickets k).trans (h.tickets_cancelToken hg hstops hk)⟩
    | ask | pass | finalized | panic | leave | unwind => exact absurd hcontrol hne
  | start | stop | dropIdle | dropWaiting | dropFinalizing => cases hm

/-- A supervisor that stops the service has found it ready, with its run as the current one. -/
theorem exists_entrance {moves : List Move} (hrun : s.run? moves = some t)
    (hfirst : s.hold (.supervisor r) ≠ .stops) (hstops : t.hold (.supervisor r) = .stops) :
    ∃ before after v run, moves = before ++ .step (.supervisor r) :: after ∧
      s.run? before = some v ∧ v.runs[r]? = some run ∧ v.status = .ready ∧
      run.generation = v.generation := by
  induction moves generalizing s with
  | nil => exact absurd (Option.some.inj hrun ▸ hstops) hfirst
  | cons m rest ih =>
    obtain ⟨u, hu, hrest⟩ := Option.bind_eq_some_iff.1 hrun
    by_cases hnext : u.hold (.supervisor r) = .stops
    · obtain ⟨p, hp, hhold⟩ := exists_stopping_of_hold (by rw [hnext]; nofun)
      rw [hnext] at hhold
      rcases (step_of_perform? hu).stopping_cases hp with hs | rfl | ⟨p₀, v, hp₀, turn, -⟩
      · exact absurd ((hold_of_stopping? hs).trans hhold) hfirst
      · cases hhold
      · obtain ⟨run, o, hown, -⟩ := exists_run_of_stopping hp₀
        cases turn with
        | finalize _ hready hcurrent | close _ hready hcurrent =>
          exact ⟨[], rest, s, run, rfl, rfl, hown, hready, hcurrent _ (only?_supervisor hown)⟩
        | finalized => exact absurd (hold_of_stopping? hp₀) hfirst
        | ask | pass | panic | cancel | leave | unwind => cases hhold
    · obtain ⟨before, after, v, run, rfl, hv, hfound⟩ := ih hrest hnext
      exact ⟨m :: before, after, v, run, rfl, by rw [run?, hu, Option.bind_some, hv], hfound⟩

/-! ## After it has finished -/

theorem published_le_of_run? {moves : List Move} (hrun : s.run? moves = some t) :
    s.published.length ≤ t.published.length :=
  of_run? (P := fun u => s.published.length ≤ u.published.length)
    (fun hstep h => Nat.le_trans h hstep.published_le.1) (Nat.le_refl _) hrun

theorem Timely.length_of_closed (h : s.Timely) (hrun : s.runs[r]? = some run)
    (hclosed : run.closed = true) : 4 * r + 3 ≤ s.published.length := by
  obtain ⟨o, p, hwatch, hp⟩ := run.exists_of_closed hclosed
  refine h.entered r p (stopping?_of_supervisor hrun hwatch) ?_
  rcases hp with rfl | rfl <;> rfl

/-- Once the supervisor of a run has finished, the service is not ready with this run any more. -/
theorem Timely.not_current (h : s.Timely) (hg : s.Guarded) (hrun : s.runs[r]? = some run)
    (hclosed : run.closed = true) (later : List Move) (hlater : s.run? later = some t) :
    ¬ (t.status = .ready ∧ t.generation = run.generation) := by
  rintro ⟨hready, hcurrent⟩
  have hpast := h.length_of_closed hrun hclosed
  have hle := published_le_of_run? hlater
  have ht := hg.run hlater
  have hn := cycle_eq_ready_iff.1 (ht.status_eq ▸ hready)
  have hgeneration := ht.generation_eq
  have hown := hg.generation_of_run hrun
  omega

end Service

end FrameRpc
