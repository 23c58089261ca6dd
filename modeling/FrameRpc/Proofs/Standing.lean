import FrameRpc.Proofs.ServiceSteps

/-!
# Where tasks stand

Calls and supervisors go from one point to the next one at a time: after a move all of them stand
where they stood before, except for the one whose turn it was (`Shifts`), and for a new supervisor
that turns up with its run. What can be told of a task from where it stands (`place?`) is therefore
checked for one task in every step; of a stop, for one, that it has just begun or taken a turn of its
own (`Step.stopping_cases`).
-/

namespace FrameRpc

namespace Service

/-! ## Places -/

/-- Where a task stands. -/
inductive Place where
  /-- A call. -/
  | call (c : Call)
  /-- A supervisor. -/
  | watch (w : Watch)

/-- Where the stop of a task stands, if it is at one. -/
def Place.stopping? : Place → Option Stopping
  | .call (.stop p) | .watch (.closing _ p) => some p
  | .call (.start _) | .call .dropped | .watch .fresh | .watch .watching | .watch .interrupting =>
    none

/-- Where a call or a supervisor stands. -/
def place? (s : Service) : Task → Option Place
  | .call i => s.calls[i]?.map .call
  | .supervisor r => s.runs[r]?.map fun run => .watch run.watch
  | .run _ => none

variable {s t u : Service} {x : Task} {i r : Nat} {c : Call} {run : Run} {p p' : Stopping} {m : Move}

theorem place?_call (h : s.calls[i]? = some c) : s.place? (.call i) = some (.call c) := by
  rw [place?, h, Option.map_some]

theorem place?_supervisor (h : s.runs[r]? = some run) :
    s.place? (.supervisor r) = some (.watch run.watch) := by
  rw [place?, h, Option.map_some]

theorem stopping?_eq_place (s : Service) (x : Task) :
    s.stopping? x = (s.place? x).bind Place.stopping? := by
  cases x with
  | call i =>
    rw [stopping?, place?]
    cases s.calls[i]? with
    | none => rfl
    | some c => cases c <;> rfl
  | supervisor r =>
    rw [stopping?, place?]
    cases s.runs[r]? with
    | none => rfl
    | some run =>
      rw [Option.map_some, Option.map_some]
      cases run.watch <;> rfl
  | run r => rfl

/-! ## What stays -/

/-- Everyone of the first service stands at the same place in the second, and who is new there is a
    supervisor that has done nothing yet. -/
def Grows (s t : Service) : Prop :=
  ∀ x, t.place? x = s.place? x ∨ s.place? x = none ∧ t.place? x = some (.watch .fresh)

/-- From the first service to the second only one task goes elsewhere. -/
structure Shifts (s t : Service) (x : Task) (w : Place) : Prop where
  own : t.place? x = some w
  others : ∀ y, y ≠ x →
    t.place? y = s.place? y ∨ s.place? y = none ∧ t.place? y = some (.watch .fresh)

theorem grows_of (hcalls : t.calls = s.calls)
    (hwatches : t.runs.map Run.watch = s.runs.map Run.watch) : Grows s t := by
  intro x
  left
  cases x with
  | call i => rw [place?, place?, hcalls]
  | supervisor r =>
    have hwatch : t.runs[r]?.map Run.watch = s.runs[r]?.map Run.watch := by
      rw [← List.getElem?_map, ← List.getElem?_map, hwatches]
    have hplace := congrArg (Option.map Place.watch) hwatch
    rwa [Option.map_map, Option.map_map] at hplace
  | run r => rfl

theorem grows_launch (s : Service) (i : Nat) : Grows s (s.launch i) := by
  intro x
  cases x with
  | call j => exact .inl rfl
  | supervisor r =>
    rw [place?, place?, launch, List.getElem?_append]
    split
    · exact .inl rfl
    · rename_i hr
      rw [List.getElem?_eq_none (Nat.not_lt.1 hr)]
      cases r - s.runs.length with
      | zero => exact .inr ⟨rfl, rfl⟩
      | succ k => exact .inl rfl
  | run r => exact .inl rfl

theorem StartTurn.grows {p p' : Starting} (h : StartTurn s i m p u p') : Grows s u := by
  cases h with
  | launch => exact grows_launch s i
  | ask | crash | skip | await | leave | unwind | join | joinPanicked => exact grows_of rfl rfl

theorem StopTurn.grows (h : StopTurn s x m p u p') : Grows s u := grows_of h.calls_eq h.watches

/-! ## What goes on -/

theorem Grows.placeCall (h : Grows s u) (hcall : u.calls[i]? = some c) (c' : Call) :
    Shifts s (u.placeCall i c') (.call i) (.call c') where
  own := place?_call (List.getElem?_set_self (List.getElem?_eq_some_iff.1 hcall).1)
  others y hy := by
    have hsame : (u.placeCall i c').place? y = u.place? y := by
      cases y with
      | call j =>
        have hij : i ≠ j := fun hij => hy (hij ▸ rfl)
        rw [place?, place?, Service.placeCall, List.getElem?_set_ne hij]
      | supervisor r | run r => rfl
    exact hsame ▸ h y

theorem Grows.modifyRun (h : Grows s u) (hrun : u.runs[r]? = some run) (f : Run → Run) :
    Shifts s (u.modifyRun r f) (.supervisor r) (.watch (f run).watch) := by
  rw [modifyRun_eq hrun]
  refine ⟨place?_supervisor (List.getElem?_set_self (List.getElem?_eq_some_iff.1 hrun).1),
    fun y hy => ?_⟩
  have hsame : place? { u with runs := u.runs.set r (f run) } y = u.place? y := by
    cases y with
    | supervisor k =>
      have hrk : r ≠ k := fun hrk => hy (hrk ▸ rfl)
      rw [place?, place?, List.getElem?_set_ne hrk]
    | call j | run j => rfl
  exact hsame ▸ h y

theorem Grows.placeStopping (h : Grows s u) (hstop : u.stopping? x = some p) (p' : Stopping) :
    ∃ w, w.stopping? = some p' ∧ Shifts s (u.placeStopping p' x) x w := by
  rcases exists_of_stopping? hstop with ⟨i, rfl, hcall⟩ | ⟨r, run, o, rfl, hrun, hwatch⟩
  · exact ⟨_, rfl, h.placeCall hcall (.stop p')⟩
  · have hshifts : Shifts s (u.placeStopping p' (.supervisor r)) (.supervisor r) _ :=
      h.modifyRun hrun _
    rw [hwatch] at hshifts
    exact ⟨_, rfl, hshifts⟩

theorem StartTurn.shifts {p p' : Starting} (hcall : s.calls[i]? = some (.start p))
    (h : StartTurn s i m p u p') :
    Shifts s (u.placeCall i (.start p')) (.call i) (.call (.start p')) :=
  h.grows.placeCall (h.calls_eq ▸ hcall) (.start p')

theorem StopTurn.stopping?_eq (h : StopTurn s x m p u p') (y : Task) :
    u.stopping? y = s.stopping? y := by
  rw [stopping?_eq_place, stopping?_eq_place]
  rcases h.grows y with hsame | ⟨hnone, hfresh⟩
  · rw [hsame]
  · rw [hnone, hfresh]
    rfl

theorem StopTurn.shifts (hstop : s.stopping? x = some p) (h : StopTurn s x m p u p') :
    ∃ w, w.stopping? = some p' ∧ Shifts s (u.placeStopping p' x) x w :=
  h.grows.placeStopping (h.stopping?_eq x ▸ hstop) p'

theorem RunTurn.shifts {run' : Run} {events : List Event} (hrun : s.runs[r]? = some run)
    (_ : RunTurn r m run run' events) :
    Shifts s { s with runs := s.runs.set r run', log := s.log ++ events } (.supervisor r)
      (.watch run'.watch) := by
  have hgrows : Grows s { s with log := s.log ++ events } := grows_of rfl rfl
  have hshifts := hgrows.modifyRun hrun fun _ => run'
  rwa [modifyRun_eq (s := { s with log := s.log ++ events }) hrun] at hshifts

/-- Nothing else than a call is placed elsewhere. -/
theorem shifts_set {c' : Call} (hcall : s.calls[i]? = some c) (hcalls : t.calls = s.calls.set i c')
    (hruns : t.runs = s.runs) : Shifts s t (.call i) (.call c') := by
  have hgrows : Grows s { t with calls := s.calls } := grows_of rfl (congrArg _ hruns)
  have hshifts := hgrows.placeCall hcall c'
  rwa [placeCall, ← hcalls] at hshifts

/-- A call comes in. -/
theorem shifts_come (s : Service) (c : Call) :
    Shifts s { s with calls := s.calls ++ [c] } (.call s.calls.length) (.call c) where
  own := place?_call List.getElem?_concat_length
  others y hy := by
    left
    cases y with
    | call j =>
      have hj : j ≠ s.calls.length := fun hj => hy (hj ▸ rfl)
      rw [place?, place?, List.getElem?_append]
      split
      · rfl
      · rename_i hlt
        rw [List.getElem?_eq_none (Nat.not_lt.1 hlt), List.getElem?_eq_none (by simp; omega)]
    | supervisor r | run r => rfl

/-! ## How a task comes to stand where it does -/

theorem Shifts.cases {w q : Place} (h : Shifts s t x w) {y : Task} (hq : t.place? y = some q) :
    s.place? y = some q ∨ q = .watch .fresh ∨ y = x ∧ q = w := by
  by_cases hy : y = x
  · subst hy
    exact .inr (.inr ⟨rfl, Option.some.inj (hq.symm.trans h.own)⟩)
  · rcases h.others y hy with hsame | ⟨-, hfresh⟩
    · exact .inl (hsame.symm.trans hq)
    · exact .inr (.inl (Option.some.inj (hq.symm.trans hfresh)))

/-- At a stop: it has stood there before, or its stop has just begun, or it has taken a turn. -/
theorem Step.stopping_cases (hstep : s.Step m t) (h : t.stopping? x = some p) :
    s.stopping? x = some p ∨ p = .arriving ∨
      ∃ p₀ u, s.stopping? x = some p₀ ∧ StopTurn s x m p₀ u p ∧ t = u.placeStopping p x := by
  rw [stopping?_eq_place] at h
  obtain ⟨q, hq, hp⟩ := Option.bind_eq_some_iff.1 h
  have hstood (hs : s.place? x = some q) : s.stopping? x = some p := by
    rw [stopping?_eq_place, hs]
    exact hp
  have hcases {y : Task} {w : Place} (hshifts : Shifts s t y w) :
      s.stopping? x = some p ∨ x = y ∧ w.stopping? = some p := by
    rcases hshifts.cases hq with hs | rfl | ⟨hx, rfl⟩
    · exact .inl (hstood hs)
    · cases hp
    · exact .inr ⟨hx, hp⟩
  cases hstep with
  | start =>
    rcases hcases (shifts_come s _) with hs | ⟨-, hw⟩
    · exact .inl hs
    · cases hw
  | stop =>
    rcases hcases (shifts_come s _) with hs | ⟨-, hw⟩
    · exact .inl hs
    · exact .inr (.inl (Option.some.inj hw).symm)
  | startTurn hcall turn =>
    rcases hcases (turn.shifts hcall) with hs | ⟨-, hw⟩
    · exact .inl hs
    · cases hw
  | stopTurn hstop turn =>
    obtain ⟨w, hp', hshifts⟩ := turn.shifts hstop
    rcases hcases hshifts with hs | ⟨rfl, hw⟩
    · exact .inl hs
    · obtain rfl := Option.some.inj (hp'.symm.trans hw)
      exact .inr (.inr ⟨_, _, hstop, turn, rfl⟩)
  | runTurn hrun turn =>
    rcases hcases (turn.shifts hrun) with hs | ⟨rfl, hw⟩
    · exact .inl hs
    · cases turn with
      | spawn | interrupt => cases hw
      | notice | close => exact .inr (.inl (Option.some.inj hw).symm)
      | start | drop | finish =>
        -- Its task has moved, and the supervisor stands where it stood.
        left
        rw [stopping?_eq_place, place?_supervisor hrun]
        exact hw
  | dropIdle hcall | dropWaiting hcall | dropFinalizing hcall =>
    rcases hcases (shifts_set hcall rfl rfl) with hs | ⟨-, hw⟩
    · exact .inl hs
    · cases hw

/-- At a start: it has stood there before, or it has just come in, or it has taken a turn. -/
theorem Step.start_cases {p' : Starting} (hstep : s.Step m t)
    (h : t.calls[i]? = some (.start p')) :
    s.calls[i]? = some (.start p') ∨ p' = .arriving ∧ s.calls.length ≤ i ∨
      ∃ p u, s.calls[i]? = some (.start p) ∧ StartTurn s i m p u p' ∧
        t = u.placeCall i (.start p') := by
  have hcases {y : Task} {w : Place} (hshifts : Shifts s t y w) :
      s.calls[i]? = some (.start p') ∨ .call i = y ∧ w = .call (.start p') := by
    rcases hshifts.cases (place?_call h) with hs | hfresh | ⟨hx, rfl⟩
    · obtain ⟨c, hc, hplace⟩ := Option.map_eq_some_iff.1 hs
      exact .inl (Place.call.inj hplace ▸ hc)
    · cases hfresh
    · exact .inr ⟨hx, rfl⟩
  cases hstep with
  | start =>
    rcases hcases (shifts_come s _) with hs | ⟨hi, hw⟩
    · exact .inl hs
    · exact .inr (.inl ⟨(Call.start.inj (Place.call.inj hw)).symm,
        Nat.le_of_eq (Task.call.inj hi).symm⟩)
  | startTurn hcall turn =>
    rcases hcases (turn.shifts hcall) with hs | ⟨hi, hw⟩
    · exact .inl hs
    · obtain rfl := Task.call.inj hi
      obtain rfl := Call.start.inj (Place.call.inj hw)
      exact .inr (.inr ⟨_, _, hcall, turn, rfl⟩)
  | stop =>
    rcases hcases (shifts_come s _) with hs | ⟨-, hw⟩
    · exact .inl hs
    · cases hw
  | stopTurn hstop turn =>
    obtain ⟨w, hp', hshifts⟩ := turn.shifts hstop
    rcases hcases hshifts with hs | ⟨-, rfl⟩
    · exact .inl hs
    · cases hp'
  | runTurn hrun turn =>
    rcases hcases (turn.shifts hrun) with hs | ⟨hi, -⟩
    · exact .inl hs
    · cases hi
  | dropIdle hcall | dropWaiting hcall | dropFinalizing hcall =>
    rcases hcases (shifts_set hcall rfl rfl) with hs | ⟨-, hw⟩
    · exact .inl hs
    · cases hw

/-! ## How a task goes on -/

theorem Shifts.goes {w q : Place} (h : Shifts s t x w) {y : Task} (hq : s.place? y = some q) :
    t.place? y = some q ∨ y = x := by
  by_cases hy : y = x
  · exact .inr hy
  · rcases h.others y hy with hsame | ⟨hnone, -⟩
    · exact .inl (hsame.trans hq)
    · cases hnone.symm.trans hq

/-- From a stop: it stays there, or it takes a turn, or it is a call that is dropped. -/
theorem Step.stopping_goes (hstep : s.Step m t) (h : s.stopping? x = some p) :
    t.stopping? x = some p ∨ (∃ u p', StopTurn s x m p u p' ∧ t = u.placeStopping p' x) ∨
      ∃ i, x = .call i ∧ m = .drop i := by
  have hstop := h
  rw [stopping?_eq_place] at h
  obtain ⟨q, hq, hp⟩ := Option.bind_eq_some_iff.1 h
  have hcases {y : Task} {w : Place} (hshifts : Shifts s t y w) :
      t.stopping? x = some p ∨ x = y := by
    refine (hshifts.goes hq).imp_left fun ht => ?_
    rw [stopping?_eq_place, ht]
    exact hp
  cases hstep with
  | start | stop =>
    rcases hcases (shifts_come s _) with ht | rfl
    · exact .inl ht
    · -- There is no such call yet.
      rw [place?, List.getElem?_eq_none (Nat.le_refl _)] at hq
      cases hq
  | startTurn hcall turn =>
    rcases hcases (turn.shifts hcall) with ht | rfl
    · exact .inl ht
    · rw [stopping?, hcall] at hstop
      cases hstop
  | stopTurn hown turn =>
    obtain ⟨w, -, hshifts⟩ := turn.shifts hown
    rcases hcases hshifts with ht | rfl
    · exact .inl ht
    · obtain rfl := Option.some.inj (hown.symm.trans hstop)
      exact .inr (.inl ⟨_, _, turn, rfl⟩)
  | runTurn hrun turn =>
    rcases hcases (turn.shifts hrun) with ht | rfl
    · exact .inl ht
    · left
      rw [stopping?_eq_place, (turn.shifts hrun).own, Option.bind_some]
      rw [stopping?_eq_place, place?_supervisor hrun, Option.bind_some] at hstop
      cases turn with
      | spawn | interrupt | notice | close => cases hstop
      | start | drop | finish => exact hstop
  | dropIdle hcall | dropWaiting hcall | dropFinalizing hcall =>
    rcases hcases (shifts_set hcall rfl rfl) with ht | rfl
    · exact .inl ht
    · exact .inr (.inr ⟨_, rfl, rfl⟩)

/-! ## What is true of every run -/

theorem forall_mem_modifyRun {P : Run → Prop} {f : Run → Run} (h : ∀ run ∈ s.runs, P run)
    (hf : ∀ run, P run → P (f run)) (r : Nat) : ∀ run ∈ (s.modifyRun r f).runs, P run := by
  intro run hmem
  obtain ⟨k, hk⟩ := List.getElem?_of_mem hmem
  rw [modifyRun, List.getElem?_modify] at hk
  obtain ⟨old, hold, rfl⟩ := Option.map_eq_some_iff.1 hk
  have hP := h old (List.mem_of_getElem? hold)
  split
  · exact hf old hP
  · exact hP

/-- What is true of a new run, and stays true when its task or its supervisor takes a turn and when
    its token is cancelled, is true of every run. -/
theorem Step.forall_runs {P : Run → Prop} (hnew : ∀ g, P ⟨g, .created, .fresh, false, false⟩)
    (hcancel : ∀ run, P run → P { run with cancelled := true })
    (hstop : ∀ run o p p', run.watch = .closing o p → P run → P { run with watch := .closing o p' })
    (hturn : ∀ r m run run' events, RunTurn r m run run' events → P run → P run')
    (hstep : s.Step m t) (h : ∀ run ∈ s.runs, P run) : ∀ run ∈ t.runs, P run := by
  have hplace {u : Service} (hu : ∀ run ∈ u.runs, P run) (p : Stopping) (x : Task) :
      ∀ run ∈ (u.placeStopping p x).runs, P run := by
    cases x with
    | call i | run r => exact hu
    | supervisor r =>
      refine forall_mem_modifyRun hu (fun run hrun => ?_) r
      split
      · rename_i o q hwatch
        exact hstop run o q p hwatch hrun
      · exact hrun
  cases hstep with
  | start | stop | dropIdle | dropWaiting | dropFinalizing => exact h
  | startTurn hcall turn =>
    cases turn with
    | launch =>
      intro run hrun
      obtain hrun | hrun := List.mem_append.1 hrun
      · exact h run hrun
      · exact List.mem_singleton.1 hrun ▸ hnew _
    | ask | crash | skip | await | leave | unwind | join | joinPanicked => exact h
  | stopTurn hown turn =>
    refine hplace ?_ _ _
    cases turn with
    | cancel =>
      rw [cancelToken]
      cases s.token with
      | none => exact h
      | some r => exact forall_mem_modifyRun (s := { s with token := none }) h hcancel r
    | ask | finalize | close | pass | finalized | panic | leave | unwind => exact h
  | runTurn hrun turn =>
    intro run hmem
    obtain hmem | rfl := List.mem_or_eq_of_mem_set hmem
    · exact h run hmem
    · exact hturn _ _ _ _ _ turn (h _ (List.mem_of_getElem? hrun))

end Service

end FrameRpc
