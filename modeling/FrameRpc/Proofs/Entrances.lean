import FrameRpc.Proofs.RunControl

/-!
# Entrances of start calls

A start call decides what it does once it has the lock: it launches a run if it finds the service
stopped, unless the factory panics, and otherwise it has nothing to do. Its `Entrance` tells what
it found, and `entries` lists the entrances in the course of some moves.

The generation counts the entrances that found the service stopped, the runs those that launched
one, and what a start call returns tells which it was (`Enrolled`). As the statuses go round, of the
entrances from a time that the service is stopped until it is stopped again exactly one finds it so
(`entries_of_stopped`).
-/

namespace FrameRpc

namespace Service

/-! ## Entrances -/

/-- What comes of a start call that gets the lock. -/
inductive Fate where
  /-- It launches a run. -/
  | launched
  /-- The factory panics. -/
  | crashed
  /-- It has nothing to do. -/
  | skipped
  deriving DecidableEq

/-- A start call gets the lock. -/
structure Entrance where
  /-- The number of the call. -/
  call : Nat
  /-- The status that it finds. -/
  found : Status
  /-- The factory is to panic. -/
  crashes : Bool

/-- What comes of the call. -/
def Entrance.fate (e : Entrance) : Fate :=
  if e.found = .stopped then if e.crashes then .crashed else .launched else .skipped

theorem Entrance.fate_eq_skipped_iff (e : Entrance) : e.fate = .skipped ↔ e.found ≠ .stopped := by
  rw [fate]
  split
  · split <;> simp [*]
  · simp [*]

theorem Entrance.fate_eq_launched_iff {e : Entrance} (h : e.crashes = false) :
    e.fate = .launched ↔ e.found = .stopped := by
  rw [fate, h]
  split <;> simp [*]

/-- A start call has the lock and has not yet done anything with it. -/
def admits (s : Service) (i : Nat) : Bool :=
  s.lock.holder = some (.call i) &&
    match s.calls[i]? with
    | some (.start .queued) => true
    | _ => false

/-- The start call that a move lets in, if it does. -/
def entrance? (s : Service) : Move → Option Entrance
  | .step (.call i) => if s.admits i then some ⟨i, s.status, false⟩ else none
  | .panic (.call i) => if s.admits i then some ⟨i, s.status, true⟩ else none
  | _ => none

/-- The start calls that some moves let in, in order. -/
def entries (s : Service) : List Move → List Entrance
  | [] => []
  | m :: rest => (s.entrance? m).toList ++ (s.perform? m).elim [] fun t => entries t rest

theorem entries_cons {s t : Service} {m : Move} (h : s.perform? m = some t) (rest : List Move) :
    s.entries (m :: rest) = (s.entrance? m).toList ++ t.entries rest := by
  rw [entries, h]
  rfl

theorem entries_append {s t : Service} {before : List Move} (h : s.run? before = some t)
    (after : List Move) : s.entries (before ++ after) = s.entries before ++ t.entries after := by
  induction before generalizing s with
  | nil => exact Option.some.inj h ▸ rfl
  | cons m rest ih =>
    obtain ⟨u, hu, hrest⟩ := Option.bind_eq_some_iff.1 h
    rw [List.cons_append, entries_cons hu, entries_cons hu, ih hrest, List.append_assoc]

/-- What has come of a start call so far. -/
def Starting.fate? : Starting → Option Fate
  | .arriving | .queued => none
  | .skipping | .returned .skipped => some .skipped
  | .unwinding | .panicked => some .crashed
  | .launching _ | .awaiting _ | .returned _ => some .launched

/-- What has come of a call so far, if it is a start call that got the lock. -/
def Call.fate? : Call → Option Fate
  | .start p => p.fate?
  | .stop _ | .dropped => none

variable {s t u : Service}

theorem fate?_returned {o : Outcome} (h : o ≠ .skipped) :
    (Starting.returned o).fate? = some .launched := by
  cases o with
  | skipped => exact (h rfl).elim
  | completed | cancelled | failed | panicked => rfl

theorem admits_of_queued {i : Nat} (hlock : s.lock.holder = some (.call i))
    (hcall : s.calls[i]? = some (.start .queued)) : s.admits i = true := by
  simp [admits, hlock, hcall]

theorem admits_eq_false {i : Nat} {c : Call} (hcall : s.calls[i]? = some c)
    (hnot : c ≠ .start .queued) : s.admits i = false := by
  rw [admits, hcall, Bool.and_eq_false_iff]
  refine .inr ?_
  split
  · rename_i h
    exact (hnot (Option.some.inj h)).elim
  · rfl

theorem entrance?_eq_none_of_stopping {x : Task} {m : Move} {p p' : Stopping}
    (hstop : s.stopping? x = some p) (turn : StopTurn s x m p u p') : s.entrance? m = none := by
  have hadmits : ∀ i, x = .call i → s.admits i = false := by
    rintro i rfl
    rcases exists_of_stopping? hstop with ⟨j, hj, hcall⟩ | ⟨r, -, -, hr, -⟩
    · obtain rfl := Task.call.inj hj
      exact admits_eq_false hcall nofun
    · cases hr
  cases x with
  | call i =>
    have hnot := hadmits i rfl
    cases turn <;> simp [entrance?, hnot]
  | supervisor r | run r => cases turn <;> rfl

theorem entrance?_eq_none_of_runTurn {r : Nat} {m : Move} {run run' : Run} {events : List Event}
    (turn : RunTurn r m run run' events) : s.entrance? m = none := by
  cases turn with
  | notice hm =>
    obtain rfl | ⟨rfl, -⟩ := hm <;> rfl
  | spawn | interrupt | close | start | drop | finish => rfl

/-! ## Runs bear their outcome -/

/-- A run whose supervisor has spawned its task as the first thing, and does not tell the start call
    that there was nothing to do. -/
structure Run.Fair (run : Run) : Prop where
  spawned : run.progress = .created ↔ run.watch = .fresh
  outcome : ∀ o p, run.watch = .closing o p → o ≠ .skipped

theorem Run.Fair.of_watch {run : Run} (hspawned : run.progress = .created ↔ run.watch = .fresh)
    (hwatch : run.watch = .fresh ∨ run.watch = .watching ∨ run.watch = .interrupting) :
    run.Fair := by
  refine ⟨hspawned, fun o p h => ?_⟩
  rw [h] at hwatch
  obtain h | h | h := hwatch <;> cases h

theorem Ending.outcome_ne_skipped (e : Ending) : e.outcome ≠ .skipped := by
  cases e <;> nofun

theorem RunTurn.fair {r : Nat} {m : Move} {run run' : Run} {events : List Event}
    (h : run.Fair) (turn : RunTurn r m run run' events) : run'.Fair := by
  obtain ⟨hspawned, houtcome⟩ := h
  cases turn with
  | spawn => exact .of_watch (by simp_all) (.inr (.inl rfl))
  | interrupt => exact .of_watch (by simp_all) (.inr (.inr rfl))
  | notice =>
    refine ⟨by simp, fun o p h => ?_⟩
    obtain ⟨rfl, -⟩ := Watch.closing.inj h
    exact Ending.outcome_ne_skipped _
  | close hp =>
    refine ⟨?_, fun o p h => ?_⟩
    · obtain rfl | ⟨e, rfl⟩ := hp <;> simp
    · obtain ⟨rfl, -⟩ := Watch.closing.inj h
      nofun
  | start | finish => exact ⟨by simp_all, houtcome⟩
  | drop hp =>
    refine ⟨?_, houtcome⟩
    obtain rfl | rfl := hp <;> simp_all

theorem Step.fair {m : Move} (hstep : s.Step m t) (h : ∀ run ∈ s.runs, run.Fair) :
    ∀ run ∈ t.runs, run.Fair := by
  refine hstep.forall_runs (fun g => .of_watch ⟨fun _ => rfl, fun _ => rfl⟩ (.inl rfl))
    (fun run hrun => ⟨hrun.spawned, hrun.outcome⟩) (fun run o p p' hwatch hrun => ?_)
    (fun r m run run' events turn hrun => turn.fair hrun) h
  refine ⟨by simpa [hwatch] using hrun.spawned, fun o' q h => ?_⟩
  obtain ⟨rfl, -⟩ := Watch.closing.inj h
  exact hrun.outcome o p hwatch

/-! ## What a step does to the start calls -/

/-- A call goes on, and what has come of it stays: only a call that launched a run, or that has not
    got the lock, can be dropped. -/
structure Call.Carries (c c' : Call) : Prop where
  stands : c ≠ .dropped
  goes : c'.fate? = c.fate? ∨ c' = .dropped ∧ ∀ f ∈ c.fate?, f = .launched

/-- The generation and the number of runs stay. -/
def Same (s t : Service) : Prop := t.generation = s.generation ∧ t.runs.length = s.runs.length

/-- What a step does to the start calls, and which of them it lets in. -/
inductive Admission (s t : Service) : Option Entrance → Prop where
  | keep (hsame : Same s t) (hcalls : t.calls = s.calls) : Admission s t none
  | come {c : Call} (hsame : Same s t) (hnew : c.fate? = none) (hcalls : t.calls = s.calls ++ [c]) :
    Admission s t none
  | carry {i : Nat} {c c' : Call} (hsame : Same s t) (hcall : s.calls[i]? = some c)
    (hcarries : c.Carries c') (hcalls : t.calls = s.calls.set i c') : Admission s t none
  | enter {e : Entrance} {c : Call} (hfound : e.found = s.status)
    (hcall : s.calls[e.call]? = some (.start .queued)) (hfate : c.fate? = some e.fate)
    (hcalls : t.calls = s.calls.set e.call c)
    (hgeneration : t.generation = s.generation + if e.found = .stopped then 1 else 0)
    (hruns : t.runs.length = s.runs.length + if e.fate = .launched then 1 else 0) :
    Admission s t (some e)

theorem admission_placeCall {i : Nat} {c c' : Call} (hsame : Same s u)
    (hcall : s.calls[i]? = some c) (hcalls : u.calls = s.calls) (hcarries : c.Carries c') :
    Admission s (u.placeCall i c') none :=
  .carry hsame hcall hcarries (by rw [placeCall, hcalls])

theorem StartTurn.admission {i : Nat} {m : Move} {p p' : Starting}
    (hfair : ∀ run ∈ s.runs, run.Fair) (hcall : s.calls[i]? = some (.start p))
    (turn : StartTurn s i m p u p') :
    Admission s (u.placeCall i (.start p')) (s.entrance? m) := by
  have hnone (hp : p ≠ .queued) : s.entrance? (.step (.call i)) = none := by
    rw [entrance?, admits_eq_false hcall (fun h => hp (Call.start.inj h))]
    rfl
  have hcarry (hsame : Same s u) (hfate : p'.fate? = p.fate?) :
      Admission s (u.placeCall i (.start p')) none :=
    admission_placeCall hsame hcall turn.calls_eq ⟨nofun, .inl hfate⟩
  cases turn with
  | ask | await | leave | unwind | joinPanicked =>
    rw [hnone nofun]
    exact hcarry ⟨rfl, rfl⟩ rfl
  | join hrun hwatch =>
    have houtcome := (hfair _ (List.mem_of_getElem? hrun)).outcome _ _ hwatch
    rw [hnone nofun]
    exact hcarry ⟨rfl, rfl⟩ (fate?_returned houtcome)
  | launch hlock hstatus =>
    rw [entrance?, admits_of_queued hlock hcall, if_pos rfl]
    exact .enter rfl hcall (by simp [Entrance.fate, hstatus]; rfl) rfl
      (by simp [hstatus]; rfl) (by simp [Entrance.fate, hstatus, Service.launch, placeCall])
  | crash hlock hstatus =>
    rw [entrance?, admits_of_queued hlock hcall, if_pos rfl]
    exact .enter rfl hcall (by simp [Entrance.fate, hstatus]; rfl) rfl
      (by simp [hstatus]; rfl) (by simp [Entrance.fate, hstatus, publish, placeCall])
  | skip hlock hstatus =>
    rw [entrance?, admits_of_queued hlock hcall, if_pos rfl]
    exact .enter rfl hcall (by simp [Entrance.fate, hstatus]; rfl) rfl
      (by simp [hstatus]; rfl) (by simp [Entrance.fate, hstatus, placeCall])

theorem same_cancelToken (s : Service) : Same s s.cancelToken := by
  have hlength := congrArg List.length (map_cancelToken (g := fun _ => ()) (fun _ => rfl) s)
  rw [List.length_map, List.length_map] at hlength
  refine ⟨?_, hlength⟩
  rw [cancelToken]
  cases s.token <;> rfl

theorem StopTurn.same {x : Task} {m : Move} {p p' : Stopping} (turn : StopTurn s x m p u p') :
    Same s u := by
  cases turn with
  | cancel => exact same_cancelToken s
  | ask | finalize | close | pass | finalized | panic | leave | unwind => exact ⟨rfl, rfl⟩

theorem StopTurn.admission {x : Task} {m : Move} {p p' : Stopping}
    (hstop : s.stopping? x = some p) (turn : StopTurn s x m p u p') :
    Admission s (u.placeStopping p' x) none := by
  rcases exists_of_stopping? hstop with ⟨i, rfl, hcall⟩ | ⟨r, run, o, rfl, hrun, hwatch⟩
  · exact admission_placeCall turn.same hcall turn.calls_eq ⟨nofun, .inl rfl⟩
  · obtain ⟨hgeneration, hruns⟩ := turn.same
    exact .keep ⟨hgeneration, (List.length_modify ..).trans hruns⟩ turn.calls_eq

theorem Step.admission {m : Move} (hfair : ∀ run ∈ s.runs, run.Fair) (hstep : s.Step m t) :
    Admission s t (s.entrance? m) := by
  cases hstep with
  | start | stop => exact .come ⟨rfl, rfl⟩ rfl rfl
  | startTurn hcall turn => exact turn.admission hfair hcall
  | stopTurn hstop turn =>
    rw [entrance?_eq_none_of_stopping hstop turn]
    exact turn.admission hstop
  | runTurn hrun turn =>
    rw [entrance?_eq_none_of_runTurn turn]
    exact .keep ⟨rfl, List.length_set⟩ rfl
  | dropIdle hcall hidle =>
    refine .carry ⟨rfl, rfl⟩ hcall ⟨?_, .inr ⟨rfl, ?_⟩⟩ rfl
    · cases hidle <;> nofun
    · cases hidle <;> simp [Call.fate?, Starting.fate?]
  | dropWaiting hcall hwaits =>
    refine .carry ⟨rfl, rfl⟩ hcall ⟨?_, .inr ⟨rfl, ?_⟩⟩ rfl
    · cases hwaits <;> nofun
    · cases hwaits <;> simp [Call.fate?, Starting.fate?]
  | dropFinalizing hcall => exact .carry ⟨rfl, rfl⟩ hcall ⟨nofun, .inr ⟨rfl, nofun⟩⟩ rfl

/-! ## The entrances count -/

theorem Admission.generation_eq {entrance : Option Entrance} (h : Admission s t entrance) :
    t.generation = s.generation + entrance.toList.countP fun e => e.found = .stopped := by
  cases h with
  | keep hsame | come hsame | carry hsame => exact hsame.1
  | enter _ _ _ _ hgeneration =>
    rw [hgeneration, Option.toList_some, List.countP_singleton]
    simp only [decide_eq_true_eq]

theorem Admission.runs_eq {entrance : Option Entrance} (h : Admission s t entrance) :
    t.runs.length = s.runs.length + entrance.toList.countP fun e => e.fate = .launched := by
  cases h with
  | keep hsame | come hsame | carry hsame => exact hsame.2
  | enter _ _ _ _ _ hruns =>
    rw [hruns, Option.toList_some, List.countP_singleton]
    simp only [decide_eq_true_eq]

/-- The generation counts the start calls that found the service stopped, and the runs are those
    that were launched then. -/
theorem counts_of_run? (hfair : ∀ run ∈ s.runs, run.Fair) {moves : List Move}
    (hrun : s.run? moves = some t) :
    t.generation = s.generation + ((s.entries moves).countP fun e => e.found = .stopped) ∧
      t.runs.length = s.runs.length + (s.entries moves).countP fun e => e.fate = .launched := by
  induction moves generalizing s with
  | nil =>
    obtain rfl := Option.some.inj hrun
    exact ⟨rfl, rfl⟩
  | cons m rest ih =>
    obtain ⟨u, hu, hrest⟩ := Option.bind_eq_some_iff.1 hrun
    have hstep := step_of_perform? hu
    have hadmission := hstep.admission hfair
    obtain ⟨hgeneration, hruns⟩ := ih (hstep.fair hfair) hrest
    rw [entries_cons hu, List.countP_append, List.countP_append, hgeneration, hruns,
      hadmission.generation_eq, hadmission.runs_eq]
    exact ⟨Nat.add_assoc .., Nat.add_assoc ..⟩

theorem fair_new (finalizes : Bool) : ∀ run ∈ (new finalizes).runs, run.Fair :=
  fun _ h => absurd h List.not_mem_nil

theorem fair_of_run? (hfair : ∀ run ∈ s.runs, run.Fair) {moves : List Move}
    (hrun : s.run? moves = some t) : ∀ run ∈ t.runs, run.Fair :=
  of_run? Step.fair hfair hrun

/-! ## The calls show their entrances -/

/-- It shows what has come of a call, unless it launched a run and was dropped. -/
def Call.Bears (c : Call) (f : Fate) : Prop := c.fate? = some f ∨ c = .dropped ∧ f = .launched

theorem Call.Carries.bears {c c' : Call} (h : c.Carries c') {f : Fate} (hf : c.Bears f) :
    c'.Bears f := by
  obtain hf | ⟨hdropped, -⟩ := hf
  · obtain hsame | ⟨hdropped, hlaunched⟩ := h.goes
    · exact .inl (hsame.trans hf)
    · exact .inr ⟨hdropped, hlaunched f hf⟩
  · exact (h.stands hdropped).elim

/-- Nothing has come of a call before nothing came of it. -/
theorem Call.Carries.fate?_of_some {c c' : Call} (h : c.Carries c') {f : Fate}
    (hf : c'.fate? = some f) : c.fate? = some f := by
  obtain hsame | ⟨rfl, -⟩ := h.goes
  · exact hsame.symm.trans hf
  · nomatch hf

/-- The entrances so far, as the calls show them. -/
structure Enrolled (s : Service) (es : List Entrance) : Prop where
  nodup : (es.map Entrance.call).Nodup
  bears : ∀ e ∈ es, ∃ c, s.calls[e.call]? = some c ∧ c.Bears e.fate
  complete : ∀ i c f, s.calls[i]? = some c → c.fate? = some f → ∃ e ∈ es, e.call = i

namespace Enrolled

variable {es : List Entrance}

/-- A step that lets nobody in. -/
theorem keep (h : s.Enrolled es)
    (hbears : ∀ (i : Nat) (c : Call), s.calls[i]? = some c →
      ∃ c' : Call, t.calls[i]? = some c' ∧ ∀ f, c.Bears f → c'.Bears f)
    (hback : ∀ (i : Nat) (c' : Call) f, t.calls[i]? = some c' → c'.fate? = some f →
      ∃ c : Call, s.calls[i]? = some c ∧ c.fate? = some f) : t.Enrolled es where
  nodup := h.nodup
  bears e he := by
    obtain ⟨c, hc, hf⟩ := h.bears e he
    obtain ⟨c', hc', hcarry⟩ := hbears e.call c hc
    exact ⟨c', hc', hcarry _ hf⟩
  complete i c' f hc' hf := by
    obtain ⟨c, hc, hf⟩ := hback i c' f hc' hf
    exact h.complete i c f hc hf

theorem come (h : s.Enrolled es) {c : Call} (hnew : c.fate? = none)
    (hcalls : t.calls = s.calls ++ [c]) : t.Enrolled es := by
  refine h.keep (fun i c' hc' => ⟨c', ?_, fun _ => id⟩) fun i c' f hc' hf => ⟨c', ?_, hf⟩
  · rw [hcalls, List.getElem?_append_left (List.getElem?_eq_some_iff.1 hc').1]
    exact hc'
  · rw [hcalls, List.getElem?_append] at hc'
    split at hc'
    · exact hc'
    · obtain rfl := List.mem_singleton.1 (List.mem_of_getElem? hc')
      nomatch hnew.symm.trans hf

theorem carry (h : s.Enrolled es) {i : Nat} {c c' : Call}
    (hcall : s.calls[i]? = some c) (hcarries : c.Carries c')
    (hcalls : t.calls = s.calls.set i c') : t.Enrolled es := by
  have hself : t.calls[i]? = some c' := by
    rw [hcalls, List.getElem?_set_self (List.getElem?_eq_some_iff.1 hcall).1]
  have hothers : ∀ j, i ≠ j → t.calls[j]? = s.calls[j]? := fun j hj => by
    rw [hcalls, List.getElem?_set_ne hj]
  refine h.keep (fun j d hd => ?_) fun j d f hd hf => ?_
  · by_cases hj : i = j
    · subst hj
      obtain rfl := Option.some.inj (hcall.symm.trans hd)
      exact ⟨c', hself, fun _ => hcarries.bears⟩
    · exact ⟨d, (hothers j hj).trans hd, fun _ => id⟩
  · by_cases hj : i = j
    · subst hj
      obtain rfl := Option.some.inj (hself.symm.trans hd)
      exact ⟨c, hcall, hcarries.fate?_of_some hf⟩
    · exact ⟨d, (hothers j hj).symm.trans hd, hf⟩

theorem enter (h : s.Enrolled es) {e : Entrance} {c : Call}
    (hcall : s.calls[e.call]? = some (.start .queued)) (hfate : c.fate? = some e.fate)
    (hcalls : t.calls = s.calls.set e.call c) : t.Enrolled (es ++ [e]) := by
  have hself : t.calls[e.call]? = some c := by
    rw [hcalls, List.getElem?_set_self (List.getElem?_eq_some_iff.1 hcall).1]
  have hothers : ∀ j, e.call ≠ j → t.calls[j]? = s.calls[j]? := fun j hj => by
    rw [hcalls, List.getElem?_set_ne hj]
  -- A call that waits for the lock has not been let in before.
  have hnew : ∀ e' ∈ es, e.call ≠ e'.call := fun e' he' heq => by
    obtain ⟨d, hd, hbears⟩ := h.bears e' he'
    obtain rfl := Option.some.inj (hcall.symm.trans (heq ▸ hd))
    obtain hnone | ⟨hdropped, -⟩ := hbears
    · nomatch hnone
    · nomatch hdropped
  refine ⟨?_, fun e' he' => ?_, fun i d f hd hf => ?_⟩
  · rw [List.map_append, List.map_singleton, List.nodup_append]
    refine ⟨h.nodup, by simp, fun i hi j hj => ?_⟩
    obtain ⟨e', he', rfl⟩ := List.mem_map.1 hi
    obtain rfl := List.mem_singleton.1 hj
    exact (hnew e' he').symm
  · obtain he' | he' := List.mem_append.1 he'
    · obtain ⟨d, hd, hbears⟩ := h.bears e' he'
      exact ⟨d, (hothers _ (hnew e' he')).trans hd, hbears⟩
    · obtain rfl := List.mem_singleton.1 he'
      exact ⟨c, hself, .inl hfate⟩
  · by_cases hi : e.call = i
    · exact ⟨e, List.mem_concat_self, hi⟩
    · obtain ⟨e', he', hcall'⟩ := h.complete i d f ((hothers i hi).symm.trans hd) hf
      exact ⟨e', List.mem_append_left _ he', hcall'⟩

theorem step (h : s.Enrolled es) (hfair : ∀ run ∈ s.runs, run.Fair) {m : Move}
    (hstep : s.Step m t) : t.Enrolled (es ++ (s.entrance? m).toList) := by
  have hadmission := hstep.admission hfair
  generalize s.entrance? m = entrance at hadmission ⊢
  cases hadmission with
  | keep hsame hcalls =>
    rw [Option.toList_none, List.append_nil]
    exact h.keep (fun i c hc => ⟨c, hcalls ▸ hc, fun _ => id⟩)
      fun i c f hc hf => ⟨c, hcalls ▸ hc, hf⟩
  | come hsame hnew hcalls =>
    rw [Option.toList_none, List.append_nil]
    exact h.come hnew hcalls
  | carry hsame hcall hcarries hcalls =>
    rw [Option.toList_none, List.append_nil]
    exact h.carry hcall hcarries hcalls
  | enter hfound hcall hfate hcalls hgeneration hruns =>
    exact h.enter hcall hfate hcalls

theorem run (h : s.Enrolled es) (hfair : ∀ run ∈ s.runs, run.Fair) {moves : List Move}
    (hrun : s.run? moves = some t) : t.Enrolled (es ++ s.entries moves) := by
  induction moves generalizing s es with
  | nil =>
    rw [entries, List.append_nil]
    exact Option.some.inj hrun ▸ h
  | cons m rest ih =>
    obtain ⟨u, hu, hrest⟩ := Option.bind_eq_some_iff.1 hrun
    have hstep := step_of_perform? hu
    have henrolled := ih (h.step hfair hstep) (hstep.fair hfair) hrest
    rwa [List.append_assoc, ← entries_cons hu] at henrolled

end Enrolled

theorem enrolled_new (finalizes : Bool) : (new finalizes).Enrolled [] where
  nodup := .nil
  bears := nofun
  complete := nofun

/-! ## Between two stops -/

/-- A service that is stopped stays so until it lets in a start call. -/
theorem entries_of_generation_eq (h : s.Guarded) (hfair : ∀ run ∈ s.runs, run.Fair)
    (hstopped : s.status = .stopped) {moves : List Move} (hrun : s.run? moves = some t)
    (hsame : t.generation = s.generation) : s.entries moves = [] := by
  induction moves generalizing s with
  | nil => rfl
  | cons m rest ih =>
    obtain ⟨u, hu, hrest⟩ := Option.bind_eq_some_iff.1 hrun
    have hstep := step_of_perform? hu
    have hadmission := hstep.admission hfair
    have hgeneration := hadmission.generation_eq
    have hrest' := (counts_of_run? (hstep.fair hfair) hrest).1
    have hu' := h.step hstep
    have hstopped' : u.status = .stopped := by
      have hn := cycle_eq_stopped_iff.1 (h.status_eq ▸ hstopped)
      have hle := hstep.published_le.1
      have hs := h.generation_eq
      have ht := hu'.generation_eq
      rw [hu'.status_eq, cycle_eq_stopped_iff]
      omega
    rw [entries_cons hu, ih hu' (hstep.fair hfair) hstopped' hrest (by omega), List.append_nil]
    generalize s.entrance? m = entrance at hadmission hgeneration
    cases hadmission with
    | keep | come | carry => rfl
    | enter hfound =>
      rw [Option.toList_some, List.countP_singleton, hfound, hstopped] at hgeneration
      simp at hgeneration
      omega

/-- **One start.** Of the start calls that get the lock of a service that is stopped, before it is
    stopped again, exactly one finds it stopped. -/
theorem entries_of_stopped (h : s.Guarded) (hfair : ∀ run ∈ s.runs, run.Fair)
    (hstopped : s.status = .stopped) {moves : List Move} (hrun : s.run? moves = some t)
    (hkept : .stopped ∉ t.published.drop s.published.length) (hne : s.entries moves ≠ []) :
    ((s.entries moves).countP fun e => e.found = .stopped) = 1 := by
  have ht := h.run hrun
  have hn := cycle_eq_stopped_iff.1 (h.status_eq ▸ hstopped)
  have hlt : t.published.length < s.published.length + 4 := by
    refine Nat.lt_of_not_le fun hle => hkept (List.mem_of_getElem? (i := 3) ?_)
    rw [List.getElem?_drop, published_of_control ht.control, List.getElem?_map,
      List.getElem?_range (by omega)]
    exact congrArg some (cycle_eq_stopped_iff.2 (by omega))
  have hcount := (counts_of_run? hfair hrun).1
  have hgs := h.generation_eq
  have hgt := ht.generation_eq
  have hnew : t.generation ≠ s.generation := fun hsame =>
    hne (entries_of_generation_eq h hfair hstopped hrun hsame)
  omega

/-! ## The whole control -/

/-- A start call has been told that there is nothing to do, or is about to be. -/
def skipped (s : Service) (i : Nat) : Bool := s.calls[i]?.bind Call.fate? = some .skipped

/-- A call that was let in shows whether it had nothing to do. -/
theorem Enrolled.skipped_eq {es : List Entrance} (h : s.Enrolled es) {e : Entrance} (he : e ∈ es) :
    s.skipped e.call = true ↔ e.found ≠ .stopped := by
  obtain ⟨c, hc, hbears⟩ := h.bears e he
  rw [skipped, hc, Option.bind_some, decide_eq_true_eq, ← e.fate_eq_skipped_iff]
  obtain hfate | ⟨rfl, hlaunched⟩ := hbears
  · rw [hfate, Option.some.injEq]
  · simp [Call.fate?, hlaunched]

/-- What a start call returns tells what it found. -/
theorem Enrolled.returned {es : List Entrance} (h : s.Enrolled es) {i : Nat} {o : Outcome}
    (hcall : s.calls[i]? = some (.start (.returned o))) :
    ∃ e ∈ es, e.call = i ∧ (o = .skipped ↔ e.found ≠ .stopped) := by
  have hfate : ∃ f, (Call.start (.returned o)).fate? = some f ∧ (f = .skipped ↔ o = .skipped) := by
    by_cases ho : o = .skipped
    · subst ho
      exact ⟨.skipped, rfl, by simp⟩
    · exact ⟨.launched, fate?_returned ho, by simp [ho]⟩
  obtain ⟨f, hf, hiff⟩ := hfate
  obtain ⟨e, he, rfl⟩ := h.complete i _ f hcall hf
  refine ⟨e, he, rfl, ?_⟩
  rw [← h.skipped_eq he, skipped, hcall, Option.bind_some, hf, decide_eq_true_eq,
    Option.some.injEq, hiff]

theorem published_eq_cycle (h : s.Guarded) :
    .stopped :: s.published = (List.range (s.published.length + 1)).map cycle := by
  rw [List.range_succ_eq_map, List.map_cons, List.map_map]
  exact congrArg _ (published_of_control h.control)

/-- **Control.** After any moves, the statuses have gone round; while the service is ready, the
    token that is kept is that of the run of this generation, and alive; while it is stopped, none
    is kept and all are cancelled; and never is more than one alive. The generation counts the start
    calls that found the service stopped, as many runs have been launched unless the factory
    panicked, and the task of a run is spawned by the first step of its supervisor. A start call
    gets the lock once, and there is nothing to do for it if it does not find the service stopped.
    So between two times that the service is stopped, there is for all but one of those that get the
    lock. -/
theorem run_control (finalizes : Bool) {moves : List Move}
    (hrun : (new finalizes).run? moves = some t) :
    (.stopped :: t.published = (List.range (t.published.length + 1)).map cycle ∧
      t.status = cycle t.published.length) ∧
    (t.status = .ready → ∃ r run, t.token = some r ∧ t.runs[r]? = some run ∧
      run.generation = t.generation ∧ run.cancelled = false) ∧
    (t.status = .stopped → t.token = none ∧ ∀ run ∈ t.runs, run.cancelled = true) ∧
    t.runs.countP (fun run => !run.cancelled) ≤ 1 ∧
    t.generation = ((new finalizes).entries moves).countP (fun e => e.found = .stopped) ∧
    ((∀ e ∈ (new finalizes).entries moves, e.crashes = false) → t.runs.length = t.generation) ∧
    (∀ run ∈ t.runs, run.progress = .created ↔ run.watch = .fresh) ∧
    (((new finalizes).entries moves).map Entrance.call).Nodup ∧
    (∀ i o, t.calls[i]? = some (.start (.returned o)) →
      ∃ e ∈ (new finalizes).entries moves, e.call = i ∧ (o = .skipped ↔ e.found ≠ .stopped)) ∧
    ∀ before after s, moves = before ++ after → (new finalizes).run? before = some s →
      s.status = .stopped → .stopped ∉ t.published.drop s.published.length →
      s.entries after ≠ [] → (s.entries after).countP (fun e => !t.skipped e.call) = 1 := by
  have hguarded := (guarded_new finalizes).run hrun
  have hfair := fair_of_run? (fair_new finalizes) hrun
  have henrolled := (enrolled_new finalizes).run (fair_new finalizes) hrun
  obtain ⟨hgeneration, hruns⟩ := counts_of_run? (fair_new finalizes) hrun
  rw [List.nil_append] at henrolled
  have hcount : t.generation = _ := hgeneration.trans (Nat.zero_add _)
  refine ⟨⟨published_eq_cycle hguarded, hguarded.status_eq⟩, hguarded.of_ready, hguarded.of_stopped,
    hguarded.countP_alive_le_one, hcount, fun hnot => ?_, fun run hmem => (hfair run hmem).spawned,
    henrolled.nodup, fun i o => henrolled.returned, ?_⟩
  · rw [hruns, hcount]
    refine (Nat.zero_add _).trans (List.countP_congr fun e he => ?_)
    simp [Entrance.fate_eq_launched_iff (hnot e he)]
  · rintro before after s rfl hbefore hstopped hkept hne
    have hs := (guarded_new finalizes).run hbefore
    have hafter : s.run? after = some t := (run?_append hbefore after).symm.trans hrun
    have hfair' := fair_of_run? (fair_new finalizes) hbefore
    rw [← entries_of_stopped hs hfair' hstopped hafter hkept hne]
    refine List.countP_congr fun e he => ?_
    have he' : e ∈ (new finalizes).entries (before ++ after) := by
      rw [entries_append hbefore]
      exact List.mem_append_right _ he
    rw [Bool.not_eq_true', ← Bool.not_eq_true, henrolled.skipped_eq he', decide_eq_true_eq,
      Decidable.not_not]

/-- Two start calls ask for the lock of a service that is stopped, and both get it in turn. -/
def contendedMoves : List Move :=
  [.start, .start, .step (.call 0), .step (.call 1), .step (.call 0), .step (.call 0),
    .step (.call 1), .step (.call 1)]

/-- The service after these moves. -/
def contended : Service := ((new true).run? contendedMoves).getD (new true)

/-- One of them has launched a run, whose token is alive, and the other has been told that there is
    nothing to do. -/
theorem run_control_contended :
    (new true).run? contendedMoves = some contended ∧ contended.status = .ready ∧
      (∃ r run, contended.token = some r ∧ contended.runs[r]? = some run ∧
        run.generation = contended.generation ∧ run.cancelled = false) ∧
      contended.runs.length = contended.generation ∧
      ((new true).entries contendedMoves).countP (fun e => !contended.skipped e.call) = 1 := by
  have hrun : (new true).run? contendedMoves = some contended := rfl
  obtain ⟨-, hready, -, -, -, hcount, -, -, -, hone⟩ := run_control true hrun
  refine ⟨hrun, rfl, hready rfl, hcount (by decide), ?_⟩
  exact hone [] contendedMoves (new true) rfl rfl rfl (by decide) (by decide)

/-- Where the factory panics there is a start, but no run. -/
example : ((new true).run? [.start, .step (.call 0), .panic (.call 0)]).map
    (fun s => (s.generation, s.runs.length)) = some (1, 0) := rfl

end Service

end FrameRpc
