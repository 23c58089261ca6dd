import FrameRpc.Proofs.Views

/-!
# Keys on their own

A run of a table of lookups keeps its view of a key when every move about the other keys is left out
of it (`view_of_filter`). The two runs go along with each other: a move about the key is taken by
both, and a move about another key, which only the first one takes, changes nothing that the second
one mirrors (`Mirrors.skip`).
-/

namespace FrameRpc

namespace SingleFlight

variable {K V E : Type} [DecidableEq K] {s t s' : SingleFlight K V E} {book : List (Record K V E)}
  {key : K} {ns : List Nat} {n : Nat}

/-! ## Moves about other keys -/

/-- What an event of a key tells is nothing of another. -/
theorem notes_release_of_ne {k : K} (hne : k ≠ key) (n : Nat) :
    (s.release k n).notes key = s.notes key := by
  rw [release]
  split
  · split
    · split
      · exact notes_concat_of_none rfl (if_neg hne)
      · rfl
    · rfl
  · rfl

/-- A move tells nothing of other keys. -/
theorem Step.notes_eq_of_ne {m : Move K V E} (h : s.Step m t) (hne : m.caller.key ≠ key) :
    t.notes key = s.notes key := by
  cases h with
  | call | withdraw | publish | close | turn => rfl
  | finish | begin => exact notes_concat_of_none rfl (if_neg hne)
  | giveUp _ hm => exact notes_concat_of_none rfl (if_neg (hm ▸ hne))
  | join | clone => exact notes_of_log (retain_log ..) key
  | store => exact notes_of_log (store_log ..) key
  | abandon => exact notes_of_log (abandon_log ..) key
  | part _ hpart => exact notes_release_of_ne (hpart.caller_eq ▸ hne) _

/-- A move sends nothing on the channels of the lookups of other keys. -/
theorem Step.channel_eq_of_ne {m : Move K V E} (h : s.Step m t) (hne : m.caller.key ≠ key)
    (hrecorded : s.Recorded book) (hn : n ∈ s.startsOf key) (hlt : n < s.channels.length) :
    t.channel n = s.channel n := by
  have hset {c : Caller K} {p : Phase V E} {n' : Nat} (hc : s.callers.get? c = some p)
      (hlease : p.lease? = some n') (hkey : c.key ≠ key) (ch : Channel V E) :
      (s.channels.set n' ch).getD n .closed = s.channels.getD n .closed := by
    have hne' : n' ≠ n := by
      rintro rfl
      exact hkey ((hrecorded.mem_startsOf_iff hc hlease).1 hn)
    rw [List.getD_eq_getElem?_getD, List.getD_eq_getElem?_getD, List.getElem?_set_ne hne']
  rw [channel, channel]
  cases h with
  | call | withdraw | finish | giveUp | turn => rfl
  | publish hc => exact hset hc rfl hne _
  | close hc => exact hset hc rfl hne _
  | join | clone => rw [place_channels, retain_channels]
  | begin =>
    rw [List.getD_eq_getElem?_getD, List.getD_eq_getElem?_getD, List.getElem?_append_left hlt]
  | store => rw [place_channels, store_channels]
  | abandon => rw [place_channels, abandon_channels]
  | part => rw [place_channels, release_channels]

theorem Step.length_channels_le {m : Move K V E} (h : s.Step m t) :
    s.channels.length ≤ t.channels.length := by
  cases h with
  | call | withdraw | finish | giveUp | turn => exact Nat.le_refl _
  | publish | close => exact Nat.le_of_eq (List.length_set ..).symm
  | join | clone => exact Nat.le_of_eq (congrArg List.length (retain_channels ..).symm)
  | begin =>
    rw [List.length_append]
    exact Nat.le_add_right ..
  | store => exact Nat.le_of_eq (congrArg List.length (store_channels ..).symm)
  | abandon => exact Nat.le_of_eq (congrArg List.length (abandon_channels ..).symm)
  | part => exact Nat.le_of_eq (congrArg List.length (release_channels ..).symm)

/-- A move about another key is not seen. -/
theorem Mirrors.skip (h : Mirrors key ns s s') (hrecorded : s.Recorded book) {m : Move K V E}
    (hne : m.caller.key ≠ key) (hstep : s.Step m t) : Mirrors key ns t s' where
  starts := (hstep.startsOf_eq_of_ne hne.symm).trans h.starts
  distinct := h.distinct
  started := fun n hn => Nat.lt_of_lt_of_le (h.started n hn) hstep.length_channels_le
  owned := fun e he => h.owned e (hstep.get?_eq_of_ne hne.symm ▸ he)
  noted := hstep.notes_eq_of_ne hne ▸ h.noted
  entry := by rw [hstep.get?_eq_of_ne hne.symm, h.entry]
  callers := fun c₁ hc₁ => by
    obtain ⟨c, p, hc, hcallers⟩ := hstep.callers_eq
    have hother : c₁ ≠ c := by
      rintro rfl
      exact hne (hc.symm.trans hc₁)
    rw [hcallers, Table.get?_set, if_neg hother, h.callers c₁ hc₁]
  channels := by
    rw [h.channels]
    exact List.map_congr_left fun n hn =>
      (hstep.channel_eq_of_ne hne hrecorded (h.starts ▸ hn) (h.started n hn)).symm
  notes := by rw [hstep.notes_eq_of_ne hne, h.notes]

/-! ## Runs -/

/-- A run goes along with the run of its moves about the key. -/
theorem Mirrors.run? (h : Mirrors key ns s s') (reached : s.Reachable) {moves : List (Move K V E)}
    (hrun : s.run? moves = some t) :
    ∃ ns' t', s'.run? (moves.filter fun m => m.caller.key = key) = some t' ∧
      Mirrors key ns' t t' := by
  induction moves generalizing s s' ns with
  | nil => exact ⟨ns, s', rfl, Option.some.inj hrun ▸ h⟩
  | cons m rest ih =>
    obtain ⟨u, hu, hrest⟩ := Option.bind_eq_some_iff.1 hrun
    obtain ⟨book, hrecorded⟩ := reached.recorded
    by_cases hm : m.caller.key = key
    · obtain ⟨ns₁, u', hu', h₁⟩ := h.perform? hrecorded hm hu
      rw [List.filter_cons_of_pos (by simpa using hm), SingleFlight.run?, hu']
      exact ih h₁ (reached.move m hu) hrest
    · rw [List.filter_cons_of_neg (by simpa using hm)]
      exact ih (h.skip hrecorded hm (step_of_perform? hu)) (reached.move m hu) hrest

theorem run?_of_append {before after : List (Move K V E)}
    (hrun : s.run? (before ++ after) = some t) : ∃ u, s.run? before = some u := by
  induction before generalizing s with
  | nil => exact ⟨s, rfl⟩
  | cons m rest ih =>
    obtain ⟨u, hu, hrest⟩ := Option.bind_eq_some_iff.1 hrun
    obtain ⟨v, hv⟩ := ih hrest
    exact ⟨v, Option.bind_eq_some_iff.2 ⟨u, hu, hv⟩⟩

/-- **Keys do not interfere**: the moves about one key of a possible run are a possible run on their
    own, and all along the two, what can be seen of the key is the same. -/
theorem view_of_filter {moves : List (Move K V E)} (hrun : start.run? moves = some s) (key : K) :
    ∀ before, before <+: moves → ∃ u u', start.run? before = some u ∧
      start.run? (before.filter fun m => m.caller.key = key) = some u' ∧
      u.view key = u'.view key := by
  rintro before ⟨after, rfl⟩
  obtain ⟨u, hu⟩ := run?_of_append hrun
  obtain ⟨ns, u', hu', h⟩ := (mirrors_start key).run? .start hu
  obtain ⟨book, hrecorded⟩ := (reachable_of_run? .start hu).recorded
  exact ⟨u, u', hu, hu', (h.view_eq hrecorded).symm⟩

/-- Two callers share a lookup of one key, while a lookup of another key starts before it, panics,
    and starts again. -/
def mixedMoves : List (Move Nat Nat Nat) :=
  [.call ⟨8, 0⟩, .step ⟨8, 0⟩, .call ⟨7, 0⟩, .call ⟨7, 1⟩, .step ⟨7, 0⟩, .panic ⟨8, 0⟩,
    .step ⟨7, 1⟩, .finish ⟨7, 0⟩ (.ok 5), .step ⟨8, 0⟩, .step ⟨7, 0⟩, .step ⟨7, 0⟩, .step ⟨7, 1⟩,
    .call ⟨8, 1⟩, .step ⟨8, 1⟩, .step ⟨7, 0⟩, .step ⟨7, 1⟩, .drop ⟨7, 0⟩, .drop ⟨7, 1⟩]

/-- The moves among them about the first key. -/
def quietMoves : List (Move Nat Nat Nat) :=
  [.call ⟨7, 0⟩, .call ⟨7, 1⟩, .step ⟨7, 0⟩, .step ⟨7, 1⟩, .finish ⟨7, 0⟩ (.ok 5), .step ⟨7, 0⟩,
    .step ⟨7, 0⟩, .step ⟨7, 1⟩, .step ⟨7, 0⟩, .step ⟨7, 1⟩, .drop ⟨7, 0⟩, .drop ⟨7, 1⟩]

/-- The table after all the moves. -/
def mixedTable : SingleFlight Nat Nat Nat := (start.run? mixedMoves).getD start

/-- The table after those about the first key. -/
def quietTable : SingleFlight Nat Nat Nat := (start.run? quietMoves).getD start

/-- The lookup has another number without those of the other key, and looks the same. -/
theorem view_of_mixedTable :
    start.run? mixedMoves = some mixedTable ∧ start.run? quietMoves = some quietTable ∧
      mixedTable.startsOf 7 = [1] ∧ quietTable.startsOf 7 = [0] ∧
      mixedTable.view 7 = quietTable.view 7 ∧
      (quietTable.view 7).notes =
        [.started 0, .finished 0 (.ok 5), .released 0 (.ok 5) false 0] := by
  have hmixed : start.run? mixedMoves = some mixedTable := rfl
  have hquiet : start.run? quietMoves = some quietTable := rfl
  obtain ⟨u, u', hu, hu', hview⟩ := view_of_filter hmixed 7 mixedMoves (List.prefix_refl _)
  obtain rfl := Option.some.inj (hmixed.symm.trans hu)
  obtain rfl := Option.some.inj (hquiet.symm.trans hu')
  exact ⟨hmixed, hquiet, rfl, rfl, hview, rfl⟩

end SingleFlight

end FrameRpc
