import FrameRpc.Proofs.SharedOutcome
import Mathlib.Data.List.Nodup

/-!
# Releases

Each lookup that is done is released once, with its key and its outcome, by the step that ends the
last lease on it; a lookup that was given up never is (`released_once`). The proof compares the
releases with the lookups that are done: the released ones are those whose entry is gone
(`Released`). Only two kinds of steps matter. A lookup that is done has its entry still, since its
caller has a lease on it; and an entry goes with its last lease, or with a lookup that is given up.
-/

namespace FrameRpc

namespace SingleFlight

variable {K V E : Type}

/-! ## Verdicts -/

/-- The outcome of a lookup. -/
structure Verdict (K V E : Type) where
  lookup : Nat
  key : K
  outcome : Except E V

/-- The verdict of a lookup that is done. -/
def Event.finish? : Event K V E → Option (Verdict K V E)
  | .finished n key o => some ⟨n, key, o⟩
  | _ => none

/-- The verdict that is released. -/
def Event.release? : Event K V E → Option (Verdict K V E)
  | .released n key o _ => some ⟨n, key, o⟩
  | _ => none

/-- The verdicts of the lookups that are done, in order. -/
def finishes (s : SingleFlight K V E) : List (Verdict K V E) := s.log.filterMap Event.finish?

/-- The verdicts that have been released, in order. -/
def releases (s : SingleFlight K V E) : List (Verdict K V E) := s.log.filterMap Event.release?

/-- The releases of a lookup. -/
def releasesOf (s : SingleFlight K V E) (n : Nat) : List (Verdict K V E) :=
  s.releases.filter fun v => v.lookup = n

section

variable {s t : SingleFlight K V E} {v : Verdict K V E}

@[simp]
theorem mem_finishes : v ∈ s.finishes ↔ .finished v.lookup v.key v.outcome ∈ s.log := by
  refine List.mem_filterMap.trans ⟨fun ⟨e, he, hv⟩ => ?_, fun h => ⟨_, h, rfl⟩⟩
  cases e with
  | finished => exact Option.some.inj hv ▸ he
  | _ => nomatch hv

@[simp]
theorem mem_releases : v ∈ s.releases ↔ ∃ r, .released v.lookup v.key v.outcome r ∈ s.log := by
  refine List.mem_filterMap.trans ⟨fun ⟨e, he, hv⟩ => ?_, fun ⟨r, h⟩ => ⟨_, h, rfl⟩⟩
  cases e with
  | released _ _ _ r => exact ⟨r, Option.some.inj hv ▸ he⟩
  | _ => nomatch hv

theorem finishes_of_log {es : List (Event K V E)} (h : t.log = s.log ++ es) :
    t.finishes = s.finishes ++ es.filterMap Event.finish? := by
  rw [finishes, h, List.filterMap_append]
  rfl

theorem releases_of_log {es : List (Event K V E)} (h : t.log = s.log ++ es) :
    t.releases = s.releases ++ es.filterMap Event.release? := by
  rw [releases, h, List.filterMap_append]
  rfl

theorem mem_releasesOf {n : Nat} {v : Verdict K V E} :
    v ∈ s.releasesOf n ↔ v ∈ s.releases ∧ v.lookup = n := by
  rw [releasesOf, List.mem_filter, decide_eq_true_eq]

/-- Of verdicts of different lookups, one is that of a lookup. -/
theorem filter_lookup_eq {vs : List (Verdict K V E)} (h : (vs.map Verdict.lookup).Nodup)
    (hv : v ∈ vs) : (vs.filter fun w => w.lookup = v.lookup) = [v] := by
  induction vs with
  | nil => nomatch hv
  | cons w rest ih =>
    obtain ⟨hw, hrest⟩ := List.nodup_cons.1 h
    rcases List.mem_cons.1 hv with rfl | hv
    · rw [List.filter_cons_of_pos (by simp), List.filter_eq_nil_iff.2 fun u hu heq => ?_]
      exact hw (of_decide_eq_true heq ▸ List.mem_map_of_mem hu)
    · have hne : w.lookup ≠ v.lookup := fun heq => hw (heq ▸ List.mem_map_of_mem hv)
      rw [List.filter_cons_of_neg (by simpa using hne), ih hrest hv]

end

variable [DecidableEq K] {s t : SingleFlight K V E}

/-! ## Entries that go -/

/-- What becomes of the entry of each lookup. -/
theorem Amends.entryOf?_eq {key : K} {n : Nat} {f : Entry V E → Option (Entry V E)}
    (h : s.Amends t key n f) (hf : ∀ e e', f e = some e' → e'.lookup = e.lookup) (k : K) (m : Nat) :
    t.entryOf? k m =
      if k = key ∧ m = n then (s.entryOf? key n).bind f else s.entryOf? k m := by
  rw [entryOf?, entryOf?, entryOf?, h k]
  by_cases hkm : k = key ∧ m = n
  · obtain ⟨rfl, rfl⟩ := hkm
    rw [if_pos ⟨rfl, rfl⟩]
    cases s.entries.get? k with
    | none => rfl
    | some e =>
      by_cases he : e.lookup = m
      · rw [Option.bind_some, if_pos ⟨rfl, he⟩, Option.filter_some, if_pos (decide_eq_true he)]
        cases hfe : f e with
        | none => simp [hfe]
        | some e' => simp [hfe, hf e e' hfe, he]
      · rw [Option.bind_some, if_neg fun hn => he hn.2]
        simp [Option.filter_some, he]
  · rw [if_neg hkm]
    cases hk : s.entries.get? k with
    | none => rfl
    | some e =>
      rw [Option.bind_some]
      split
      · -- The entry is that of another lookup, before and after.
        rename_i hkn
        have hne : e.lookup ≠ m := fun hm => hkm ⟨hkn.1, hm.symm.trans hkn.2⟩
        cases hfe : f e with
        | none => simp [Option.filter_some, hne]
        | some e' => simp [Option.filter_some, hne, hf e e' hfe]
      · rfl

/-- An entry that stays, whatever becomes of it, is there if it was. -/
theorem Amends.entryOf?_eq_none_iff {key : K} {n : Nat} {f : Entry V E → Option (Entry V E)}
    (h : s.Amends t key n f) (hf : ∀ e e', f e = some e' → e'.lookup = e.lookup) {k : K} {m : Nat}
    (hkeep : k = key → m = n → ∀ e, s.entryOf? k m = some e → f e ≠ none) :
    t.entryOf? k m = none ↔ s.entryOf? k m = none := by
  rw [h.entryOf?_eq hf]
  split
  · rename_i hkm
    obtain ⟨rfl, rfl⟩ := hkm
    cases he : s.entryOf? k m with
    | none => rfl
    | some e => simp [hkeep rfl rfl e he]
  · rfl

theorem amends_release_lookup {e e' : Entry V E}
    (h : (if e.owners ≤ 1 then none else some { e with owners := e.owners - 1 }) = some e') :
    e'.lookup = e.lookup := by
  split at h
  · nomatch h
  · rw [← Option.some.inj h]

/-- The last lease takes the entry with it, and its outcome is released. -/
theorem release_of_last {key : K} {n : Nat} {e : Entry V E} (he : s.entryOf? key n = some e)
    (hlast : e.owners ≤ 1) :
    (s.release key n).log = s.log ∧ e.outcome = none ∨
      ∃ o r, e.outcome = some o ∧ (s.release key n).log = s.log ++ [.released n key o r] := by
  rw [release, he]
  dsimp only
  rw [if_pos hlast]
  cases ho : e.outcome with
  | none => exact .inl ⟨rfl, rfl⟩
  | some o => exact .inr ⟨o, _, rfl, rfl⟩

/-- Any other lease takes nothing with it. -/
theorem release_of_not_last {key : K} {n : Nat}
    (h : ∀ e, s.entryOf? key n = some e → ¬ e.owners ≤ 1) : (s.release key n).log = s.log := by
  cases he : s.entryOf? key n with
  | none => rw [release_of_none he]
  | some e =>
    rw [release, he]
    dsimp only
    rw [if_neg (h e he)]

/-! ## What is released -/

/-- Each lookup is done once and released once, and those are released that are done and whose entry
    is gone. -/
structure Released (s : SingleFlight K V E) : Prop where
  finishes : (s.finishes.map Verdict.lookup).Nodup
  releases : (s.releases.map Verdict.lookup).Nodup
  mem_iff : ∀ v, v ∈ s.releases ↔ v ∈ s.finishes ∧ s.entryOf? v.key v.lookup = none

/-- Nothing is done and nothing released, and the entries of the lookups that are done stay. -/
theorem Released.move (h : s.Released) (hfinishes : t.finishes = s.finishes)
    (hreleases : t.releases = s.releases)
    (hentries : ∀ v ∈ s.finishes,
      t.entryOf? v.key v.lookup = none ↔ s.entryOf? v.key v.lookup = none) : t.Released where
  finishes := hfinishes ▸ h.finishes
  releases := hreleases ▸ h.releases
  mem_iff v := by
    rw [hfinishes, hreleases, h.mem_iff]
    exact and_congr_right fun hv => (hentries v hv).symm

/-- Nothing happens, and the entries of the lookups that are done stay. -/
theorem Released.keep (h : s.Released) (hlog : t.log = s.log)
    (hentries : ∀ v ∈ s.finishes,
      t.entryOf? v.key v.lookup = none ↔ s.entryOf? v.key v.lookup = none) : t.Released :=
  h.move (congrArg (List.filterMap _) hlog) (congrArg (List.filterMap _) hlog) hentries

variable {book : List (Record K V E)}

/-- Of a lookup that is done, the book has the key and the outcome. -/
theorem Recorded.exists_of_mem_finishes (h : s.Recorded book) {v : Verdict K V E}
    (hv : v ∈ s.finishes) :
    ∃ st, book[v.lookup]? = some ⟨v.key, st⟩ ∧ st.outcome? = some v.outcome := by
  obtain ⟨st, hrec, ho, -⟩ := h.exists_of_finished (mem_finishes.1 hv)
  exact ⟨st, hrec, ho⟩

/-- A lookup is done with one outcome. -/
theorem Recorded.eq_of_mem_finishes (h : s.Recorded book) {v w : Verdict K V E}
    (hv : v ∈ s.finishes) (hw : w ∈ s.finishes) (heq : v.lookup = w.lookup) : v = w := by
  obtain ⟨st, hrec, ho⟩ := h.exists_of_mem_finishes hv
  obtain ⟨st', hrec', ho'⟩ := h.exists_of_mem_finishes hw
  rw [← heq, hrec] at hrec'
  obtain ⟨hkey, rfl⟩ := Record.mk.inj (Option.some.inj hrec')
  obtain ⟨n, key, o⟩ := v
  obtain ⟨n', key', o'⟩ := w
  obtain rfl : n = n' := heq
  obtain rfl : key = key' := hkey
  obtain rfl : o = o' := Option.some.inj (ho.symm.trans ho')
  rfl

/-- The entry of a lookup that is done goes with the last lease on it, and not before. -/
theorem entryOf?_eq_none_iff_leases (hcounted : s.Counted) (hrecorded : s.Recorded book)
    (hkept : s.Kept) {key : K} {n : Nat} {o : Except E V} (hfinished : .finished n key o ∈ s.log) :
    s.entryOf? key n = none ↔ s.leases key n = 0 := by
  constructor
  · intro hnone
    obtain ⟨_, _, _, hgivenUp⟩ := hrecorded.exists_of_finished hfinished
    exact Nat.eq_zero_of_not_pos fun hpos => hgivenUp (hkept key n hpos hnone)
  · intro hzero
    refine SingleFlight.entryOf?_eq_none_iff.2 fun e he hn => ?_
    have howners := hcounted.owners_eq key e he
    have hpos := hcounted.owners_pos key e he
    rw [hn, hzero] at howners
    omega

/-- A lookup that is about to be done is not done, and its entry is there. -/
theorem Released.finish (h : s.Released) (hrecorded : s.Recorded book) (hkept : s.Kept)
    {c : Caller K} {n : Nat} (o : Except E V) (hc : s.callers.get? c = some (.looking n)) :
    ((s.tell (.finished n c.key o)).place c (.storing n o)).Released := by
  obtain ⟨_, hrec, rfl⟩ := hrecorded.callers c _ n hc rfl
  have hlog : ((s.tell (.finished n c.key o)).place c (.storing n o)).log
      = s.log ++ [.finished n c.key o] := rfl
  have hfresh : ∀ v ∈ s.finishes, v.lookup ≠ n := by
    rintro v hv rfl
    obtain ⟨st, hrec', ho⟩ := hrecorded.exists_of_mem_finishes hv
    obtain ⟨-, rfl⟩ := Record.mk.inj (Option.some.inj (hrec.symm.trans hrec'))
    nomatch ho
  have hentry : s.entryOf? c.key n ≠ none := fun hnone => by
    have hgivenUp := hkept c.key n (leases_pos hc rfl) hnone
    nomatch ((tells_abandoned_iff hrec).1 ((hrecorded.log _ rfl).1 hgivenUp)).2
  refine ⟨?_, ?_, fun v => ?_⟩
  · rw [finishes_of_log hlog, List.map_append]
    refine List.nodup_append.2 ⟨h.finishes, List.pairwise_singleton .., fun m hm n' hn' => ?_⟩
    obtain ⟨v, hv, rfl⟩ := List.mem_map.1 hm
    rw [List.mem_singleton.1 hn']
    exact hfresh v hv
  · rw [releases_of_log hlog]
    exact (List.append_nil _).symm ▸ h.releases
  · rw [releases_of_log hlog, finishes_of_log hlog]
    change v ∈ s.releases ++ [] ↔
      v ∈ s.finishes ++ [⟨n, c.key, o⟩] ∧ s.entryOf? v.key v.lookup = none
    rw [List.append_nil, h.mem_iff, List.mem_append, List.mem_singleton, or_and_right]
    refine (or_iff_left ?_).symm
    rintro ⟨rfl, hnone⟩
    exact hentry hnone

/-- While the outcome of a lookup that is done is not yet in its entry, the caller that stores it
    has another lease on it. -/
theorem Kept.outcome_ne_none_of_last (hkept : s.Kept) (hcounted : s.Counted)
    (hrecorded : s.Recorded book) {c : Caller K} {n : Nat} {p p' : Phase V E} {m : Move K V E}
    (hc : s.callers.get? c = some p) (hpart : Parting c n p m p') {e : Entry V E}
    (he : s.entryOf? c.key n = some e) (hlast : e.owners ≤ 1) {o : Except E V}
    (hfinished : .finished n c.key o ∈ s.log) : e.outcome ≠ none := by
  intro hnone
  obtain ⟨hkey, rfl⟩ := entryOf?_eq_some_iff.1 he
  obtain ⟨st, hrec, ho, hgivenUp⟩ := hrecorded.exists_of_finished hfinished
  have hheld := (hrecorded.entry_eq hrec hkey).2
  rw [hnone] at hheld
  cases st with
  | done runner o' =>
    have hrunner := hrecorded.storing_of_done hrec
    have hne : runner ≠ c := by
      rintro rfl
      obtain rfl := Option.some.inj (hc.symm.trans hrunner)
      nomatch hpart
    have hkey' : runner.key = c.key := (hrecorded.fits hrec hrunner rfl).1.symm
    -- The runner keeps its lease, so the entry would have to stay.
    have hcallers : ((s.release c.key e.lookup).place c p').callers.get? runner = _ :=
      (congrArg (Table.get? · runner) (place_callers_of (release_callers ..) c p')).trans
        ((Table.get?_set ..).trans ((if_neg hne).trans hrunner))
    have hpos := leases_pos hcallers rfl
    rw [hkey'] at hpos
    have hgone : ((s.release c.key e.lookup).place c p').entryOf? c.key e.lookup = none := by
      have heq := (amends_release s c.key e.lookup).entryOf?_eq
        (fun _ _ => amends_release_lookup) c.key e.lookup
      rw [if_pos ⟨rfl, rfl⟩, he, Option.bind_some, if_pos hlast] at heq
      exact heq
    have hgivenUp' := hkept.part hcounted hc hpart c.key e.lookup hpos hgone
    exact hgivenUp ((mem_release_log rfl c.key e.lookup).1 hgivenUp')
  | flying | givenUp | removed | closed => nomatch ho
  | stored | published => nomatch hheld

/-- The last lease on a lookup ends, and its entry is gone. -/
theorem entryOf?_release_eq_none_iff {key : K} {n : Nat} {e : Entry V E}
    (he : s.entryOf? key n = some e) (hlast : e.owners ≤ 1) (k : K) (m : Nat) :
    (s.release key n).entryOf? k m = none ↔ s.entryOf? k m = none ∨ k = key ∧ m = n := by
  rw [(amends_release s key n).entryOf?_eq fun _ _ => amends_release_lookup]
  by_cases hkm : k = key ∧ m = n
  · rw [if_pos hkm, he, Option.bind_some, if_pos hlast]
    exact iff_of_true rfl (.inr hkm)
  · rw [if_neg hkm]
    exact (or_iff_left hkm).symm

/-- A verdict is released, and its entry is gone. -/
theorem Released.emit (h : s.Released) (hrecorded : s.Recorded book) {v : Verdict K V E}
    (hv : v ∈ s.finishes) (hheld : s.entryOf? v.key v.lookup ≠ none)
    (hfinishes : t.finishes = s.finishes) (hreleases : t.releases = s.releases ++ [v])
    (hgone : ∀ k m, t.entryOf? k m = none ↔
      s.entryOf? k m = none ∨ k = v.key ∧ m = v.lookup) : t.Released := by
  refine ⟨hfinishes ▸ h.finishes, ?_, fun w => ?_⟩
  · rw [hreleases, List.map_append]
    refine List.nodup_append.2 ⟨h.releases, List.pairwise_singleton .., fun m hm n hn => ?_⟩
    obtain ⟨w, hw, rfl⟩ := List.mem_map.1 hm
    rw [List.mem_singleton.1 hn]
    intro heq
    -- What is released already has no entry any more.
    obtain ⟨hw, hnone⟩ := (h.mem_iff w).1 hw
    obtain rfl := hrecorded.eq_of_mem_finishes hw hv heq
    exact hheld hnone
  · rw [hreleases, hfinishes, hgone, List.mem_append, List.mem_singleton, h.mem_iff, and_or_left]
    refine or_congr_right ⟨?_, fun ⟨hw, _, hn⟩ => hrecorded.eq_of_mem_finishes hw hv hn⟩
    rintro rfl
    exact ⟨hv, rfl, rfl⟩

/-- A lease that ends releases a lookup that is done if it was the last one. -/
theorem Released.part (h : s.Released) (hcounted : s.Counted) (hrecorded : s.Recorded book)
    (hkept : s.Kept) {c : Caller K} {n : Nat} {p p' : Phase V E} {m : Move K V E}
    (hc : s.callers.get? c = some p) (hpart : Parting c n p m p') :
    ((s.release c.key n).place c p').Released := by
  by_cases hlast : ∃ e, s.entryOf? c.key n = some e ∧ e.owners ≤ 1
  · obtain ⟨e, he, hlast⟩ := hlast
    have hgone : ∀ k m, ((s.release c.key n).place c p').entryOf? k m = none ↔
        s.entryOf? k m = none ∨ k = c.key ∧ m = n := entryOf?_release_eq_none_iff he hlast
    rcases release_of_last he hlast with ⟨hlog, hnone⟩ | ⟨o, r, ho, hlog⟩
    · refine h.keep hlog fun v hv => ?_
      rw [hgone]
      refine or_iff_left ?_
      rintro ⟨hkey, hn⟩
      rw [mem_finishes, hkey, hn] at hv
      exact hkept.outcome_ne_none_of_last hcounted hrecorded hc hpart he hlast hv hnone
    · obtain ⟨hkey, rfl⟩ := entryOf?_eq_some_iff.1 he
      have hverdict : (⟨e.lookup, c.key, o⟩ : Verdict K V E) ∈ s.finishes := by
        obtain ⟨st, hrec, hheld⟩ := hrecorded.entries c.key e hkey
        rw [ho] at hheld
        exact mem_finishes.2 ((hrecorded.log _ rfl).2
          ((tells_finished_iff hrec).2 ⟨rfl, Stage.outcome?_of_held? hheld⟩))
      exact h.emit hrecorded hverdict (by rw [he]; nofun)
        ((finishes_of_log hlog).trans (List.append_nil _)) (releases_of_log hlog) hgone
  · have hlog : (s.release c.key n).log = s.log :=
      release_of_not_last fun e he hle => hlast ⟨e, he, hle⟩
    have hamends : s.Amends ((s.release c.key n).place c p') c.key n _ := amends_release s c.key n
    refine h.keep hlog fun v hv => ?_
    refine hamends.entryOf?_eq_none_iff (fun _ _ => amends_release_lookup) ?_
    rintro hkey hn e he hnone
    refine hlast ⟨e, hkey ▸ hn ▸ he, Decidable.of_not_not fun hgt => ?_⟩
    rw [if_neg hgt] at hnone
    nomatch hnone

/-- A new entry is none of a lookup that is done. -/
theorem entryOf?_begin_eq_none_iff (hrecorded : s.Recorded book) {c : Caller K}
    (hfree : s.entries.get? c.key = none)
    (hentries : t.entries = s.entries.set c.key ⟨s.channels.length, 1, none⟩) {v : Verdict K V E}
    (hv : v ∈ s.finishes) :
    t.entryOf? v.key v.lookup = none ↔ s.entryOf? v.key v.lookup = none := by
  rw [entryOf?, entryOf?, hentries, Table.get?_set]
  split
  · rename_i hkey
    obtain ⟨st, hrec, -⟩ := hrecorded.exists_of_mem_finishes hv
    have hlt := (List.getElem?_eq_some_iff.1 hrec).1
    rw [← hrecorded.length_eq] at hlt
    rw [hkey, hfree, Option.filter_some, if_neg (by simpa using Nat.ne_of_gt hlt)]
    rfl
  · rfl

/-- Retaining an entry does nothing else. -/
theorem Released.retain (h : s.Released) (key : K) (n : Nat) (c : Caller K) (p : Phase V E) :
    ((s.retain key n).place c p).Released := by
  refine h.keep (retain_log ..) fun v _ => ?_
  exact (amends_retain s key n).entryOf?_eq_none_iff
    (fun _ _ h => Option.some.inj h ▸ rfl) fun _ _ _ _ h => nomatch h

theorem Released.step (h : s.Released) (hcounted : s.Counted) (hrecorded : s.Recorded book)
    (hkept : s.Kept) {m : Move K V E} (hstep : s.Step m t) : t.Released := by
  cases hstep with
  | call | withdraw | publish | close | turn => exact h.move rfl rfl fun _ _ => .rfl
  | join | clone => exact h.retain ..
  | @begin c hc hnone =>
    exact h.move ((finishes_of_log rfl).trans (List.append_nil _))
      ((releases_of_log rfl).trans (List.append_nil _)) fun v hv =>
        entryOf?_begin_eq_none_iff hrecorded (hrecorded.get?_eq_none hnone) rfl hv
  | finish o hc => exact h.finish hrecorded hkept o hc
  | giveUp =>
    exact h.move ((finishes_of_log rfl).trans (List.append_nil _))
      ((releases_of_log rfl).trans (List.append_nil _)) fun _ _ => .rfl
  | @store c n o hc =>
    refine h.keep (store_log ..) fun v _ => ?_
    exact (amends_store s c.key n o).entryOf?_eq_none_iff
      (fun _ _ h => Option.some.inj h ▸ rfl) fun _ _ _ _ h => nomatch h
  | @abandon c n ending hc =>
    refine h.keep (abandon_log ..) fun v hv => ?_
    refine (amends_abandon s c.key n).entryOf?_eq_none_iff (fun e e' hf => ?_) ?_
    · split at hf
      · nomatch hf
      · exact Option.some.inj hf ▸ rfl
    · -- The lookup of this entry is given up, so it is not done.
      rintro - rfl
      obtain ⟨st, hrec, ho⟩ := hrecorded.exists_of_mem_finishes hv
      obtain ⟨-, rfl⟩ := hrecorded.fits hrec hc rfl
      nomatch ho
  | part hc hpart => exact h.part hcounted hrecorded hkept hc hpart

/-- What is released is known in every state that can be reached. -/
theorem Reachable.released (reached : s.Reachable) : s.Released := by
  induction reached with
  | start =>
    exact ⟨List.nodup_nil, List.nodup_nil,
      fun _ => iff_of_false List.not_mem_nil fun h => absurd h.1 List.not_mem_nil⟩
  | move m reached possible ih =>
    obtain ⟨book, hrecorded⟩ := reached.recorded
    exact ih.step reached.counted hrecorded reached.kept (step_of_perform? possible)

/-! ## Once, and when -/

/-- A lookup that is done has been released if nobody has a lease on it, and once then. -/
theorem releasesOf_eq (reached : s.Reachable) {n : Nat} {key : K} {o : Except E V}
    (hfinished : .finished n key o ∈ s.log) :
    s.releasesOf n = if s.leases key n = 0 then [⟨n, key, o⟩] else [] := by
  obtain ⟨book, hrecorded⟩ := reached.recorded
  have hgone := entryOf?_eq_none_iff_leases reached.counted hrecorded reached.kept hfinished
  have hverdict : (⟨n, key, o⟩ : Verdict K V E) ∈ s.finishes := mem_finishes.2 hfinished
  split
  · rename_i hzero
    exact filter_lookup_eq reached.released.releases
      ((reached.released.mem_iff _).2 ⟨hverdict, hgone.2 hzero⟩)
  · rename_i hpos
    refine List.eq_nil_iff_forall_not_mem.2 fun v hv => hpos (hgone.1 ?_)
    obtain ⟨hv, hn⟩ := mem_releasesOf.1 hv
    obtain ⟨hv, hnone⟩ := (reached.released.mem_iff v).1 hv
    obtain rfl := hrecorded.eq_of_mem_finishes hv hverdict hn
    exact hnone

/-- The caller of a lookup that is done in a step has a lease on it. -/
theorem leases_pos_of_finished {n : Nat} {key : K} {o : Except E V} {m : Move K V E}
    (hstep : s.Step m t) (hold : .finished n key o ∉ s.log) (hnew : .finished n key o ∈ t.log) :
    0 < t.leases key n := by
  cases hstep with
  | finish o hc =>
    rcases List.mem_append.1 hnew with hnew | hnew
    · exact absurd hnew hold
    · obtain ⟨rfl, rfl, -⟩ := Event.finished.inj (List.mem_singleton.1 hnew)
      exact leases_pos (get?_place_self ..) rfl
  | call | withdraw | publish | close | turn => exact absurd hnew hold
  | begin | giveUp =>
    rcases List.mem_append.1 hnew with hnew | hnew
    · exact absurd hnew hold
    · nomatch List.mem_singleton.1 hnew
  | join | clone => exact absurd (by rwa [place_log, retain_log] at hnew) hold
  | store => exact absurd (by rwa [place_log, store_log] at hnew) hold
  | abandon => exact absurd (by rwa [place_log, abandon_log] at hnew) hold
  | part => exact absurd ((mem_release_log rfl ..).1 hnew) hold

/-- What is not done has not been released. -/
theorem releasesOf_eq_nil (reached : s.Reachable) {n : Nat}
    (hnot : ¬ ∃ key o, .finished n key o ∈ s.log) : s.releasesOf n = [] := by
  refine List.eq_nil_iff_forall_not_mem.2 fun v hv => ?_
  obtain ⟨hreleased, rfl⟩ := mem_releasesOf.1 hv
  exact hnot ⟨_, _, mem_finishes.1 ((reached.released.mem_iff v).1 hreleased).1⟩

/-- A lookup that is done in this very step has its lease still. -/
theorem releasesOf_eq_nil_of_step (reached : s.Reachable) {m : Move K V E}
    (possible : s.perform? m = some t) {n : Nat} (hnot : ¬ ∃ key o, .finished n key o ∈ s.log) :
    t.releasesOf n = [] := by
  have reached' := reached.move m possible
  by_cases hnew : ∃ key o, .finished n key o ∈ t.log
  · obtain ⟨key, o, hnew⟩ := hnew
    have hpos := leases_pos_of_finished (step_of_perform? possible)
      (fun hold => hnot ⟨_, _, hold⟩) hnew
    rw [releasesOf_eq reached' hnew, if_neg (Nat.ne_of_gt hpos)]
  · exact releasesOf_eq_nil reached' hnew

/-- A lookup is released by the step that ends the last lease on it after it was done. -/
theorem releasesOf_ne_iff (reached : s.Reachable) {m : Move K V E}
    (possible : s.perform? m = some t) (n : Nat) : t.releasesOf n ≠ s.releasesOf n ↔
      ∃ key o, .finished n key o ∈ s.log ∧ 0 < s.leases key n ∧ t.leases key n = 0 := by
  have hstep := step_of_perform? possible
  have reached' := reached.move m possible
  have hmono : ∀ v ∈ s.releasesOf n, v ∈ t.releasesOf n := fun v hv => by
    obtain ⟨hv, hn⟩ := mem_releasesOf.1 hv
    obtain ⟨r, hr⟩ := mem_releases.1 hv
    exact mem_releasesOf.2 ⟨mem_releases.2 ⟨r, hstep.log_mono hr⟩, hn⟩
  constructor
  · intro hne
    by_cases hfinished : ∃ key o, .finished n key o ∈ s.log
    · obtain ⟨key, o, hfinished⟩ := hfinished
      have hs := releasesOf_eq reached hfinished
      have ht := releasesOf_eq reached' (hstep.log_mono hfinished)
      refine ⟨key, o, hfinished, ?_⟩
      by_cases hzero : s.leases key n = 0
      · -- What has been released is not released again.
        rw [if_pos hzero] at hs
        have hv := hmono ⟨n, key, o⟩ (hs ▸ List.mem_singleton_self _)
        rw [ht] at hv
        split at hv
        · rename_i hzero'
          rw [hs, ht, if_pos hzero'] at hne
          exact absurd rfl hne
        · cases hv
      · refine ⟨Nat.pos_of_ne_zero hzero, Decidable.of_not_not fun hpos => ?_⟩
        rw [hs, ht, if_neg hzero, if_neg hpos] at hne
        exact hne rfl
    · have hs := releasesOf_eq_nil reached hfinished
      exact absurd (releasesOf_eq_nil_of_step reached possible hfinished) (hs ▸ hne)
  · rintro ⟨key, o, hfinished, hpos, hzero⟩
    rw [releasesOf_eq reached hfinished, releasesOf_eq reached' (hstep.log_mono hfinished),
      if_pos hzero, if_neg (Nat.ne_of_gt hpos)]
    exact List.cons_ne_nil _ _

/-- As many verdicts of a key are released as its lookups that are done and whose entry is gone. -/
theorem Released.countP_eq (h : s.Released) (key : K) :
    s.releases.countP (fun v => v.key = key) =
      s.finishes.countP fun v => v.key = key ∧ (s.entryOf? v.key v.lookup).isNone = true := by
  have hperm : s.releases.Perm
      (s.finishes.filter fun v => (s.entryOf? v.key v.lookup).isNone) := by
    refine (List.perm_ext_iff_of_nodup (List.Nodup.of_map _ h.releases)
      ((List.Nodup.of_map _ h.finishes).filter _)).2 fun v => ?_
    rw [List.mem_filter, h.mem_iff, Option.isNone_iff_eq_none]
  rw [hperm.countP_eq, List.countP_filter]
  exact List.countP_congr fun v _ => by simp

/-- **Once.** A lookup that is done has been released once, with its key and its outcome, if nobody
    has a lease on it, and not at all before; one that was given up never has; and nothing else is
    released. The step that releases a lookup is the one that ends the last lease on it. So the
    releases of a key are as many as its lookups that are done and whose entry is gone. -/
theorem released_once (reached : s.Reachable) :
    (∀ n key o, .finished n key o ∈ s.log →
      s.releasesOf n = if s.leases key n = 0 then [⟨n, key, o⟩] else []) ∧
    (∀ n key, .abandoned n key ∈ s.log → s.releasesOf n = []) ∧
    (∀ v ∈ s.releases, .finished v.lookup v.key v.outcome ∈ s.log) ∧
    (∀ m t n, s.perform? m = some t → (t.releasesOf n ≠ s.releasesOf n ↔
      ∃ key o, .finished n key o ∈ s.log ∧ 0 < s.leases key n ∧ t.leases key n = 0)) ∧
    (s.finishes.map Verdict.lookup).Nodup ∧
    ∀ key, s.releases.countP (fun v => v.key = key) =
      s.finishes.countP fun v => v.key = key ∧ (s.entryOf? v.key v.lookup).isNone = true := by
  have hreleased := reached.released
  have hfinished : ∀ v ∈ s.releases, .finished v.lookup v.key v.outcome ∈ s.log :=
    fun v hv => mem_finishes.1 ((hreleased.mem_iff v).1 hv).1
  refine ⟨fun n key o => releasesOf_eq reached, fun n key hgivenUp => ?_, hfinished,
    fun m t n possible => releasesOf_ne_iff reached possible n, hreleased.finishes,
    hreleased.countP_eq⟩
  obtain ⟨book, hrecorded⟩ := reached.recorded
  refine List.eq_nil_iff_forall_not_mem.2 fun v hv => ?_
  obtain ⟨hreleased', rfl⟩ := mem_releasesOf.1 hv
  obtain ⟨st, hrec, -, hnot⟩ := hrecorded.exists_of_finished (hfinished v hreleased')
  obtain ⟨rfl, -⟩ := (tells_abandoned_iff hrec).1 ((hrecorded.log _ rfl).1 hgivenUp)
  exact hnot hgivenUp

/-- A value is looked up and shared, and one of its two owners drops it. -/
def sharedMoves : List (Move Nat Nat Nat) :=
  [.call ⟨7, 0⟩, .step ⟨7, 0⟩, .finish ⟨7, 0⟩ (.ok 5), .step ⟨7, 0⟩, .step ⟨7, 0⟩, .step ⟨7, 0⟩,
    .clone ⟨7, 0⟩ 1, .drop ⟨7, 0⟩]

/-- The table after these moves. -/
def sharedTable : SingleFlight Nat Nat Nat := (start.run? sharedMoves).getD start

/-- The table after the other owner has dropped it too. -/
def emptiedTable : SingleFlight Nat Nat Nat :=
  (sharedTable.perform? (.drop ⟨7, 1⟩)).getD sharedTable

/-- The value is not released before the other owner drops it, and then it is. -/
theorem released_once_sharedTable :
    sharedTable.Reachable ∧ sharedTable.leases 7 0 = 1 ∧ sharedTable.releasesOf 0 = [] ∧
      sharedTable.perform? (.drop ⟨7, 1⟩) = some emptiedTable ∧ emptiedTable.leases 7 0 = 0 ∧
      emptiedTable.releasesOf 0 = [⟨0, 7, .ok 5⟩] ∧
      emptiedTable.releasesOf 0 ≠ sharedTable.releasesOf 0 := by
  have reached : sharedTable.Reachable :=
    reachable_of_run? .start (show start.run? sharedMoves = some sharedTable from rfl)
  have possible : sharedTable.perform? (.drop ⟨7, 1⟩) = some emptiedTable := rfl
  have hfinished : .finished 0 7 (.ok 5) ∈ sharedTable.log := .tail _ (.head _)
  have hfinished' : .finished 0 7 (.ok 5) ∈ emptiedTable.log := .tail _ (.head _)
  have hleases : sharedTable.leases 7 0 = 1 := by decide
  have hleases' : emptiedTable.leases 7 0 = 0 := by decide
  obtain ⟨honce, -, -, hstep, -⟩ := released_once reached
  refine ⟨reached, hleases, ?_, possible, hleases', ?_, ?_⟩
  · rw [honce 0 7 (.ok 5) hfinished, hleases]
    rfl
  · rw [(released_once (reached.move _ possible)).1 0 7 (.ok 5) hfinished', hleases']
    rfl
  · exact (hstep _ _ 0 possible).2 ⟨7, .ok 5, hfinished, hleases ▸ Nat.one_pos, hleases'⟩

end SingleFlight

end FrameRpc
