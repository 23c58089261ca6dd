import FrameRpc.Proofs.LookupSteps

/-!
# Leases are counted

The count in an entry is the number of callers that own a share of it (`Counted`). A move changes
the phase of one caller, and by one at most the leases of the lookup that it leaves or enters
(`leases_of_set`); the entry of this lookup, if it is still there, is changed alike, and no other
is. An entry that was removed and made anew under the same key has another number, so that the
leases of the old one no longer count (`owners_eq_leases`).
-/

namespace FrameRpc

namespace Table

variable {κ α : Type}

/-- What the value of a key adds to a count. -/
def weight (holds : κ → α → Bool) (key : κ) : Option α → Nat
  | some a => if holds key a then 1 else 0
  | none => 0

variable [DecidableEq κ]

theorem countP_put (holds : κ → α → Bool) (key : κ) (a : α) (es : List (κ × α)) :
    (put key a es).countP (fun e => holds e.1 e.2) + weight holds key (find key es)
      = es.countP (fun e => holds e.1 e.2) + weight holds key (some a) := by
  induction es with
  | nil => rw [put, find, List.countP_cons]; rfl
  | cons e rest ih =>
    obtain ⟨k, b⟩ := e
    rw [put, find]
    by_cases hk : k = key
    · -- The head is the entry of the key: it is replaced, and the rest stays.
      subst hk
      rw [if_pos rfl, if_pos rfl, List.countP_cons, List.countP_cons]
      simp only [weight]
      omega
    · rw [if_neg hk, if_neg hk, List.countP_cons, List.countP_cons]
      omega

/-- Setting a key replaces what its value adds to a count. -/
theorem count_set (holds : κ → α → Bool) (t : Table κ α) (key : κ) (a : α) :
    (t.set key a).count holds + weight holds key (t.get? key)
      = t.count holds + weight holds key (some a) := countP_put holds key a t.entries

end Table

namespace SingleFlight

variable {K V E : Type} [DecidableEq K] {s t : SingleFlight K V E}

/-! ## Leases -/

/-- What a caller adds to the leases of a lookup. -/
def share (key : K) (n : Nat) (c : Caller K) (p : Option (Phase V E)) : Nat :=
  if c.key = key ∧ p.bind Phase.lease? = some n then 1 else 0

/-- Placing a caller changes the leases by its share alone. -/
theorem leases_of_set {c : Caller K} {p : Phase V E} (h : t.callers = s.callers.set c p) (key : K)
    (n : Nat) : t.leases key n + share key n c (s.callers.get? c)
      = s.leases key n + share key n c (some p) := by
  have hcount := Table.count_set (fun c p => c.key = key ∧ p.lease? = some n) s.callers c p
  have hweight : ∀ o : Option (Phase V E), Table.weight
      (fun (c : Caller K) p => decide (c.key = key ∧ p.lease? = some n)) c o = share key n c o := by
    intro o
    cases o with
    | none => simp [Table.weight, share]
    | some p => simp [Table.weight, share]
  rw [hweight, hweight, ← h] at hcount
  exact hcount

/-- A caller that owns a share is a lease. -/
theorem leases_pos {c : Caller K} {p : Phase V E} {n : Nat} (h : s.callers.get? c = some p)
    (hn : p.lease? = some n) : 0 < s.leases c.key n := by
  refine List.countP_pos_iff.2 ⟨(c, p), Table.mem_entries_iff.2 h, ?_⟩
  simp [hn]

theorem leases_eq_zero {key : K} {n : Nat}
    (h : ∀ c p, s.callers.get? c = some p → c.key = key → p.lease? ≠ some n) :
    s.leases key n = 0 := by
  refine List.countP_eq_zero.2 fun e he hlease => ?_
  rw [decide_eq_true_eq] at hlease
  exact h e.1 e.2 (Table.mem_entries_iff.1 he) hlease.1 hlease.2

/-! ## Counts -/

/-- Every entry counts the callers that own a share of it, of which there are some. -/
structure Counted (s : SingleFlight K V E) : Prop where
  /-- Leases are on lookups that have started. -/
  started : ∀ c p n, s.callers.get? c = some p → p.lease? = some n → n < s.channels.length
  owners_eq : ∀ key e, s.entries.get? key = some e → e.owners = s.leases key e.lookup
  owners_pos : ∀ key e, s.entries.get? key = some e → 1 ≤ e.owners

theorem counted_start : Counted (start : SingleFlight K V E) where
  started := fun _ _ _ h => nomatch h
  owners_eq := fun _ _ h => nomatch h
  owners_pos := fun _ _ h => nomatch h

/-- The lookup of an entry has started. -/
theorem Counted.lookup_lt (h : Counted s) {key : K} {e : Entry V E}
    (he : s.entries.get? key = some e) : e.lookup < s.channels.length := by
  -- Otherwise nobody could have a lease on the lookup, but the entry counts some.
  refine Nat.lt_of_not_le fun hle => ?_
  have hzero : s.leases key e.lookup = 0 := leases_eq_zero fun c p hc _ hp =>
    Nat.not_lt.2 hle (h.started c p e.lookup hc hp)
  have := h.owners_eq key e he
  have := h.owners_pos key e he
  omega

/-- A caller is placed where it has a lease on a lookup that has started, or none at all. -/
theorem Counted.started_place (h : Counted s) {c : Caller K} {p' : Phase V E}
    (hcallers : t.callers = s.callers.set c p') (hchannels : s.channels.length ≤ t.channels.length)
    (hp : ∀ n, p'.lease? = some n → n < t.channels.length) :
    ∀ c p n, t.callers.get? c = some p → p.lease? = some n → n < t.channels.length := by
  intro c' p n hc' hn
  rw [hcallers, Table.get?_set] at hc'
  split at hc'
  · obtain rfl := Option.some.inj hc'
    exact hp n hn
  · exact Nat.lt_of_lt_of_le (h.started c' p n hc' hn) hchannels

/-- A caller moves on with the lease that it has or without one, and no entry changes its count. -/
theorem Counted.move (h : Counted s) {c : Caller K} {p' : Phase V E}
    (hcallers : t.callers = s.callers.set c p') (hchannels : t.channels.length = s.channels.length)
    (hlease : p'.lease? = (s.callers.get? c).bind Phase.lease?)
    (hentries : ∀ key e', t.entries.get? key = some e' → ∃ e, s.entries.get? key = some e ∧
      e'.lookup = e.lookup ∧ e'.owners = e.owners) : Counted t := by
  have hleases : ∀ key n, t.leases key n = s.leases key n := by
    intro key n
    have hplace := leases_of_set hcallers key n
    simp only [share, Option.bind_some, hlease] at hplace
    omega
  refine ⟨h.started_place hcallers (Nat.le_of_eq hchannels.symm) fun n hn => ?_,
    fun key e' he' => ?_, fun key e' he' => ?_⟩
  · rw [hlease] at hn
    obtain ⟨p, hp, hn⟩ := Option.bind_eq_some_iff.1 hn
    rw [hchannels]
    exact h.started c p n hp hn
  · obtain ⟨e, he, hlookup, howners⟩ := hentries key e' he'
    rw [hleases, hlookup, howners]
    exact h.owners_eq key e he
  · obtain ⟨e, he, -, howners⟩ := hentries key e' he'
    rw [howners]
    exact h.owners_pos key e he

/-- A caller gets a lease on an entry that is there, or on one that is not. -/
theorem Counted.gain (h : Counted s) {c : Caller K} {p' : Phase V E} {n : Nat}
    (hn : n < s.channels.length) (hlease : (s.callers.get? c).bind Phase.lease? = none)
    (hp' : p'.lease? = some n) : Counted ((s.retain c.key n).place c p') := by
  have hcallers : ((s.retain c.key n).place c p').callers = s.callers.set c p' :=
    place_callers_of (retain_callers ..) ..
  have hchannels : ((s.retain c.key n).place c p').channels = s.channels := retain_channels c.key n
  have hleases : ∀ key m, ((s.retain c.key n).place c p').leases key m
      = s.leases key m + if c.key = key ∧ n = m then 1 else 0 := by
    intro key m
    have hplace := leases_of_set hcallers key m
    simp only [share, Option.bind_some, hlease, hp', Option.some.injEq, reduceCtorEq, and_false,
      if_false] at hplace
    omega
  refine ⟨h.started_place hcallers (Nat.le_of_eq (congrArg List.length hchannels.symm)) ?_, ?_, ?_⟩
  · intro m hm
    rw [hp'] at hm
    rw [← Option.some.inj hm, hchannels]
    exact hn
  · intro key e' he'
    obtain ⟨e, he, ⟨rfl, rfl, hf⟩ | ⟨hne, rfl⟩⟩ := (amends_retain s c.key n).exists_of_get? he'
    · obtain rfl := Option.some.inj hf
      rw [hleases, if_pos ⟨rfl, rfl⟩]
      exact congrArg (· + 1) (h.owners_eq c.key e he)
    · rw [hleases, if_neg fun hkn => hne ⟨hkn.1.symm, hkn.2.symm⟩]
      exact h.owners_eq key e' he
  · intro key e' he'
    obtain ⟨e, he, ⟨rfl, rfl, hf⟩ | ⟨hne, rfl⟩⟩ := (amends_retain s c.key n).exists_of_get? he'
    · obtain rfl := Option.some.inj hf
      exact Nat.le_add_left 1 e.owners
    · exact h.owners_pos key e' he

/-- A caller gives up its lease, on an entry that is there or on one that is not. -/
theorem Counted.lose (h : Counted s) {c : Caller K} {p p' : Phase V E} {n : Nat}
    (hc : s.callers.get? c = some p) (hp : p.lease? = some n) (hp' : p'.lease? = none) :
    Counted ((s.release c.key n).place c p') := by
  have hcallers : ((s.release c.key n).place c p').callers = s.callers.set c p' :=
    place_callers_of (release_callers ..) ..
  have hchannels : ((s.release c.key n).place c p').channels = s.channels :=
    release_channels c.key n
  have hleases : ∀ key m, ((s.release c.key n).place c p').leases key m
      + (if c.key = key ∧ n = m then 1 else 0) = s.leases key m := by
    intro key m
    have hplace := leases_of_set hcallers key m
    simp only [share, hc, Option.bind_some, hp, hp', Option.some.injEq, reduceCtorEq, and_false,
      if_false] at hplace
    omega
  refine ⟨h.started_place hcallers (Nat.le_of_eq (congrArg List.length hchannels.symm)) ?_, ?_, ?_⟩
  · intro m hm
    rw [hp'] at hm
    cases hm
  · intro key e' he'
    have hlease := hleases key e'.lookup
    obtain ⟨e, he, ⟨rfl, rfl, hf⟩ | ⟨hne, rfl⟩⟩ := (amends_release s c.key n).exists_of_get? he'
    · -- The last lease takes the entry with it, so the entry that stays had two at least.
      have howners := h.owners_eq c.key e he
      split at hf
      · cases hf
      · obtain rfl := Option.some.inj hf
        rw [if_pos ⟨rfl, rfl⟩] at hlease
        dsimp only at hlease ⊢
        omega
    · rw [if_neg fun hkn => hne ⟨hkn.1.symm, hkn.2.symm⟩] at hlease
      rw [h.owners_eq key e' he]
      omega
  · intro key e' he'
    obtain ⟨e, he, ⟨rfl, rfl, hf⟩ | ⟨hne, rfl⟩⟩ := (amends_release s c.key n).exists_of_get? he'
    · split at hf
      · cases hf
      · obtain rfl := Option.some.inj hf
        dsimp only
        omega
    · exact h.owners_pos key e' he

/-- A lookup starts, with a number that no lease is on. -/
theorem Counted.begin (h : Counted s) {c : Caller K} (hc : s.callers.get? c = some .joining)
    (hentries : t.entries = s.entries.set c.key ⟨s.channels.length, 1, none⟩)
    (hchannels : t.channels = s.channels ++ [.silent])
    (hcallers : t.callers = s.callers.set c (.looking s.channels.length)) : Counted t := by
  have hlength : t.channels.length = s.channels.length + 1 := by
    rw [hchannels, List.length_append]
    rfl
  have hfresh : s.leases c.key s.channels.length = 0 := leases_eq_zero fun c' p hc' _ hp =>
    Nat.lt_irrefl _ (h.started c' p _ hc' hp)
  have hleases : ∀ key m, t.leases key m
      = s.leases key m + if c.key = key ∧ s.channels.length = m then 1 else 0 := by
    intro key m
    have hplace := leases_of_set hcallers key m
    simp only [share, hc, Option.bind_some, Phase.lease?, Option.some.injEq, reduceCtorEq,
      and_false, if_false] at hplace
    omega
  refine ⟨h.started_place hcallers (by omega) fun m hm => ?_, fun key e he => ?_,
    fun key e he => ?_⟩
  · rw [← Option.some.inj hm, hlength]
    exact Nat.lt_succ_self _
  · rw [hentries, Table.get?_set] at he
    rw [hleases]
    split at he
    · rename_i hkey
      obtain rfl := Option.some.inj he
      rw [hkey, hfresh, if_pos ⟨rfl, rfl⟩]
    · rename_i hkey
      rw [if_neg fun hkn => hkey hkn.1.symm]
      exact h.owners_eq key e he
  · rw [hentries, Table.get?_set] at he
    split at he
    · obtain rfl := Option.some.inj he
      exact Nat.le_refl 1
    · exact h.owners_pos key e he

theorem Counted.step (h : Counted s) {m : Move K V E} (hstep : s.Step m t) : Counted t := by
  have hsame : ∀ key e', s.entries.get? key = some e' → ∃ e, s.entries.get? key = some e ∧
      e'.lookup = e.lookup ∧ e'.owners = e.owners := fun _ e' he' => ⟨e', he', rfl, rfl⟩
  cases hstep with
  | call hc => exact h.move rfl rfl (by rw [hc]; rfl) hsame
  | withdraw hc => exact h.move rfl rfl (by rw [hc]; rfl) hsame
  | join hc hlive =>
    refine h.gain ?_ (by rw [hc]; rfl) (Entry.lease?_joined _)
    exact h.lookup_lt (get?_of_live hlive)
  | begin hc hnone => exact h.begin hc rfl rfl rfl
  | finish o hc => exact h.move rfl rfl (by rw [hc]; rfl) hsame
  | giveUp ending hm hc => exact h.move rfl rfl (by rw [hc]; rfl) hsame
  | @store c n o hc =>
    refine h.move (place_callers_of (store_callers ..) ..)
      (by rw [place_channels, store_channels]) (by rw [hc]; rfl) fun key e' he' =>
        (amends_store s c.key n o).exists_related
          (fun e e' => e'.lookup = e.lookup ∧ e'.owners = e.owners) (fun _ => ⟨rfl, rfl⟩)
          (fun e e' hf => ?_) he'
    obtain rfl := Option.some.inj hf
    exact ⟨rfl, rfl⟩
  | publish hc => exact h.move rfl List.length_set (by rw [hc]; rfl) hsame
  | @abandon c n ending hc =>
    refine h.move (place_callers_of (abandon_callers ..) ..)
      (by rw [place_channels, abandon_channels]) (by rw [hc]; rfl) fun key e' he' =>
        (amends_abandon s c.key n).exists_related
          (fun e e' => e'.lookup = e.lookup ∧ e'.owners = e.owners) (fun _ => ⟨rfl, rfl⟩)
          (fun e e' hf => ?_) he'
    split at hf
    · nomatch hf
    · obtain rfl := Option.some.inj hf
      exact ⟨rfl, rfl⟩
  | close hc => exact h.move rfl List.length_set (by rw [hc]; rfl) hsame
  | turn hc hturn =>
    refine h.move rfl rfl ?_ hsame
    rw [hc, Option.bind_some, hturn.lease?_eq.1, hturn.lease?_eq.2]
  | part hc hpart => exact h.lose hc hpart.lease?_eq.1 hpart.lease?_eq.2
  | @clone c number n v hc hfree =>
    exact h.gain (c := ⟨c.key, number⟩) (h.started c _ n hc rfl) (by rw [hfree]; rfl) rfl

/-- The entries of every state that can be reached are counted. -/
theorem Reachable.counted (reached : s.Reachable) : Counted s := by
  induction reached with
  | start => exact counted_start
  | move m _ possible ih => exact ih.step (step_of_perform? possible)

/-- A caller whose lease is on an entry that is gone changes no entry. -/
theorem entries_eq_of_gone {p : Phase V E} {n : Nat} {m : Move K V E}
    (hc : s.callers.get? m.caller = some p) (hp : p.lease? = some n)
    (hgone : s.entryOf? m.caller.key n = none) (hstep : s.Step m t) : t.entries = s.entries := by
  cases hstep with
  | call h => nomatch hc.symm.trans h
  | withdraw h | join h _ | begin h _ =>
    obtain rfl := Option.some.inj (hc.symm.trans h)
    nomatch hp
  | finish _ _ | giveUp _ _ _ | publish _ | close _ | turn _ _ => rfl
  | store h =>
    obtain rfl := Option.some.inj (hc.symm.trans h)
    obtain rfl := Option.some.inj hp
    exact (place_entries ..).trans (congrArg SingleFlight.entries (store_of_none _ hgone))
  | abandon h =>
    obtain rfl := Option.some.inj (hc.symm.trans h)
    obtain rfl := Option.some.inj hp
    exact (place_entries ..).trans (congrArg SingleFlight.entries (abandon_of_none hgone))
  | part h hpart =>
    rw [hpart.caller_eq] at hc hgone
    obtain rfl := Option.some.inj (hc.symm.trans h)
    obtain rfl := Option.some.inj (hp.symm.trans hpart.lease?_eq.1)
    exact (place_entries ..).trans (congrArg SingleFlight.entries (release_of_none hgone))
  | clone h _ =>
    obtain rfl := Option.some.inj (hc.symm.trans h)
    obtain rfl := Option.some.inj hp
    exact (place_entries ..).trans (congrArg SingleFlight.entries (retain_of_none hgone))

/-- The count in every entry is the number of leases on its lookup, of which there is one at least;
    without an entry there is no count. What the owner of a lease does, when its entry is gone,
    changes no entry, and so no count of a later one. -/
theorem owners_eq_leases (reached : s.Reachable) :
    (∀ key e, s.entries.get? key = some e → e.owners = s.leases key e.lookup ∧ 1 ≤ e.owners) ∧
      (∀ key, s.entries.get? key = none → s.owners key = 0) ∧
      ∀ (m : Move K V E) (p : Phase V E) (n : Nat) (t : SingleFlight K V E),
        s.callers.get? m.caller = some p → p.lease? = some n →
        s.entryOf? m.caller.key n = none → s.perform? m = some t → t.entries = s.entries := by
  refine ⟨fun key e he => ?_, fun key hnone => ?_, fun m p n t hc hp hgone possible => ?_⟩
  · exact ⟨reached.counted.owners_eq key e he, reached.counted.owners_pos key e he⟩
  · rw [owners, hnone]
    rfl
  · exact entries_eq_of_gone hc hp hgone (step_of_perform? possible)

/-- The caller of a first lookup is cancelled and a second one starts, while a caller that waited
    for the first is about to leave. -/
def staleMoves : List (Move Nat Nat Nat) :=
  [.call ⟨7, 0⟩, .call ⟨7, 1⟩, .step ⟨7, 0⟩, .step ⟨7, 1⟩, .cancel ⟨7, 0⟩, .step ⟨7, 0⟩,
    .call ⟨7, 2⟩, .step ⟨7, 2⟩, .cancel ⟨7, 1⟩]

/-- The table after these moves. -/
def staleLease : SingleFlight Nat Nat Nat := (start.run? staleMoves).getD start

theorem reachable_staleLease : staleLease.Reachable :=
  reachable_of_run? .start (show start.run? staleMoves = some staleLease from rfl)

/-- The stale lease does not count in the entry of the second lookup, and ending it changes
    nothing. -/
theorem owners_of_staleLease :
    staleLease.Reachable ∧ staleLease.owners 7 = 1 ∧
      (∀ e, staleLease.entries.get? 7 = some e → e.owners = staleLease.leases 7 e.lookup) ∧
      ∀ t, staleLease.perform? (.step ⟨7, 1⟩) = some t → t.entries = staleLease.entries :=
  ⟨reachable_staleLease, by decide,
    fun e he => ((owners_eq_leases reachable_staleLease).1 7 e he).1,
    fun t ht => (owners_eq_leases reachable_staleLease).2.2 (.step ⟨7, 1⟩)
      (.leaving 0 .cancelled) 0 t rfl rfl rfl ht⟩

end SingleFlight

end FrameRpc
