import FrameRpc.Proofs.Settling

/-!
# Callers come to rest

Callers that take one step after another come to an end: with every step the table is left with less
work (`work_lt_of_perform?`), so that no more steps can be taken than there is work
(`length_le_work`), and from every state that can be reached the callers of a key can settle it
(`exists_settled`).

The work of a caller is the number of steps that it may still take. Two kinds of steps make work
for others, since they wake those who wait: to publish an outcome, and to close a channel. So the
work of who is about to do this covers all who may wait (`Phase.effort`).
-/

namespace FrameRpc

namespace Table

variable {κ α : Type} {f g : κ → α → Nat} {d : Nat}

/-- The sum of what the keys weigh with their values. -/
def sum (f : κ → α → Nat) (t : Table κ α) : Nat := t.entries.foldr (fun e n => f e.1 e.2 + n) 0

theorem sum_one (t : Table κ α) : t.sum (fun _ _ => 1) = t.size := by
  rw [sum, size]
  induction t.entries with
  | nil => rfl
  | cons e rest ih =>
    rw [List.foldr_cons, ih, List.length_cons, Nat.add_comm]

/-- A key that weighs more by a bound at most adds this bound at most. -/
theorem sum_le_add (h : ∀ k a, f k a ≤ g k a + d) (t : Table κ α) :
    t.sum f ≤ t.sum g + d * t.size := by
  rw [sum, sum, size]
  induction t.entries with
  | nil => exact Nat.zero_le _
  | cons e rest ih =>
    have hfirst := h e.1 e.2
    rw [List.foldr_cons, List.foldr_cons, List.length_cons, Nat.mul_succ]
    omega

variable [DecidableEq κ] {t : Table κ α} {key : κ} {a : α}

theorem sum_put (f : κ → α → Nat) {es : List (κ × α)} (h : find key es = some a) (b : α) :
    (put key b es).foldr (fun e n => f e.1 e.2 + n) 0 + f key a
      = es.foldr (fun e n => f e.1 e.2 + n) 0 + f key b := by
  induction es with
  | nil => cases h
  | cons e rest ih =>
    obtain ⟨k, c⟩ := e
    rw [find] at h
    rw [put]
    by_cases hk : k = key
    · -- The head is the entry of the key: it is replaced, and the rest stays.
      subst hk
      rw [if_pos rfl] at h
      obtain rfl := Option.some.inj h
      rw [if_pos rfl, List.foldr_cons, List.foldr_cons]
      dsimp only
      omega
    · rw [if_neg hk] at h
      have hrest := ih h
      rw [if_neg hk, List.foldr_cons, List.foldr_cons]
      omega

/-- Setting a key that is there replaces what it weighs. -/
theorem sum_set (f : κ → α → Nat) (h : t.get? key = some a) (b : α) :
    (t.set key b).sum f + f key a = t.sum f + f key b := sum_put f h b

theorem size_set (h : t.get? key = some a) (b : α) : (t.set key b).size = t.size := by
  have hsum := sum_set (fun _ _ => 1) h b
  rw [sum_one, sum_one] at hsum
  omega

end Table

namespace SingleFlight

variable {K V E : Type}

/-- The number of steps that a caller may take that the channel lets go on: it retries, joins and
    resolves. -/
def Channel.effort : Channel V E → Nat
  | .silent => 0
  | .published _ | .closed => 4

/-- A bound of the steps that a caller may take, with those of whom it wakes. -/
def Phase.effort (s : SingleFlight K V E) : Phase V E → Nat
  | .storing _ _ | .abandoning _ _ => 4 * s.callers.size + 3
  | .publishing _ _ | .closing _ _ => 4 * s.callers.size + 2
  | .waiting n => (s.channel n).effort
  | .retrying _ => 3
  | .joining => 2
  | .resolving _ _ | .leaving _ _ => 1
  | .looking _ | .holding _ _ | .ended _ => 0

/-- A bound of the steps that callers may take. -/
def work (s : SingleFlight K V E) : Nat := s.callers.sum fun _ p => p.effort s

theorem Channel.effort_le (ch : Channel V E) : ch.effort ≤ 4 := by
  cases ch with
  | silent => exact Nat.zero_le 4
  | published | closed => exact Nat.le_refl 4

/-- The channel of a lookup that starts is silent, so it wakes nobody. -/
theorem effort_channel_concat (s : SingleFlight K V E) {t : SingleFlight K V E}
    (h : t.channels = s.channels ++ [.silent]) (n : Nat) :
    (t.channel n).effort ≤ (s.channel n).effort := by
  rw [channel, channel, h, List.getD_eq_getElem?_getD, List.getD_eq_getElem?_getD]
  rcases Nat.lt_trichotomy n s.channels.length with hlt | rfl | hgt
  · exact Nat.le_of_eq (by rw [List.getElem?_append_left hlt])
  · rw [List.getElem?_concat_length]
    exact Nat.zero_le _
  · have hnone : (s.channels ++ [.silent])[n]? = none := List.getElem?_eq_none (by simp; omega)
    exact Nat.le_of_eq (by rw [hnone, List.getElem?_eq_none (Nat.le_of_lt hgt)])

/-- No caller has more work, if the channels let none go on that they did not before. -/
theorem Phase.effort_le {s t : SingleFlight K V E} (hsize : t.callers.size = s.callers.size)
    (hchannel : ∀ n, (t.channel n).effort ≤ (s.channel n).effort) (p : Phase V E) :
    p.effort t ≤ p.effort s := by
  cases p with
  | waiting n => exact hchannel n
  | storing | abandoning | publishing | closing => simp only [effort, hsize, Nat.le_refl]
  | _ => exact Nat.le_refl _

theorem Phase.effort_congr {s t : SingleFlight K V E} (hsize : t.callers.size = s.callers.size)
    (hchannel : ∀ n, t.channel n = s.channel n) (p : Phase V E) : p.effort t = p.effort s :=
  Nat.le_antisymm
    (effort_le hsize (fun n => Nat.le_of_eq (congrArg Channel.effort (hchannel n))) p)
    (effort_le hsize.symm (fun n => Nat.le_of_eq (congrArg Channel.effort (hchannel n).symm)) p)

/-- Whatever the channels do, a caller gets no more work than to go on from where it waits. -/
theorem Phase.effort_le_add {s t : SingleFlight K V E} (hsize : t.callers.size = s.callers.size)
    (p : Phase V E) : p.effort t ≤ p.effort s + 4 := by
  cases p with
  | waiting n => exact Nat.le_add_left_of_le (t.channel n).effort_le
  | storing | abandoning | publishing | closing => simp only [effort, hsize, Nat.le_add_right]
  | _ => exact Nat.le_add_right _ _

variable [DecidableEq K] {s t : SingleFlight K V E} {c : Caller K} {p p' : Phase V E}

/-- A caller lowers the work if its step pays for the work that it makes for others. -/
theorem work_lt {d : Nat} (hc : s.callers.get? c = some p)
    (hcallers : t.callers = s.callers.set c p')
    (hothers : ∀ q : Phase V E, q.effort t ≤ q.effort s + d)
    (hpays : p'.effort t + d * s.callers.size < p.effort t) : t.work < s.work := by
  -- First the channels change for all callers, and then the one that moves is placed.
  have hset : t.work + p.effort t = s.callers.sum (fun _ q => q.effort t) + p'.effort t := by
    rw [work, hcallers]
    exact Table.sum_set (fun _ q => q.effort t) hc p'
  have hsum : s.callers.sum (fun _ q => q.effort t) ≤ s.work + d * s.callers.size :=
    Table.sum_le_add (fun _ => hothers) s.callers
  omega

/-- A caller that leaves the channels alone lowers the work by its own. -/
theorem work_place_lt {u : SingleFlight K V E} (hc : s.callers.get? c = some p)
    (hcallers : u.callers = s.callers) (hchannels : u.channels = s.channels)
    (hpays : p'.effort s < p.effort s) : (u.place c p').work < s.work := by
  have hcallers' : (u.place c p').callers = s.callers.set c p' := place_callers_of hcallers ..
  have hsize : (u.place c p').callers.size = s.callers.size := hcallers' ▸ Table.size_set hc p'
  have hsame (q : Phase V E) : q.effort (u.place c p') = q.effort s := by
    refine Phase.effort_congr hsize (fun n => ?_) q
    rw [channel, place_channels, hchannels, channel]
  refine work_lt (d := 0) hc hcallers' (fun q => Nat.le_of_eq (hsame q)) ?_
  rwa [hsame, hsame, Nat.zero_mul]

/-- A caller that may wake all others lowers the work, as theirs was counted as its own. -/
theorem work_place_lt_of_waking {u : SingleFlight K V E} (hc : s.callers.get? c = some p)
    (hcallers : u.callers = s.callers) (hpays : p'.effort (u.place c p') = 1)
    (hcovers : p.effort (u.place c p') = 4 * (u.place c p').callers.size + 2) :
    (u.place c p').work < s.work := by
  have hcallers' : (u.place c p').callers = s.callers.set c p' := place_callers_of hcallers ..
  have hsize : (u.place c p').callers.size = s.callers.size := hcallers' ▸ Table.size_set hc p'
  refine work_lt (d := 4) hc hcallers' (Phase.effort_le_add hsize) ?_
  omega

/-- Who joins an entry resolves its outcome, or waits for a lookup that goes on. -/
theorem Recorded.effort_joined {book : List (Record K V E)} (h : s.Recorded book) {key : K}
    {e : Entry V E} (he : s.entries.get? key = some e) : e.joined.effort s < 2 := by
  obtain ⟨st, hrec, hheld⟩ := h.entries key e he
  rw [Entry.joined]
  cases ho : e.outcome with
  | some o => exact Nat.lt_succ_self 1
  | none =>
    rw [ho] at hheld
    show (s.channel e.lookup).effort < 2
    rw [h.channel_eq hrec]
    -- The channel of a lookup with a pending entry is silent.
    cases st with
    | flying | done | givenUp => exact Nat.zero_lt_two
    | _ => cases hheld

/-- A caller that joins lowers the work. -/
theorem work_join_lt (reached : s.Reachable) (hc : s.callers.get? c = some .joining) :
    (s.join c).work < s.work := by
  obtain ⟨book, h⟩ := reached.recorded
  cases hlive : s.liveEntry? c.key with
  | none =>
    rw [join_of_none hlive]
    refine work_lt (d := 0) hc rfl (Phase.effort_le (Table.size_set hc _) fun n => ?_) ?_
    · exact effort_channel_concat s rfl n
    · exact (Nat.zero_mul _).symm ▸ Nat.zero_lt_two
  | some e =>
    rw [join_of_live hlive]
    exact work_place_lt hc (retain_callers ..) (retain_channels ..)
      (h.effort_joined (get?_of_live hlive))

/-- Every step of a caller lowers the work. -/
theorem work_lt_of_step? (reached : s.Reachable) (hc : s.callers.get? c = some p)
    (hstep : s.step? c p = some t) : t.work < s.work := by
  cases p with
  | joining => exact Option.some.inj hstep ▸ work_join_lt reached hc
  | storing n o =>
    obtain rfl := Option.some.inj hstep
    exact work_place_lt hc (store_callers ..) (store_channels ..) (Nat.lt_succ_self _)
  | publishing n o =>
    -- Whoever waits for the lookup wakes.
    obtain rfl := Option.some.inj hstep
    exact work_place_lt_of_waking hc rfl rfl rfl
  | waiting n =>
    rw [step?] at hstep
    cases hchannel : s.channel n with
    | silent =>
      rw [hchannel] at hstep
      cases hstep
    | published o =>
      rw [hchannel] at hstep
      obtain rfl := Option.some.inj hstep
      refine work_place_lt hc rfl rfl ?_
      rw [Phase.effort, Phase.effort, hchannel]
      show 1 < 4
      decide
    | closed =>
      rw [hchannel] at hstep
      obtain rfl := Option.some.inj hstep
      refine work_place_lt hc rfl rfl ?_
      rw [Phase.effort, Phase.effort, hchannel]
      exact Nat.lt_succ_self 3
  | resolving n o =>
    cases o with
    | ok v =>
      obtain rfl := Option.some.inj hstep
      exact work_place_lt hc rfl rfl Nat.zero_lt_one
    | error e =>
      obtain rfl := Option.some.inj hstep
      exact work_place_lt hc (release_callers ..) (release_channels ..) Nat.zero_lt_one
  | retrying n =>
    obtain rfl := Option.some.inj hstep
    exact work_place_lt hc (release_callers ..) (release_channels ..) (Nat.lt_succ_self 2)
  | abandoning n ending =>
    obtain rfl := Option.some.inj hstep
    exact work_place_lt hc (abandon_callers ..) (abandon_channels ..) (Nat.lt_succ_self _)
  | closing n ending =>
    -- So they do when it is given up.
    obtain rfl := Option.some.inj hstep
    exact work_place_lt_of_waking hc rfl rfl rfl
  | leaving n ending =>
    obtain rfl := Option.some.inj hstep
    exact work_place_lt hc (release_callers ..) (release_channels ..) Nat.zero_lt_one
  | looking _ | holding _ _ | ended _ => cases hstep

/-- Callers cannot take more steps than there is work. -/
theorem length_le_work (reached : s.Reachable) {moves : List (Move K V E)}
    (hmoves : ∀ m ∈ moves, ∃ c, m = .step c) (hrun : s.run? moves = some t) :
    moves.length ≤ s.work := by
  induction moves generalizing s with
  | nil => exact Nat.zero_le _
  | cons m rest ih =>
    obtain ⟨u, hu, hrest⟩ := Option.bind_eq_some_iff.1 hrun
    obtain ⟨c, rfl⟩ := hmoves m List.mem_cons_self
    obtain ⟨p, hp, hstep⟩ := Option.bind_eq_some_iff.1 hu
    have hlt := work_lt_of_step? reached hp hstep
    have hle := ih (reached.move _ hu) (fun m hm => hmoves m (List.mem_cons_of_mem _ hm)) hrest
    rw [List.length_cons]
    omega

/-- The callers of a key can settle it. -/
theorem exists_settled (reached : s.Reachable) (key : K) :
    ∃ moves u, (∀ m ∈ moves, ∃ c, c.key = key ∧ m = Move.step c) ∧ s.run? moves = some u ∧
      u.SettledAt key := by
  induction hwork : s.work using Nat.strongRecOn generalizing s with
  | ind w ih =>
    by_cases hsettled : s.SettledAt key
    · exact ⟨[], s, fun _ h => absurd h List.not_mem_nil, rfl, hsettled⟩
    · -- Somebody has a step to take, and after it there is less work.
      obtain ⟨c, hc⟩ := Classical.not_forall.1 hsettled
      obtain ⟨hkey, hstep⟩ := Classical.not_imp.1 hc
      obtain ⟨t, ht⟩ := Option.ne_none_iff_exists'.1 hstep
      obtain ⟨p, hp, hpt⟩ := Option.bind_eq_some_iff.1 ht
      obtain ⟨moves, u, hmoves, hrun, hu⟩ :=
        ih t.work (hwork ▸ work_lt_of_step? reached hp hpt) (reached.move _ ht) rfl
      refine ⟨.step c :: moves, u, fun m hm => ?_, ?_, hu⟩
      · rcases List.mem_cons.1 hm with rfl | hm
        · exact ⟨c, hkey, rfl⟩
        · exact hmoves m hm
      · rw [run?, ht]
        exact hrun

end SingleFlight

end FrameRpc
