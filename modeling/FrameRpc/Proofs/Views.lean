import FrameRpc.Proofs.Handover
import Mathlib.Data.List.Nodup

/-!
# Views of a key

What can be seen of one key of a table of lookups (`view`): whether it has an entry, how many leases
there are on it, where its callers stand and what has happened to it. The numbers of lookups are
given out for all keys together, so a view counts those of its own key instead.

One state is another with only the key left and its lookups counted (`Mirrors`) when the two agree on
the entry, the callers, the channels and the notes of the key. Both then look the same
(`Mirrors.view_eq`), and every move about the key takes them to two such states again
(`Mirrors.perform?`).
-/

namespace FrameRpc

namespace SingleFlight

variable {K V E : Type}

/-! ## Views -/

/-- What happens to one key. -/
inductive Note (V E : Type) where
  /-- A lookup starts. -/
  | started (lookup : Nat)
  /-- A lookup is done. -/
  | finished (lookup : Nat) (outcome : Except E V)
  /-- A lookup is given up. -/
  | abandoned (lookup : Nat)
  /-- The entry of a finished lookup has been evicted; whether the key has an entry at that time, and
      the number of leases on it. -/
  | released (lookup : Nat) (outcome : Except E V) (contains : Bool) (owners : Nat)

namespace Note

/-- The lookup that it happens to. -/
def lookup : Note V E → Nat
  | .started n | .finished n _ | .abandoned n | .released n _ _ _ => n

/-- The lookup that starts. -/
def start? : Note V E → Option Nat
  | .started n => some n
  | _ => none

/-- The same of a lookup with another number. -/
def renumber (f : Nat → Nat) : Note V E → Note V E
  | .started n => .started (f n)
  | .finished n o => .finished (f n) o
  | .abandoned n => .abandoned (f n)
  | .released n o contains owners => .released (f n) o contains owners

theorem renumber_renumber (f g : Nat → Nat) (x : Note V E) :
    (x.renumber f).renumber g = x.renumber fun n => g (f n) := by
  cases x <;> rfl

theorem renumber_congr {f g : Nat → Nat} {x : Note V E} (h : f x.lookup = g x.lookup) :
    x.renumber f = x.renumber g := by
  cases x <;> simpa [renumber, lookup] using h

theorem start?_renumber (f : Nat → Nat) (x : Note V E) :
    (x.renumber f).start? = x.start?.map f := by
  cases x <;> rfl

end Note

/-- The phase with another number for its lookup. -/
def Phase.renumber (f : Nat → Nat) : Phase V E → Phase V E
  | .looking n => .looking (f n)
  | .storing n o => .storing (f n) o
  | .publishing n o => .publishing (f n) o
  | .waiting n => .waiting (f n)
  | .resolving n o => .resolving (f n) o
  | .retrying n => .retrying (f n)
  | .abandoning n ending => .abandoning (f n) ending
  | .closing n ending => .closing (f n) ending
  | .leaving n ending => .leaving (f n) ending
  | .holding n v => .holding (f n) v
  | .joining => .joining
  | .ended ending => .ended ending

theorem Phase.renumber_congr {f g : Nat → Nat} {p : Phase V E}
    (h : ∀ n, p.lease? = some n → f n = g n) : p.renumber f = p.renumber g := by
  cases p with
  | joining | ended => rfl
  | _ => simp only [renumber, h _ rfl]

theorem Phase.renumber_renumber (f g : Nat → Nat) (p : Phase V E) :
    (p.renumber f).renumber g = p.renumber fun n => g (f n) := by
  cases p <;> rfl

/-- The entry with another number for its lookup. -/
def Entry.renumber (f : Nat → Nat) (e : Entry V E) : Entry V E := { e with lookup := f e.lookup }

theorem Entry.joined_renumber (f : Nat → Nat) (e : Entry V E) :
    (e.renumber f).joined = e.joined.renumber f := by
  obtain ⟨n, owners, outcome⟩ := e
  cases outcome <;> rfl

/-- What can be seen of one key. -/
structure View (V E : Type) where
  /-- It has an entry. -/
  contains : Bool
  /-- The number of leases on it. -/
  owners : Nat
  /-- Where its callers stand, by number. -/
  phases : Nat → Option (Phase V E)
  /-- What has happened to it. -/
  notes : List (Note V E)

variable [DecidableEq K]

/-- What an event tells of a key. -/
def Event.note? (key : K) : Event K V E → Option (Note V E)
  | .started n k => if k = key then some (.started n) else none
  | .finished n k o => if k = key then some (.finished n o) else none
  | .abandoned n k => if k = key then some (.abandoned n) else none
  | .released n k o r => if k = key then some (.released n o r.contains r.owners) else none

/-- What has happened to a key. -/
def notes (s : SingleFlight K V E) (key : K) : List (Note V E) :=
  s.log.filterMap (Event.note? key)

/-- The number of lookups of the key that have started before a lookup. -/
def ordinal (s : SingleFlight K V E) (key : K) (n : Nat) : Nat := (s.startsOf key).idxOf n

/-- What can be seen of a key. -/
def view (s : SingleFlight K V E) (key : K) : View V E where
  contains := s.contains key
  owners := s.owners key
  phases := fun number => (s.callers.get? ⟨key, number⟩).map (Phase.renumber (s.ordinal key))
  notes := (s.notes key).map (Note.renumber (s.ordinal key))

variable {s t s' : SingleFlight K V E} {book : List (Record K V E)} {c : Caller K} {key : K}
  {ns : List Nat} {n : Nat}

theorem notes_of_log (h : t.log = s.log) (key : K) : t.notes key = s.notes key := by
  rw [notes, notes, h]

theorem notes_concat {e : Event K V E} (h : t.log = s.log ++ [e]) (key : K) :
    t.notes key = s.notes key ++ (Event.note? key e).toList := by
  rw [notes, h, List.filterMap_append]
  cases he : Event.note? key e with
  | none => simp [he, notes]
  | some note => simp [he, notes]

theorem notes_concat_of_none {e : Event K V E} (h : t.log = s.log ++ [e])
    (he : e.note? key = none) : t.notes key = s.notes key := by
  rw [notes_concat h, he, Option.toList_none, List.append_nil]

/-- The lookups that have started, read off the notes. -/
theorem filterMap_start?_notes (s : SingleFlight K V E) (key : K) :
    (s.notes key).filterMap Note.start? = s.startsOf key := by
  rw [notes, startsOf, List.filterMap_filterMap]
  refine List.filterMap_congr fun e _ => ?_
  cases e with
  | started n k | finished n k | abandoned n k | released n k =>
    by_cases hk : k = key <;> simp [Event.note?, Event.start?, hk, Note.start?]

theorem mem_startsOf : n ∈ s.startsOf key ↔ .started n key ∈ s.log := by
  rw [startsOf, List.mem_filterMap]
  constructor
  · rintro ⟨e, he, hn⟩
    cases e with
    | started m k =>
      by_cases hk : k = key
      · obtain rfl := Option.some.inj ((if_pos hk).symm.trans hn)
        exact hk ▸ he
      · cases (if_neg hk).symm.trans hn
    | finished | abandoned | released => cases hn
  · exact fun h => ⟨_, h, if_pos rfl⟩

/-- The lookup of whose entry a caller owns a share is one of its own key. -/
theorem Recorded.mem_startsOf_iff (h : s.Recorded book) {p : Phase V E}
    (hc : s.callers.get? c = some p) (hlease : p.lease? = some n) :
    n ∈ s.startsOf key ↔ c.key = key := by
  obtain ⟨st, hrec, -⟩ := h.callers c p n hc hlease
  rw [mem_startsOf, h.log _ rfl, tells_started_iff hrec, eq_comm]

/-! ## States alike -/

/-- Of `key`, the state `s'` is the state `s`, with the lookups `ns` of the key counted. -/
structure Mirrors (key : K) (ns : List Nat) (s s' : SingleFlight K V E) : Prop where
  starts : s.startsOf key = ns
  distinct : ns.Nodup
  started : ∀ n ∈ ns, n < s.channels.length
  /-- The entry of the key is that of one of its lookups. -/
  owned : ∀ e, s.entries.get? key = some e → e.lookup ∈ ns
  /-- What happens to the key happens to one of its lookups. -/
  noted : ∀ x ∈ s.notes key, x.lookup ∈ ns
  entry : s'.entries.get? key = (s.entries.get? key).map (Entry.renumber (ns.idxOf ·))
  callers : ∀ c, c.key = key →
    s'.callers.get? c = (s.callers.get? c).map (Phase.renumber (ns.idxOf ·))
  channels : s'.channels = ns.map s.channel
  notes : s'.notes key = (s.notes key).map (Note.renumber (ns.idxOf ·))

theorem mirrors_start (key : K) : Mirrors key [] (start : SingleFlight K V E) start where
  starts := rfl
  distinct := .nil
  started := nofun
  owned := nofun
  noted := nofun
  entry := rfl
  callers := fun _ _ => rfl
  channels := rfl
  notes := rfl

theorem Mirrors.channel_eq (h : Mirrors key ns s s') (hn : n ∈ ns) :
    s'.channel (ns.idxOf n) = s.channel n := by
  rw [channel, h.channels, List.getD_eq_getElem?_getD, List.getElem?_map, List.getElem?_idxOf hn]
  rfl

theorem Mirrors.entryOf?_eq (h : Mirrors key ns s s') (n : Nat) :
    s'.entryOf? key (ns.idxOf n) = (s.entryOf? key n).map (Entry.renumber (ns.idxOf ·)) := by
  rw [entryOf?, entryOf?, h.entry]
  cases he : s.entries.get? key with
  | none => rfl
  | some e =>
    -- The number of a lookup among those of the key tells it from all others.
    have hinj : ns.idxOf e.lookup = ns.idxOf n ↔ e.lookup = n := List.idxOf_inj (h.owned e he)
    simp only [Option.map_some, Option.filter_some, Entry.renumber, decide_eq_true_eq, hinj]
    split <;> rfl

theorem Mirrors.liveEntry?_eq (h : Mirrors key ns s s') :
    s'.liveEntry? key = (s.liveEntry? key).map (Entry.renumber (ns.idxOf ·)) := by
  unfold liveEntry?
  rw [h.entry]
  cases he : s.entries.get? key with
  | none => rfl
  | some e =>
    rw [Option.map_some, Option.filter_some, Option.filter_some, Entry.renumber,
      h.channel_eq (h.owned e he)]
    obtain ⟨m, owners, outcome⟩ := e
    simp only
    cases outcome <;> cases s.channel m <;> rfl

theorem Mirrors.length_channels (h : Mirrors key ns s s') : s'.channels.length = ns.length := by
  rw [h.channels, List.length_map]

/-- The second state counts the lookups of the key from zero. -/
theorem Mirrors.startsOf_eq (h : Mirrors key ns s s') : s'.startsOf key = List.range ns.length := by
  have hmap : s'.startsOf key = ns.map (ns.idxOf ·) := by
    rw [← filterMap_start?_notes, h.notes, ← h.starts, ← filterMap_start?_notes s,
      List.filterMap_map, List.map_filterMap]
    exact List.filterMap_congr fun x _ => x.start?_renumber _
  rw [hmap]
  refine List.ext_getElem (by simp) fun i hi _ => ?_
  rw [List.getElem_map, List.getElem_range]
  exact h.distinct.idxOf_getElem i _

theorem Mirrors.ordinal_eq (h : Mirrors key ns s s') (hn : n ∈ ns) :
    s'.ordinal key (ns.idxOf n) = s.ordinal key n := by
  have hlt : ns.idxOf n < (List.range ns.length).length := by
    rw [List.length_range]
    exact List.idxOf_lt_length_iff.2 hn
  have hself := List.nodup_range.idxOf_getElem (ns.idxOf n) hlt
  rw [List.getElem_range] at hself
  rw [ordinal, ordinal, h.startsOf_eq, h.starts, hself]

/-- What can be seen of the key is the same. -/
theorem Mirrors.view_eq (h : Mirrors key ns s s')
    (hrecorded : s.Recorded book) : s'.view key = s.view key := by
  have hphases (number : Nat) :
      (s'.callers.get? ⟨key, number⟩).map (Phase.renumber (s'.ordinal key)) =
        (s.callers.get? ⟨key, number⟩).map (Phase.renumber (s.ordinal key)) := by
    rw [h.callers _ rfl, Option.map_map]
    refine Option.map_congr fun p hp => ?_
    rw [Function.comp_apply, Phase.renumber_renumber]
    refine Phase.renumber_congr fun n hn => h.ordinal_eq ?_
    rw [← h.starts]
    exact (hrecorded.mem_startsOf_iff hp hn).2 rfl
  have hnotes : (s'.notes key).map (Note.renumber (s'.ordinal key)) =
      (s.notes key).map (Note.renumber (s.ordinal key)) := by
    rw [h.notes, List.map_map]
    refine List.map_congr_left fun x hx => ?_
    rw [Function.comp_apply, Note.renumber_renumber]
    exact Note.renumber_congr (h.ordinal_eq (h.noted x hx))
  have hcontains : s'.contains key = s.contains key := by
    rw [contains, contains, Table.contains, Table.contains, h.entry, Option.isSome_map]
  have howners : s'.owners key = s.owners key := by
    rw [owners, owners, h.entry, Option.map_map]
    rfl
  rw [view, view, hnotes, hcontains, howners, funext hphases]

/-! ## Moves about the key -/

theorem Mirrors.place (h : Mirrors key ns s s') (c : Caller K) (p : Phase V E) :
    Mirrors key ns (s.place c p) (s'.place c (p.renumber (ns.idxOf ·))) where
  starts := h.starts
  distinct := h.distinct
  started := h.started
  owned := h.owned
  noted := h.noted
  entry := h.entry
  callers := fun c₁ hc₁ => by
    rw [place_callers, place_callers, Table.get?_set, Table.get?_set]
    split
    · rfl
    · exact h.callers c₁ hc₁
  channels := h.channels
  notes := h.notes

/-- Another entry for the key. -/
theorem Mirrors.set (h : Mirrors key ns s s') {e : Entry V E} (he : e.lookup ∈ ns) :
    Mirrors key ns { s with entries := s.entries.set key e }
      { s' with entries := s'.entries.set key (e.renumber (ns.idxOf ·)) } where
  starts := h.starts
  distinct := h.distinct
  started := h.started
  owned := fun e₁ he₁ => by
    rw [Table.get?_set, if_pos rfl] at he₁
    exact Option.some.inj he₁ ▸ he
  noted := h.noted
  entry := by rw [Table.get?_set, Table.get?_set, if_pos rfl, if_pos rfl, Option.map_some]
  callers := h.callers
  channels := h.channels
  notes := h.notes

/-- The entry of the key is removed. -/
theorem Mirrors.erase (h : Mirrors key ns s s') :
    Mirrors key ns { s with entries := s.entries.erase key }
      { s' with entries := s'.entries.erase key } where
  starts := h.starts
  distinct := h.distinct
  started := h.started
  owned := fun e₁ he₁ => by
    rw [Table.get?_erase, if_pos rfl] at he₁
    nomatch he₁
  noted := h.noted
  entry := by rw [Table.get?_erase, Table.get?_erase, if_pos rfl, if_pos rfl, Option.map_none]
  callers := h.callers
  channels := h.channels
  notes := h.notes

/-- Something happens to a lookup of the key after its start. -/
theorem Mirrors.tell (h : Mirrors key ns s s') (x : Note V E) (hstart : x.start? = none)
    (hx : x.lookup ∈ ns) {e e' : Event K V E} (he : e.note? key = some x)
    (he' : e'.note? key = some (x.renumber (ns.idxOf ·))) :
    Mirrors key ns (s.tell e) (s'.tell e') := by
  have hnotes : (s.tell e).notes key = s.notes key ++ [x] := by
    rw [notes_concat (t := s.tell e) rfl, he, Option.toList_some]
  exact
    { h with
      starts := by
        rw [← filterMap_start?_notes, hnotes, List.filterMap_append, filterMap_start?_notes,
          h.starts]
        simp [hstart]
      noted := fun y hy => by
        rw [hnotes, List.mem_append, List.mem_singleton] at hy
        rcases hy with hy | rfl
        · exact h.noted y hy
        · exact hx
      notes := by
        rw [notes_concat (t := s'.tell e') rfl, hnotes, h.notes, he', List.map_append]
        rfl }

/-- Something happens on the channel of a lookup of the key. -/
theorem Mirrors.send (h : Mirrors key ns s s') (hn : n ∈ ns) (ch : Channel V E) :
    Mirrors key ns { s with channels := s.channels.set n ch }
      { s' with channels := s'.channels.set (ns.idxOf n) ch } where
  starts := h.starts
  distinct := h.distinct
  started := fun m hm => by
    rw [List.length_set]
    exact h.started m hm
  owned := h.owned
  noted := h.noted
  entry := h.entry
  callers := h.callers
  channels := by
    rw [h.channels]
    refine List.ext_getElem (by simp) fun i hi hi' => ?_
    rw [List.getElem_set, List.getElem_map, List.getElem_map, channel, channel,
      List.getD_eq_getElem?_getD, List.getD_eq_getElem?_getD]
    rw [List.length_map] at hi'
    by_cases hni : ns.idxOf n = i
    · subst hni
      rw [if_pos rfl, List.getElem_idxOf, List.getElem?_set_self (h.started n hn), Option.getD_some]
    · have hne : n ≠ ns[i] := fun hn => hni (hn ▸ h.distinct.idxOf_getElem i hi')
      rw [if_neg hni, List.getElem?_set_ne hne]
  notes := h.notes

theorem Mirrors.retain (h : Mirrors key ns s s') (n : Nat) :
    Mirrors key ns (s.retain key n) (s'.retain key (ns.idxOf n)) := by
  rw [SingleFlight.retain, SingleFlight.retain, h.entryOf?_eq]
  cases he : s.entryOf? key n with
  | none => exact h
  | some e => exact h.set (h.owned e (entryOf?_eq_some_iff.1 he).1)

theorem Mirrors.store (h : Mirrors key ns s s') (n : Nat) (o : Except E V) :
    Mirrors key ns (s.store key n o) (s'.store key (ns.idxOf n) o) := by
  rw [SingleFlight.store, SingleFlight.store, h.entryOf?_eq]
  cases he : s.entryOf? key n with
  | none => exact h
  | some e => exact h.set (h.owned e (entryOf?_eq_some_iff.1 he).1)

theorem Mirrors.abandon (h : Mirrors key ns s s') (n : Nat) :
    Mirrors key ns (s.abandon key n) (s'.abandon key (ns.idxOf n)) := by
  rw [SingleFlight.abandon, SingleFlight.abandon, h.entryOf?_eq]
  cases s.entryOf? key n with
  | none => exact h
  | some e =>
    simp only [Option.map_some, Entry.renumber]
    split
    · exact h.erase
    · exact h

theorem Mirrors.release (h : Mirrors key ns s s') (hn : n ∈ ns) :
    Mirrors key ns (s.release key n) (s'.release key (ns.idxOf n)) := by
  rw [SingleFlight.release, SingleFlight.release, h.entryOf?_eq]
  cases he : s.entryOf? key n with
  | none => exact h
  | some e =>
    simp only [Option.map_some, Entry.renumber]
    split
    · cases e.outcome with
      | none => exact h.erase
      | some o =>
        -- Of the key, the hook sees that its entry is gone, whatever else there is in the table.
        have herased (u : SingleFlight K V E) :
            Event.note? key (.released n key o
              (reading { u with entries := u.entries.erase key } key)) =
            some (.released n o false 0) := by
          simp [Event.note?, reading, contains, owners, Table.contains]
        refine h.erase.tell (.released n o false 0) rfl hn (herased s) ?_
        simp [Event.note?, reading, contains, owners, Table.contains, Note.renumber]
    · exact h.set (h.owned e (entryOf?_eq_some_iff.1 he).1)

/-- A lookup of the key starts. -/
theorem Mirrors.begin (h : Mirrors key ns s s')
    (hleases : ∀ c p n, s.callers.get? c = some p → p.lease? = some n → c.key = key → n ∈ ns)
    (c : Caller K) :
    Mirrors key (ns ++ [s.channels.length])
      { entries := s.entries.set key ⟨s.channels.length, 1, none⟩
        channels := s.channels ++ [.silent]
        callers := s.callers.set c (.looking s.channels.length)
        log := s.log ++ [.started s.channels.length key] }
      { entries := s'.entries.set key ⟨s'.channels.length, 1, none⟩
        channels := s'.channels ++ [.silent]
        callers := s'.callers.set c (.looking s'.channels.length)
        log := s'.log ++ [.started s'.channels.length key] } := by
  -- Its number is new, so the lookups before keep theirs and it gets the next one.
  have hnew : s.channels.length ∉ ns := fun hn => Nat.lt_irrefl _ (h.started _ hn)
  have hlast : (ns ++ [s.channels.length]).idxOf s.channels.length = s'.channels.length := by
    rw [h.length_channels, List.idxOf_append_of_notMem hnew]
    simp
  have hold (n : Nat) (hn : n ∈ ns) : (ns ++ [s.channels.length]).idxOf n = ns.idxOf n :=
    List.idxOf_append_of_mem hn
  have hnote (n : Nat) : Event.note? key (.started n key : Event K V E) = some (.started n) :=
    if_pos rfl
  exact
    { starts := by
        rw [startsOf_concat (s := s) rfl, h.starts, Event.start?, if_pos rfl]
        rfl
      distinct := List.nodup_append.2 ⟨h.distinct, List.nodup_singleton _, by grind⟩
      started := by
        intro n hn
        rw [List.length_append, List.length_singleton]
        rcases List.mem_append.1 hn with hn | hn
        · exact Nat.lt_succ_of_lt (h.started n hn)
        · exact Nat.lt_succ_of_le (Nat.le_of_eq (List.mem_singleton.1 hn))
      owned := fun e he => by
        rw [Table.get?_set, if_pos rfl] at he
        exact Option.some.inj he ▸ List.mem_append_right _ (List.mem_singleton_self _)
      noted := fun x hx => by
        rw [notes_concat (s := s) rfl, hnote, Option.toList_some, List.mem_append,
          List.mem_singleton] at hx
        rcases hx with hx | rfl
        · exact List.mem_append_left _ (h.noted x hx)
        · exact List.mem_append_right _ (List.mem_singleton_self _)
      entry := by
        rw [Table.get?_set, Table.get?_set, if_pos rfl, if_pos rfl, Option.map_some, Entry.renumber,
          hlast]
      callers := fun c₁ hc₁ => by
        rw [Table.get?_set, Table.get?_set]
        split
        · rw [Option.map_some, Phase.renumber, hlast]
        · rw [h.callers c₁ hc₁]
          exact Option.map_congr fun p hp => Phase.renumber_congr fun n hn =>
            (hold n (hleases c₁ p n hp hn hc₁)).symm
      channels := by
        rw [List.map_append, h.channels]
        refine congr (congrArg _ (List.map_congr_left fun n hn => ?_)) ?_
        · rw [channel, channel, List.getD_eq_getElem?_getD, List.getD_eq_getElem?_getD,
            List.getElem?_append_left (h.started n hn)]
        · simp [channel]
      notes := by
        conv_rhs => rw [notes_concat (s := s) rfl, hnote, List.map_append]
        rw [notes_concat (s := s') rfl, hnote, h.notes]
        refine congr (congrArg _ (List.map_congr_left fun x hx => ?_)) ?_
        · exact Note.renumber_congr (hold _ (h.noted x hx)).symm
        · simp [Note.renumber, hlast] }

theorem Mirrors.join (h : Mirrors key ns s s')
    (hleases : ∀ c p n, s.callers.get? c = some p → p.lease? = some n → c.key = key → n ∈ ns)
    (hc : c.key = key) : ∃ ns', Mirrors key ns' (s.join c) (s'.join c) := by
  subst hc
  have hlive' := h.liveEntry?_eq
  cases hlive : s.liveEntry? c.key with
  | none =>
    rw [hlive] at hlive'
    rw [join_of_none hlive, join_of_none hlive']
    exact ⟨_, h.begin hleases c⟩
  | some e =>
    rw [hlive] at hlive'
    rw [join_of_live hlive, join_of_live hlive', Entry.joined_renumber]
    exact ⟨ns, (h.retain e.lookup).place c e.joined⟩

theorem Mirrors.step? (h : Mirrors key ns s s')
    (hleases : ∀ c p n, s.callers.get? c = some p → p.lease? = some n → c.key = key → n ∈ ns)
    (hc : c.key = key) {p : Phase V E} (hp : s.callers.get? c = some p)
    (ht : s.step? c p = some t) :
    ∃ ns' t', s'.step? c (p.renumber (ns.idxOf ·)) = some t' ∧ Mirrors key ns' t t' := by
  subst hc
  have hn (n : Nat) (hlease : p.lease? = some n) : n ∈ ns := hleases c p n hp hlease rfl
  cases p with
  | joining =>
    obtain ⟨ns', h'⟩ := h.join hleases rfl
    exact ⟨ns', _, rfl, Option.some.inj ht ▸ h'⟩
  | storing n o => exact ⟨ns, _, rfl, Option.some.inj ht ▸ (h.store n o).place ..⟩
  | publishing n o => exact ⟨ns, _, rfl, Option.some.inj ht ▸ (h.send (hn n rfl) _).place ..⟩
  | waiting n =>
    have hchannel' := h.channel_eq (hn n rfl)
    rw [SingleFlight.step?] at ht
    rw [Phase.renumber, SingleFlight.step?]
    cases hchannel : s.channel n with
    | silent =>
      rw [hchannel] at ht
      cases ht
    | published o =>
      rw [hchannel] at ht
      rw [hchannel', hchannel]
      exact ⟨ns, _, rfl, Option.some.inj ht ▸ h.place ..⟩
    | closed =>
      rw [hchannel] at ht
      rw [hchannel', hchannel]
      exact ⟨ns, _, rfl, Option.some.inj ht ▸ h.place ..⟩
  | resolving n o =>
    cases o with
    | ok v => exact ⟨ns, _, rfl, Option.some.inj ht ▸ h.place ..⟩
    | error e => exact ⟨ns, _, rfl, Option.some.inj ht ▸ (h.release (hn n rfl)).place ..⟩
  | retrying n => exact ⟨ns, _, rfl, Option.some.inj ht ▸ (h.release (hn n rfl)).place ..⟩
  | abandoning n ending => exact ⟨ns, _, rfl, Option.some.inj ht ▸ (h.abandon n).place ..⟩
  | closing n ending => exact ⟨ns, _, rfl, Option.some.inj ht ▸ (h.send (hn n rfl) _).place ..⟩
  | leaving n ending => exact ⟨ns, _, rfl, Option.some.inj ht ▸ (h.release (hn n rfl)).place ..⟩
  | looking _ | holding _ _ | ended _ => cases ht

/-- Moves about the key go along with each other. -/
theorem Mirrors.perform? (h : Mirrors key ns s s') (hrecorded : s.Recorded book) {m : Move K V E}
    (hm : m.caller.key = key) (ht : s.perform? m = some t) :
    ∃ ns' t', s'.perform? m = some t' ∧ Mirrors key ns' t t' := by
  have hleases (c : Caller K) (p : Phase V E) (n : Nat) (hp : s.callers.get? c = some p)
      (hlease : p.lease? = some n) (hc : c.key = key) : n ∈ ns :=
    h.starts ▸ (hrecorded.mem_startsOf_iff hp hlease).2 hc
  have hgone (n : Nat) (ending : Ending E) (c : Caller K) (hc : c.key = key) (hn : n ∈ ns) :
      Mirrors key ns ((s.tell (.abandoned n c.key)).place c (.abandoning n ending))
        ((s'.tell (.abandoned (ns.idxOf n) c.key)).place c (.abandoning (ns.idxOf n) ending)) := by
    refine (h.tell (.abandoned n) rfl hn ?_ ?_).place c (.abandoning n ending) <;> exact if_pos hc
  cases m with
  | call c =>
    rw [SingleFlight.perform?] at ht ⊢
    split at ht
    · rename_i hc
      rw [h.callers c hm, hc]
      exact ⟨ns, _, rfl, Option.some.inj ht ▸ h.place ..⟩
    · cases ht
  | step c =>
    obtain ⟨p, hp, hstep⟩ := Option.bind_eq_some_iff.1 ht
    rw [SingleFlight.perform?, h.callers c hm, hp]
    exact h.step? hleases hm hp hstep
  | finish c o =>
    rw [SingleFlight.perform?] at ht ⊢
    split at ht
    · rename_i n hc
      rw [h.callers c hm, hc]
      refine ⟨ns, _, rfl, Option.some.inj ht ▸ ?_⟩
      refine (h.tell (.finished n o) rfl (hleases c _ n hc rfl hm) ?_ ?_).place c (.storing n o) <;>
        exact if_pos hm
    · cases ht
  | panic c =>
    rw [SingleFlight.perform?] at ht ⊢
    split at ht
    · rename_i n hc
      rw [h.callers c hm, hc]
      exact ⟨ns, _, rfl, Option.some.inj ht ▸ hgone n _ c hm (hleases c _ n hc rfl hm)⟩
    · cases ht
  | cancel c =>
    rw [SingleFlight.perform?] at ht ⊢
    split at ht
    · rename_i hc
      rw [h.callers c hm, hc]
      exact ⟨ns, _, rfl, Option.some.inj ht ▸ h.place ..⟩
    · rename_i n hc
      rw [h.callers c hm, hc]
      exact ⟨ns, _, rfl, Option.some.inj ht ▸ h.place ..⟩
    · rename_i n hc
      rw [h.callers c hm, hc]
      exact ⟨ns, _, rfl, Option.some.inj ht ▸ hgone n _ c hm (hleases c _ n hc rfl hm)⟩
    · cases ht
  | clone c number =>
    rw [SingleFlight.perform?] at ht ⊢
    split at ht
    · rename_i n v hc hfree
      rw [h.callers c hm, hc, h.callers ⟨c.key, number⟩ hm, hfree]
      subst hm
      exact ⟨ns, _, rfl, Option.some.inj ht ▸ (h.retain n).place ..⟩
    · cases ht
  | drop c =>
    rw [SingleFlight.perform?] at ht ⊢
    split at ht
    · rename_i n v hc
      rw [h.callers c hm, hc]
      subst hm
      exact ⟨ns, _, rfl, Option.some.inj ht ▸ (h.release (hleases c _ n hc rfl rfl)).place ..⟩
    · cases ht

end SingleFlight

end FrameRpc
