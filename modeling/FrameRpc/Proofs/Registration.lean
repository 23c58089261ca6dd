import FrameRpc.Handler.Registry
import FrameRpc.Proofs.Objects
import Mathlib.Data.List.Dedup

/-!
# First registration wins

Handlers are registered one after the other, and a name that is taken is refused. So the registry
holds, under every name, the first handler that was registered under it (`Registry.Holds`). That is
all there is to know about a registry: whom a request is for, how many handlers there are, their
names and their kinds follow from it, whatever the order of the table
(`Registry.first_registration_wins`).
-/

namespace FrameRpc

/-! ## Tables and objects -/

namespace Table

variable {κ α : Type} [DecidableEq κ]

theorem mem_keys_iff {t : Table κ α} {key : κ} : key ∈ t.keys ↔ (t.get? key).isSome := by
  rw [keys, List.mem_map, Option.isSome_iff_exists]
  constructor
  · rintro ⟨⟨_, a⟩, he, rfl⟩
    exact ⟨a, mem_entries_iff.1 he⟩
  · rintro ⟨a, ha⟩
    exact ⟨(key, a), mem_entries_iff.2 ha, rfl⟩

end Table

namespace Fields

theorem ordered_ofList (entries : List (String × Value)) : (ofList entries).Ordered := by
  suffices h : ∀ fields : Fields, fields.Ordered →
      Ordered (entries.foldl (fun fields e => insert e.1 e.2 fields) fields) from h [] .nil
  induction entries with
  | nil => exact fun _ h => h
  | cons e entries ih => exact fun fields h => ih _ (ordered_insert h)

/-- The object that a table becomes has the table's keys as its names. -/
theorem get?_ofList_entries {α : Type} (t : Table String α) (f : α → Value) (name : String) :
    (ofList (t.entries.map fun e => (e.1, f e.2))).get? name = (t.get? name).map f := by
  obtain ⟨entries, distinct⟩ := t
  suffices h : ∀ fields : Fields,
      get? ((entries.map fun e => (e.1, f e.2)).foldl (fun fs e => insert e.1 e.2 fs) fields) name
        = ((Table.find name entries).map f).or (fields.get? name) by
    rw [ofList, h [], get?_nil, Option.or_none]
    rfl
  induction entries with
  | nil => exact fun _ => rfl
  | cons e entries ih =>
    obtain ⟨key, a⟩ := e
    rw [List.map_cons, List.nodup_cons] at distinct
    intro fields
    rw [List.map_cons, List.foldl_cons, ih distinct.2, get?_insert, Table.find]
    by_cases hkey : key = name
    · -- The name does not come again, so the value that is set now stays.
      subst hkey
      have hnone : Table.find key entries = none := Option.eq_none_iff_forall_ne_some.2 fun b hb =>
        distinct.1 (List.mem_map.2
          ⟨(key, b), (@Table.mem_entries_iff _ _ _ ⟨entries, distinct.2⟩ key b).2 hb, rfl⟩)
      rw [hnone, if_pos rfl, if_pos rfl]
      rfl
    · rw [if_neg hkey, if_neg fun h => hkey h.symm]

end Fields

/-- Texts that differ are increasing strictly once they are in order. -/
theorem pairwise_lt_increasing {texts : List String} (h : texts.Nodup) :
    (increasing texts).Pairwise (· < ·) := by
  have hsorted : (texts.mergeSort fun a b => decide (a ≤ b)).Pairwise fun a b =>
      decide (a ≤ b) = true := by
    refine List.pairwise_mergeSort (fun a b c hab hbc => ?_) (fun a b => ?_) texts
    · exact decide_eq_true (String.le_trans (of_decide_eq_true hab) (of_decide_eq_true hbc))
    · simpa using String.le_total a b
  have hnodup : (increasing texts).Pairwise (· ≠ ·) := (List.mergeSort_perm texts _).nodup_iff.2 h
  exact (hsorted.and hnodup).imp fun ⟨hle, hne⟩ =>
    Std.lt_of_le_of_ne (of_decide_eq_true hle) hne

theorem mem_increasing_iff {texts : List String} {s : String} : s ∈ increasing texts ↔ s ∈ texts :=
  List.mem_mergeSort

namespace Registry

/-! ## Registrations -/

/-- A registration, as an answer and what the registry is afterwards. -/
def attempt (r : Registry) (h : Handler) : Except Error Unit × Registry :=
  match r.register h with
  | .ok r' => (.ok (), r')
  | .error e => (.error e, r)

/-- The registry after registrations, refused ones included. -/
def afterAll (r : Registry) : List Handler → Registry
  | [] => r
  | h :: rest => (r.attempt h).2.afterAll rest

/-- The first handler of a name. -/
def first? (hs : List Handler) (name : String) : Option Handler := hs.find? fun h => h.name == name

/-- What the registry holds under each name is the first handler of this name. -/
def Holds (r : Registry) (hs : List Handler) : Prop := ∀ name, r.get? name = first? hs name

variable {r : Registry} {hs : List Handler}

theorem first?_concat (hs : List Handler) (h : Handler) (name : String) :
    first? (hs ++ [h]) name = (first? hs name).or (if name = h.name then some h else none) := by
  rw [first?, List.find?_append, List.find?_singleton]
  by_cases hname : name = h.name
  · rw [if_pos hname, if_pos (beq_iff_eq.2 hname.symm)]
    rfl
  · rw [if_neg hname, if_neg fun heq => hname (eq_of_beq heq).symm]
    rfl

theorem isSome_first?_iff {name : String} :
    (first? hs name).isSome ↔ name ∈ hs.map Handler.name := by
  rw [first?, List.find?_isSome, List.mem_map]
  simp only [beq_iff_eq]

theorem holds_empty : empty.Holds [] := fun _ => rfl

/-- A name that is taken is refused, and the registry stays as it is. -/
theorem attempt_of_mem (h : r.Holds hs) {handler : Handler}
    (hmem : handler.name ∈ hs.map Handler.name) :
    r.attempt handler = (.error (.duplicateHandler handler.name), r) := by
  have hcontains : r.contains handler.name = true := by
    change (r.get? handler.name).isSome = true
    rw [h handler.name]
    exact isSome_first?_iff.2 hmem
  rw [attempt, register, if_pos hcontains]

theorem attempt_of_notMem (h : r.Holds hs) {handler : Handler}
    (hmem : handler.name ∉ hs.map Handler.name) :
    r.attempt handler = (.ok (), ⟨r.handlers.set handler.name handler⟩) := by
  have hcontains : ¬ r.contains handler.name = true := by
    change ¬ (r.get? handler.name).isSome = true
    rw [h handler.name]
    exact fun hsome => hmem (isSome_first?_iff.1 hsome)
  rw [attempt, register, if_neg hcontains]

/-- One more registration, taken or refused, is one more handler. -/
theorem Holds.attempt (h : r.Holds hs) (handler : Handler) :
    (r.attempt handler).2.Holds (hs ++ [handler]) := by
  intro name
  rw [first?_concat]
  by_cases hmem : handler.name ∈ hs.map Handler.name
  · -- There is a handler before it under its name.
    rw [attempt_of_mem h hmem, h name]
    split_ifs with hname
    · obtain ⟨first, hfirst⟩ := Option.isSome_iff_exists.1 (isSome_first?_iff.2 hmem)
      rw [hname, hfirst]
      rfl
    · rw [Option.or_none]
  · rw [attempt_of_notMem h hmem]
    change (r.handlers.set handler.name handler).get? name = _
    rw [Table.get?_set]
    split_ifs with hname
    · have hnone : first? hs name = none := Option.not_isSome_iff_eq_none.1 fun hsome =>
        hmem (hname ▸ isSome_first?_iff.1 hsome)
      rw [hnone]
      rfl
    · rw [Option.or_none]
      exact h name

theorem Holds.afterAll (h : r.Holds hs) (more : List Handler) :
    (r.afterAll more).Holds (hs ++ more) := by
  induction more generalizing r hs with
  | nil => rwa [List.append_nil]
  | cons handler more ih =>
    rw [List.append_cons]
    exact ih (h.attempt handler)

/-- After registrations from the start, the first handler of each name is there. -/
theorem holds_afterAll (hs : List Handler) : (empty.afterAll hs).Holds hs := holds_empty.afterAll hs

theorem afterAll_concat (r : Registry) (hs : List Handler) (h : Handler) :
    r.afterAll (hs ++ [h]) = ((r.afterAll hs).attempt h).2 := by
  induction hs generalizing r with
  | nil => rfl
  | cons first hs ih => exact ih (r.attempt first).2

/-! ## What a registry tells -/

theorem Holds.resolve_eq (h : r.Holds hs) (header : Header) : r.resolve header =
    match header.handler with
    | none => .error (.protocol (.noHandler header.action header.id))
    | some name =>
      match first? hs name with
      | none => .error (.handlerNotFound name)
      | some handler => .ok handler := by
  rw [resolve]
  cases header.handler with
  | none => rfl
  | some name =>
    simp only [h name]
    cases first? hs name <;> rfl

theorem Holds.validateRequest_eq (h : r.Holds hs) (header : Header) (v : Value) :
    r.validateRequest header v =
      match header.handler with
      | none => .error (.protocol (.noHandler header.action header.id))
      | some name =>
        match first? hs name with
        | none => .error (.handlerNotFound name)
        | some handler =>
          match handler.request with
          | none => .ok v
          | some validator => (validator v).mapError Error.validation := by
  rw [validateRequest, h.resolve_eq]
  cases header.handler with
  | none => rfl
  | some name =>
    dsimp only
    cases first? hs name with
    | none => rfl
    | some handler =>
      dsimp only
      change (handler.request.getD .any v).mapError Error.validation = _
      cases handler.request <;> rfl

theorem Holds.mem_keys_iff (h : r.Holds hs) {name : String} :
    name ∈ r.handlers.keys ↔ name ∈ hs.map Handler.name := by
  rw [Table.mem_keys_iff, ← isSome_first?_iff, ← h name]
  rfl

theorem Holds.size_eq (h : r.Holds hs) : r.size = (hs.map Handler.name).dedup.length := by
  have hperm : r.handlers.keys.Perm (hs.map Handler.name).dedup :=
    (List.perm_ext_iff_of_nodup r.handlers.distinct (List.nodup_dedup _)).2 fun name =>
      h.mem_keys_iff.trans List.mem_dedup.symm
  rw [← hperm.length_eq]
  exact (List.length_map _).symm

/-- **First registration wins.** A registration succeeds exactly if its name has not come before,
    and one that does not changes nothing. After any registrations, what the registry tells of a
    name is what the first handler of this name is: whom a request is for and how its payload is
    validated, how many handlers there are, their names in increasing order, and their kinds. -/
theorem first_registration_wins (hs : List Handler) :
    (∀ h, (empty.afterAll hs).attempt h =
      if h.name ∈ hs.map Handler.name then
        (.error (.duplicateHandler h.name), empty.afterAll hs)
      else (.ok (), empty.afterAll (hs ++ [h]))) ∧
    (∀ name, (empty.afterAll hs).get? name = first? hs name) ∧
    (∀ header, (empty.afterAll hs).resolve header =
      match header.handler with
      | none => .error (.protocol (.noHandler header.action header.id))
      | some name =>
        match first? hs name with
        | none => .error (.handlerNotFound name)
        | some h => .ok h) ∧
    (∀ header v, (empty.afterAll hs).validateRequest header v =
      match header.handler with
      | none => .error (.protocol (.noHandler header.action header.id))
      | some name =>
        match first? hs name with
        | none => .error (.handlerNotFound name)
        | some h =>
          match h.request with
          | none => .ok v
          | some validator => (validator v).mapError Error.validation) ∧
    (empty.afterAll hs).size = (hs.map Handler.name).dedup.length ∧
    (empty.afterAll hs).names.Pairwise (· < ·) ∧
    (∀ name, name ∈ (empty.afterAll hs).names ↔ name ∈ hs.map Handler.name) ∧
    ∃ kinds : Fields, (empty.afterAll hs).manifest = .object kinds ∧ kinds.Ordered ∧
      ∀ name, kinds.get? name =
        (first? hs name).map fun h => .object [("kind", .text h.kind.name)] := by
  have h := holds_afterAll hs
  refine ⟨fun handler => ?_, h, h.resolve_eq, h.validateRequest_eq, h.size_eq,
    pairwise_lt_increasing (empty.afterAll hs).handlers.distinct,
    fun name => mem_increasing_iff.trans h.mem_keys_iff,
    _, rfl, Fields.ordered_ofList _, fun name => ?_⟩
  · split_ifs with hmem
    · exact attempt_of_mem h hmem
    · rw [afterAll_concat, attempt_of_notMem h hmem]
  · rw [← h name]
    exact Fields.get?_ofList_entries (empty.afterAll hs).handlers
      (fun handler => .object [("kind", .text handler.kind.name)]) name

end Registry

end FrameRpc
