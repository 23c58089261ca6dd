/-!
# Tables

A finite map, as the list of its entries in the order in which their keys were first set. No key
occurs twice; this is part of the type. Setting a key that is there replaces its value in place.

* `get?_set`, `get?_erase`: a table is seen through `get?`, and both operations change it at one
  key only;
* `mem_entries_iff`: the entries are the graph of `get?`.
-/

namespace FrameRpc

/-- A finite map. -/
structure Table (κ α : Type) where
  /-- The entries, in the order in which their keys were first set. -/
  entries : List (κ × α)
  /-- No key occurs twice. -/
  distinct : (entries.map Prod.fst).Nodup

namespace Table

variable {κ α : Type}

/-- No entries. -/
def empty : Table κ α := ⟨[], .nil⟩

/-- The number of entries. -/
def size (t : Table κ α) : Nat := t.entries.length

/-- The keys, in the order in which they were first set. -/
def keys (t : Table κ α) : List κ := t.entries.map Prod.fst

/-- The number of entries that satisfy a condition. -/
def count (holds : κ → α → Bool) (t : Table κ α) : Nat := t.entries.countP fun e => holds e.1 e.2

variable [DecidableEq κ]

/-- The value of a key in a list of entries. -/
def find (key : κ) : List (κ × α) → Option α
  | [] => none
  | (k, a) :: rest => if k = key then some a else find key rest

/-- Sets the value of a key in a list of entries: in place, or at the end. -/
def put (key : κ) (a : α) : List (κ × α) → List (κ × α)
  | [] => [(key, a)]
  | (k, b) :: rest => if k = key then (key, a) :: rest else (k, b) :: put key a rest

theorem mem_map_fst_put {key k : κ} {a : α} {es : List (κ × α)} :
    k ∈ (put key a es).map Prod.fst ↔ k = key ∨ k ∈ es.map Prod.fst := by
  induction es with
  | nil => simp [put]
  | cons e rest ih =>
    obtain ⟨l, b⟩ := e
    rw [put]
    split
    · subst_vars
      simp
    · simp only [List.map_cons, List.mem_cons, ih]
      grind

theorem nodup_put {key : κ} {a : α} {es : List (κ × α)} (h : (es.map Prod.fst).Nodup) :
    ((put key a es).map Prod.fst).Nodup := by
  induction es with
  | nil => simp [put]
  | cons e rest ih =>
    obtain ⟨l, b⟩ := e
    rw [List.map_cons, List.nodup_cons] at h
    rw [put]
    split
    · subst_vars
      exact List.nodup_cons.2 h
    · refine List.nodup_cons.2 ⟨fun hm => ?_, ih h.2⟩
      rcases mem_map_fst_put.1 hm with rfl | hm
      · contradiction
      · exact h.1 hm

/-- The value of a key. -/
def get? (t : Table κ α) (key : κ) : Option α := find key t.entries

/-- The key has a value. -/
def contains (t : Table κ α) (key : κ) : Bool := (t.get? key).isSome

/-- Sets the value of a key. -/
def set (t : Table κ α) (key : κ) (a : α) : Table κ α :=
  ⟨put key a t.entries, nodup_put t.distinct⟩

/-- Removes a key. -/
def erase (t : Table κ α) (key : κ) : Table κ α :=
  ⟨t.entries.filter fun e => e.1 ≠ key, t.distinct.sublist (List.filter_sublist.map Prod.fst)⟩

/-! ## What the operations do -/

@[simp]
theorem get?_empty (key : κ) : (empty : Table κ α).get? key = none := rfl

theorem find_put (key k : κ) (a : α) (es : List (κ × α)) :
    find k (put key a es) = if k = key then some a else find k es := by
  induction es with
  | nil => simp [put, find, eq_comm]
  | cons e rest ih =>
    obtain ⟨l, b⟩ := e
    by_cases hl : l = key <;> by_cases hk : k = key <;> grind [put, find]

@[simp]
theorem get?_set (t : Table κ α) (key k : κ) (a : α) :
    (t.set key a).get? k = if k = key then some a else t.get? k :=
  find_put key k a t.entries

theorem find_filter (key k : κ) (es : List (κ × α)) :
    find k (es.filter fun e => e.1 ≠ key) = if k = key then none else find k es := by
  induction es with
  | nil => simp [find]
  | cons e rest ih =>
    obtain ⟨l, b⟩ := e
    by_cases hl : l = key <;> by_cases hk : k = key <;> grind [find]

@[simp]
theorem get?_erase (t : Table κ α) (key k : κ) :
    (t.erase key).get? k = if k = key then none else t.get? k :=
  find_filter key k t.entries

theorem mem_entries_iff {t : Table κ α} {key : κ} {a : α} :
    (key, a) ∈ t.entries ↔ t.get? key = some a := by
  obtain ⟨es, distinct⟩ := t
  show (key, a) ∈ es ↔ find key es = some a
  induction es with
  | nil => simp [find]
  | cons e rest ih =>
    obtain ⟨l, b⟩ := e
    rw [List.map_cons, List.nodup_cons] at distinct
    have hl : l = key → (key, a) ∉ rest := fun h hm =>
      distinct.1 (List.mem_map.2 ⟨(key, a), hm, h.symm⟩)
    grind [find]

end Table

end FrameRpc
