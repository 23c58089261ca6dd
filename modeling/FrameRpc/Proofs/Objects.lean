import FrameRpc.Value.Basic
import Mathlib.Data.List.Forall2

/-!
# Objects are maps

An object is seen through the values of its names: setting a name changes the value of this name
alone (`Fields.get?_insert`) and keeps the names in order (`Fields.ordered_insert`), and two objects
in order with related values under every name are related field by field
(`Fields.forall₂_of_alike`).

A relation that containers inherit from what they hold is a `Value.Congruence`. Equality is one, and
so is `agrees`, from which it differs in the signs of zeros alone (`Value.eq_of_agrees`).
-/

namespace FrameRpc

namespace Fields

variable {fields : Fields} {name : String} {v : Value}

/-- Every name of these is behind the name given. -/
def Behind (name : String) (fields : Fields) : Prop := ∀ e ∈ fields, name < e.1

theorem ordered_cons_iff : Ordered ((name, v) :: fields) ↔ fields.Behind name ∧ fields.Ordered :=
  List.pairwise_cons

theorem get?_nil (name : String) : get? [] name = none := rfl

theorem get?_cons (n k : String) (w : Value) (rest : Fields) :
    get? ((n, w) :: rest) k = if k = n then some w else get? rest k := by
  rw [get?, List.lookup_cons]
  by_cases h : k = n
  · rw [if_pos h, beq_iff_eq.2 h]
  · rw [if_neg h, beq_false_of_ne h]
    rfl

theorem get?_eq_none (h : ∀ e ∈ fields, e.1 ≠ name) : fields.get? name = none :=
  List.lookup_eq_none_iff.2 fun e he => bne_iff_ne.2 (h e he).symm

theorem Behind.get?_eq_none (h : fields.Behind name) : fields.get? name = none :=
  Fields.get?_eq_none fun e he => (String.ne_of_lt (h e he)).symm

/-- Setting a name changes the value of this name alone. -/
@[simp]
theorem get?_insert (fields : Fields) (name k : String) (v : Value) :
    (fields.insert name v).get? k = if k = name then some v else fields.get? k := by
  induction fields with
  | nil => exact get?_cons name k v []
  | cons e rest ih =>
    obtain ⟨n, w⟩ := e
    rw [insert]
    split
    · rw [get?_cons name]
    · split
      · rename_i hn
        subst hn
        rw [get?_cons, get?_cons]
        split <;> rfl
      · rename_i hn
        rw [get?_cons, get?_cons, ih]
        by_cases hk : k = n
        · rw [if_pos hk, if_pos hk, if_neg fun h => hn (h.symm.trans hk)]
        · rw [if_neg hk, if_neg hk]

theorem Behind.insert {n : String} (h : fields.Behind n) (hn : n < name) :
    (fields.insert name v).Behind n := by
  induction fields with
  | nil => exact List.forall_mem_singleton.2 hn
  | cons e rest ih =>
    obtain ⟨m, w⟩ := e
    obtain ⟨hm, hrest⟩ := List.forall_mem_cons.1 h
    rw [Fields.insert]
    split
    · exact List.forall_mem_cons.2 ⟨hn, h⟩
    · split
      · exact List.forall_mem_cons.2 ⟨hn, hrest⟩
      · exact List.forall_mem_cons.2 ⟨hm, ih hrest⟩

/-- Setting a name keeps the names in order. -/
theorem ordered_insert (h : fields.Ordered) : (fields.insert name v).Ordered := by
  induction fields with
  | nil => exact List.pairwise_singleton ..
  | cons e rest ih =>
    obtain ⟨n, w⟩ := e
    obtain ⟨hn, hrest⟩ := ordered_cons_iff.1 h
    rw [insert]
    split
    · rename_i hlt
      exact ordered_cons_iff.2
        ⟨List.forall_mem_cons.2 ⟨hlt, fun e he => String.lt_trans hlt (hn e he)⟩, h⟩
    · split
      · rename_i heq
        subst heq
        exact ordered_cons_iff.2 ⟨hn, hrest⟩
      · rename_i hlt hne
        have hgt : n < name := Std.lt_of_le_of_ne (String.not_lt.1 hlt) (Ne.symm hne)
        exact ordered_cons_iff.2 ⟨hn.insert hgt, ih hrest⟩

/-- Each field of an object in order is the one under its name. -/
theorem get?_of_mem {e : String × Value} (h : fields.Ordered) (he : e ∈ fields) :
    fields.get? e.1 = some e.2 := by
  induction fields with
  | nil => nomatch he
  | cons f rest ih =>
    obtain ⟨n, v⟩ := f
    obtain ⟨hbehind, hrest⟩ := ordered_cons_iff.1 h
    rw [get?_cons]
    rcases List.mem_cons.1 he with rfl | he
    · exact if_pos rfl
    · rw [if_neg (String.ne_of_lt (hbehind e he)).symm, ih hrest he]

/-! ## Comparing objects -/

/-- A relation between fields of one name. -/
def Related (R : Value → Value → Prop) (e f : String × Value) : Prop := e.1 = f.1 ∧ R e.2 f.2

variable {R : Value → Value → Prop}

/-- The values of every name are related, and absent from both objects or from none. -/
def Alike (R : Value → Value → Prop) (fields others : Fields) : Prop :=
  ∀ name, Option.Rel R (fields.get? name) (others.get? name)

theorem Alike.isSome_eq {others : Fields} (h : Alike R fields others) (name : String) :
    (fields.get? name).isSome = (others.get? name).isSome := by
  have hname := h name
  revert hname
  cases fields.get? name <;> cases others.get? name <;> rintro ⟨⟩ <;> rfl

theorem isSome_get?_self (name : String) (v : Value) (rest : Fields) :
    (get? ((name, v) :: rest) name).isSome = true := by
  rw [get?_cons, if_pos rfl]
  rfl

/-- Of an object in order the first name is the least that has a value. -/
theorem le_of_isSome (h : Ordered ((name, v) :: fields)) {k : String}
    (hk : (get? ((name, v) :: fields) k).isSome = true) : name ≤ k := by
  refine String.not_lt.1 fun hlt => ?_
  have hbehind : Behind k ((name, v) :: fields) :=
    List.forall_mem_cons.2 ⟨hlt, fun e he => String.lt_trans hlt ((ordered_cons_iff.1 h).1 e he)⟩
  rw [hbehind.get?_eq_none] at hk
  nomatch hk

/-- Objects in order that are alike are related field by field. -/
theorem forall₂_of_alike {others : Fields} (hf : fields.Ordered) (ho : others.Ordered)
    (h : Alike R fields others) : List.Forall₂ (Related R) fields others := by
  induction fields generalizing others with
  | nil =>
    cases others with
    | nil => exact .nil
    | cons f others => nomatch (h.isSome_eq f.1).trans (isSome_get?_self f.1 f.2 others)
  | cons e fields ih =>
    obtain ⟨name, v⟩ := e
    cases others with
    | nil => nomatch (h.isSome_eq name).symm.trans (isSome_get?_self name v fields)
    | cons f others =>
      obtain ⟨n, w⟩ := f
      -- Each object has a value under the first name of the other.
      obtain rfl : name = n := by
        refine String.le_antisymm (le_of_isSome hf ?_) (le_of_isSome ho ?_)
        · rw [h.isSome_eq n, isSome_get?_self]
        · rw [← h.isSome_eq name, isSome_get?_self]
      obtain ⟨hname, hf'⟩ := ordered_cons_iff.1 hf
      obtain ⟨hn, ho'⟩ := ordered_cons_iff.1 ho
      refine .cons ⟨rfl, ?_⟩ (ih hf' ho' fun k => ?_)
      · have hvalues := h name
        rw [get?_cons, if_pos rfl, get?_cons, if_pos rfl] at hvalues
        cases hvalues
        assumption
      · by_cases hk : k = name
        · rw [hk, hname.get?_eq_none, hn.get?_eq_none]
          exact .none
        · have hvalues := h k
          rwa [get?_cons, if_neg hk, get?_cons, if_neg hk] at hvalues

/-- Objects that are related field by field are alike. -/
theorem alike_of_forall₂ {others : Fields} (h : List.Forall₂ (Related R) fields others) :
    Alike R fields others := by
  intro name
  induction h with
  | nil => exact .none
  | @cons e f _ _ hef _ ih =>
    obtain ⟨n, v⟩ := e
    obtain ⟨m, w⟩ := f
    obtain ⟨rfl, hR⟩ := hef
    rw [get?_cons, get?_cons]
    split
    · exact .some hR
    · exact ih

/-- And they have the same names. -/
theorem map_fst_eq_of_forall₂ {others : Fields} (h : List.Forall₂ (Related R) fields others) :
    others.map Prod.fst = fields.map Prod.fst := by
  induction h with
  | nil => rfl
  | cons hef _ ih => rw [List.map_cons, List.map_cons, ih, hef.1]

end Fields

theorem Binary64.agrees_symm {x y : Binary64} (h : x.agrees y = true) : y.agrees x = true := by
  simp only [agrees, Bool.or_eq_true, Bool.and_eq_true, beq_iff_eq] at *
  exact h.imp Eq.symm And.symm

/-- Numeric equality is transitive. -/
theorem Binary64.agrees_trans {x y z : Binary64} (h : x.agrees y = true) (h' : y.agrees z = true) :
    x.agrees z = true := by
  simp only [agrees, Bool.or_eq_true, Bool.and_eq_true, beq_iff_eq] at *
  rcases h with rfl | ⟨hx, hy⟩
  · exact h'
  · rcases h' with rfl | ⟨-, hz⟩
    · exact .inr ⟨hx, hy⟩
    · exact .inr ⟨hx, hz⟩

namespace Value

/-! ## Congruences -/

/-- A relation that containers inherit from what they hold, and that tells null from all other
    values. -/
structure Congruence (R : Value → Value → Prop) : Prop where
  refl : ∀ v, R v v
  list : ∀ {items others : List Value}, List.Forall₂ R items others → R (.list items) (.list others)
  object : ∀ {fields others : Fields}, List.Forall₂ (Fields.Related R) fields others →
    R (.object fields) (.object others)
  isNull_eq : ∀ {v w : Value}, R v w → v.isNull = w.isNull

theorem congruence_eq : Congruence Eq where
  refl _ := rfl
  list h := by
    rw [List.forall₂_eq_eq_eq] at h
    exact congrArg Value.list h
  object h := by
    have heq := h.imp fun _ _ hef => Prod.ext hef.1 hef.2
    rw [List.forall₂_eq_eq_eq] at heq
    exact congrArg Value.object heq
  isNull_eq h := congrArg isNull h

mutual

theorem agrees_refl : (v : Value) → v.agrees v = true
  | .null => rfl
  | .bool b => beq_self_eq_true b
  | .int n => beq_self_eq_true n
  | .float x => by rw [agrees, Binary64.agrees, beq_self_eq_true, Bool.true_or]
  | .text s => beq_self_eq_true s
  | .list items => agreesList_refl items
  | .object fields => agreesFields_refl fields

theorem agreesList_refl : (items : List Value) → agreesList items items = true
  | [] => rfl
  | v :: rest => by rw [agreesList, agrees_refl v, agreesList_refl rest, Bool.and_true]

theorem agreesFields_refl : (fields : Fields) → agreesFields fields fields = true
  | [] => rfl
  | (name, v) :: rest => by
    rw [agreesFields, beq_self_eq_true, agrees_refl v, agreesFields_refl rest]
    rfl

end

theorem agreesList_iff {items others : List Value} :
    agreesList items others = true ↔
      List.Forall₂ (fun v w => v.agrees w = true) items others := by
  induction items generalizing others with
  | nil => cases others <;> simp [agreesList]
  | cons v rest ih => cases others <;> simp [agreesList, ih]

theorem agreesFields_iff {fields others : Fields} :
    agreesFields fields others = true ↔
      List.Forall₂ (Fields.Related fun v w => v.agrees w = true) fields others := by
  induction fields generalizing others with
  | nil => cases others <;> simp [agreesFields]
  | cons e rest ih => cases others <;> simp [agreesFields, ih, Fields.Related]

theorem isNull_eq_of_agrees {v w : Value} (h : v.agrees w = true) : v.isNull = w.isNull := by
  cases v with
  | null =>
    cases w with
    | null => rfl
    | _ => nomatch h
  | _ =>
    cases w with
    | null => nomatch h
    | _ => rfl

mutual

theorem agrees_trans : {u v w : Value} → u.agrees v = true → v.agrees w = true →
    u.agrees w = true
  | .null, v, w, h, h' => by
    cases v with
    | null => exact h'
    | _ => nomatch h
  | .bool a, v, w, h, h' => by
    cases v with
    | bool b => rwa [eq_of_beq h]
    | _ => nomatch h
  | .int n, v, w, h, h' => by
    cases v with
    | int m => rwa [eq_of_beq h]
    | _ => nomatch h
  | .float x, v, w, h, h' => by
    cases v with
    | float y =>
      cases w with
      | float z => exact Binary64.agrees_trans h h'
      | _ => nomatch h'
    | _ => nomatch h
  | .text s, v, w, h, h' => by
    cases v with
    | text t => rwa [eq_of_beq h]
    | _ => nomatch h
  | .list items, v, w, h, h' => by
    cases v with
    | list others =>
      cases w with
      | list thirds => exact agreesList_trans h h'
      | _ => nomatch h'
    | _ => nomatch h
  | .object fields, v, w, h, h' => by
    cases v with
    | object others =>
      cases w with
      | object thirds => exact agreesFields_trans h h'
      | _ => nomatch h'
    | _ => nomatch h

theorem agreesList_trans : {us vs ws : List Value} → agreesList us vs = true →
    agreesList vs ws = true → agreesList us ws = true
  | [], vs, ws, h, h' => by
    cases vs with
    | nil => exact h'
    | cons _ _ => nomatch h
  | u :: us, vs, ws, h, h' => by
    cases vs with
    | nil => nomatch h
    | cons v vs =>
      cases ws with
      | nil => nomatch h'
      | cons w ws =>
        rw [agreesList, Bool.and_eq_true] at h h' ⊢
        exact ⟨agrees_trans h.1 h'.1, agreesList_trans h.2 h'.2⟩

theorem agreesFields_trans : {us vs ws : Fields} → agreesFields us vs = true →
    agreesFields vs ws = true → agreesFields us ws = true
  | [], vs, ws, h, h' => by
    cases vs with
    | nil => exact h'
    | cons _ _ => nomatch h
  | (name, u) :: us, vs, ws, h, h' => by
    cases vs with
    | nil => nomatch h
    | cons e vs =>
      cases ws with
      | nil => nomatch h'
      | cons f ws =>
        simp only [agreesFields, Bool.and_eq_true, beq_iff_eq] at h h' ⊢
        exact ⟨⟨h.1.1.trans h'.1.1, agrees_trans h.1.2 h'.1.2⟩, agreesFields_trans h.2 h'.2⟩

end

mutual

theorem agrees_symm : {v w : Value} → v.agrees w = true → w.agrees v = true
  | .null, w, h => by
    cases w with
    | null => rfl
    | _ => nomatch h
  | .bool b, w, h => by
    cases w with
    | bool c => exact beq_iff_eq.2 (eq_of_beq h).symm
    | _ => nomatch h
  | .int n, w, h => by
    cases w with
    | int m => exact beq_iff_eq.2 (eq_of_beq h).symm
    | _ => nomatch h
  | .float x, w, h => by
    cases w with
    | float y => exact Binary64.agrees_symm h
    | _ => nomatch h
  | .text s, w, h => by
    cases w with
    | text t => exact beq_iff_eq.2 (eq_of_beq h).symm
    | _ => nomatch h
  | .list items, w, h => by
    cases w with
    | list others => exact agreesList_symm h
    | _ => nomatch h
  | .object fields, w, h => by
    cases w with
    | object others => exact agreesFields_symm h
    | _ => nomatch h

theorem agreesList_symm : {items others : List Value} → agreesList items others = true →
    agreesList others items = true
  | [], others, h => by
    cases others with
    | nil => rfl
    | cons _ _ => nomatch h
  | v :: rest, others, h => by
    cases others with
    | nil => nomatch h
    | cons w others =>
      rw [agreesList, Bool.and_eq_true] at h ⊢
      exact ⟨agrees_symm h.1, agreesList_symm h.2⟩

theorem agreesFields_symm : {fields others : Fields} → agreesFields fields others = true →
    agreesFields others fields = true
  | [], others, h => by
    cases others with
    | nil => rfl
    | cons _ _ => nomatch h
  | (name, v) :: rest, others, h => by
    cases others with
    | nil => nomatch h
    | cons f others =>
      simp only [agreesFields, Bool.and_eq_true, beq_iff_eq] at h ⊢
      exact ⟨⟨h.1.1.symm, agrees_symm h.1.2⟩, agreesFields_symm h.2⟩

end

theorem congruence_agrees : Congruence fun v w => v.agrees w = true where
  refl := agrees_refl
  list h := agreesList_iff.2 h
  object h := agreesFields_iff.2 h
  isNull_eq := isNull_eq_of_agrees

mutual

/-- No floating-point zero is inside. -/
def ZeroFree : Value → Prop
  | .float x => x.val.isZero = false
  | .list items => ZeroFreeList items
  | .object fields => ZeroFreeFields fields
  | _ => True

/-- None is inside any of the items. -/
def ZeroFreeList : List Value → Prop
  | [] => True
  | v :: rest => ZeroFree v ∧ ZeroFreeList rest

/-- None is inside any of the fields. -/
def ZeroFreeFields : List (String × Value) → Prop
  | [] => True
  | (_, v) :: rest => ZeroFree v ∧ ZeroFreeFields rest

end

mutual

/-- Without zeros, values that agree are the same. -/
theorem eq_of_agrees : {v w : Value} → v.ZeroFree → v.agrees w = true → v = w
  | .null, w, _, h => by
    cases w with
    | null => rfl
    | _ => nomatch h
  | .bool b, w, _, h => by
    cases w with
    | bool c => exact congrArg Value.bool (eq_of_beq h)
    | _ => nomatch h
  | .int n, w, _, h => by
    cases w with
    | int m => exact congrArg Value.int (eq_of_beq h)
    | _ => nomatch h
  | .float x, w, hz, h => by
    cases w with
    | float y =>
      have hz : x.val.isZero = false := hz
      rw [agrees, Binary64.agrees, hz, Bool.false_and, Bool.or_false] at h
      exact congrArg Value.float (Subtype.ext (eq_of_beq h))
    | _ => nomatch h
  | .text s, w, _, h => by
    cases w with
    | text t => exact congrArg Value.text (eq_of_beq h)
    | _ => nomatch h
  | .list items, w, hz, h => by
    cases w with
    | list others => exact congrArg Value.list (eq_of_agreesList hz h)
    | _ => nomatch h
  | .object fields, w, hz, h => by
    cases w with
    | object others => exact congrArg Value.object (eq_of_agreesFields hz h)
    | _ => nomatch h

theorem eq_of_agreesList : {items others : List Value} → ZeroFreeList items →
    agreesList items others = true → items = others
  | [], others, _, h => by
    cases others with
    | nil => rfl
    | cons _ _ => nomatch h
  | v :: rest, others, hz, h => by
    cases others with
    | nil => nomatch h
    | cons w others =>
      rw [agreesList, Bool.and_eq_true] at h
      rw [eq_of_agrees hz.1 h.1, eq_of_agreesList hz.2 h.2]

theorem eq_of_agreesFields : {fields others : Fields} → ZeroFreeFields fields →
    agreesFields fields others = true → fields = others
  | [], others, _, h => by
    cases others with
    | nil => rfl
    | cons _ _ => nomatch h
  | (name, v) :: rest, others, hz, h => by
    cases others with
    | nil => nomatch h
    | cons f others =>
      obtain ⟨n, w⟩ := f
      rw [agreesFields, Bool.and_eq_true, Bool.and_eq_true, beq_iff_eq] at h
      rw [h.1.1, eq_of_agrees hz.1 h.1.2, eq_of_agreesFields hz.2 h.2]

end

/-! ## Canonical values -/

theorem canonicalList_iff {items : List Value} :
    CanonicalList items ↔ ∀ v ∈ items, v.Canonical := by
  induction items with
  | nil => exact ⟨fun _ _ h => (nomatch h), fun _ => trivial⟩
  | cons v rest ih => rw [List.forall_mem_cons, ← ih, CanonicalList]

theorem canonicalFields_iff {fields : Fields} :
    CanonicalFields fields ↔ ∀ e ∈ fields, e.2.Canonical := by
  induction fields with
  | nil => exact ⟨fun _ _ h => (nomatch h), fun _ => trivial⟩
  | cons e rest ih => rw [List.forall_mem_cons, ← ih, CanonicalFields]

end Value

end FrameRpc
