/-
# `Secdogie.Identity.Num` — the floats of the Python side

JSON numbers are integers and floats.  What the modelled functions do with a
float is compare it, add to it and convert to it; the type of floats is a
parameter, with these operations, and the laws that comparison has for IEEE
numbers are a class of their own.
-/
import Secdogie.Graph.Canon

namespace Secdogie.Identity

open Secdogie.Graph

class PyFloat (F : Type) extends FloatCodec F where
  /-- `float(n)`; `none` is its `OverflowError` -/
  ofInt : Int → Option F
  /-- `float(text)`; `none` is its `ValueError` -/
  ofText : String → Option F
  isNaN : F → Bool
  isFinite : F → Bool
  le : F → F → Bool
  lt : F → F → Bool
  add : F → F → F
  sub : F → F → F
  mul : F → F → F

/-- Comparison of IEEE numbers. -/
class LawfulPyFloat (F : Type) [PyFloat F] : Prop where
  le_total : ∀ a b : F, PyFloat.isNaN a = false → PyFloat.isNaN b = false →
    PyFloat.le a b = true ∨ PyFloat.le b a = true
  le_trans : ∀ a b c : F, PyFloat.le a b = true → PyFloat.le b c = true → PyFloat.le a c = true
  not_nan_of_le : ∀ a b : F, PyFloat.le a b = true →
    PyFloat.isNaN a = false ∧ PyFloat.isNaN b = false
  lt_iff : ∀ a b : F, PyFloat.lt a b = true ↔ PyFloat.le a b = true ∧ PyFloat.le b a = false

/-- Whole numbers and NaN. -/
instance : PyFloat (Option Int) where
  ofToken _ := none
  repr
    | none => ['N', 'a', 'N']
    | some n => intDigits n ++ ['.', '0']
  ofInt n := some (some n)
  ofText s := if s = "nan" then some none else none
  isNaN f := f.isNone
  isFinite f := f.isSome
  le
    | some a, some b => decide (a ≤ b)
    | _, _ => false
  lt
    | some a, some b => decide (a < b)
    | _, _ => false
  add a b := a.bind (fun x => b.map (x + ·))
  sub a b := a.bind (fun x => b.map (x - ·))
  mul a b := a.bind (fun x => b.map (x * ·))

instance : LawfulPyFloat (Option Int) where
  le_total := by
    rintro (_ | a) (_ | b) ha hb
    · cases ha
    · cases ha
    · cases hb
    · simp only [PyFloat.le, decide_eq_true_eq]
      exact le_total a b
  le_trans := by
    rintro (_ | a) (_ | b) (_ | c) hab hbc
    all_goals first | cases hab | cases hbc | skip
    simp only [PyFloat.le, decide_eq_true_eq] at hab hbc ⊢
    exact hab.trans hbc
  not_nan_of_le := by
    rintro (_ | a) (_ | b) h
    all_goals first | cases h | exact ⟨rfl, rfl⟩
  lt_iff := by
    rintro (_ | a) (_ | b)
    all_goals simp only [PyFloat.le, PyFloat.lt, decide_eq_true_eq, decide_eq_false_iff_not]
    all_goals first | exact lt_iff_le_not_ge | simp

section

variable {F : Type} [PyFloat F]

/-- `float(v)`; `none` is any exception. -/
def toFloat : Value F → Option F
  | .int n => PyFloat.ofInt n
  | .bool b => PyFloat.ofInt (if b then 1 else 0)
  | .float f => some f
  | .str s => PyFloat.ofText s
  | _ => none

end

end Secdogie.Identity
