import Mathlib.Data.Int.Notation
import Mathlib.Data.Nat.Notation
import Mathlib.Data.Option.Basic
import Mathlib.Algebra.Group.Nat.Defs
import Mathlib.Algebra.Group.Int.Defs

/-! The type `int` of C, with 32 bits. -/
namespace CInt

/-- The range of an `int`. -/
def InRange (x : ℤ) : Prop := -2 ^ 31 ≤ x ∧ x < 2 ^ 31

instance (x : ℤ) : Decidable (InRange x) := inferInstanceAs (Decidable (_ ∧ _))

/-- The result of `int` arithmetic; an overflow is undefined. -/
def checked (x : ℤ) : Option ℤ := if InRange x then some x else none

theorem checked_natCast {n : ℕ} (h : n < 2 ^ 31) : checked n = some (n : ℤ) := by
  have hr : InRange n := by
    unfold InRange
    omega
  exact if_pos hr

/-- A counter of type `int`. -/
def counter (n : ℕ) : Option ℕ := if n < 2 ^ 31 then some n else none

theorem counter_of_lt {n : ℕ} (h : n < 2 ^ 31) : counter n = some n := if_pos h

theorem counter_of_le {n : ℕ} (h : 2 ^ 31 ≤ n) : counter n = none := if_neg (Nat.not_lt.2 h)

theorem checked_eq_none {n : ℕ} (h : 2 ^ 31 ≤ n) : checked n = none := by
  have hr : ¬InRange n := by
    unfold InRange
    omega
  exact if_neg hr

end CInt
