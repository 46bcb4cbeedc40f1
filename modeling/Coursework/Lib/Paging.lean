import Mathlib.Tactic.Ring
import Mathlib.Tactic.Linarith

/-! Numbering by blocks of `P` items: item `i` of block `b` is number `b * P + i`. -/
namespace Paging

variable {P b c i j : ℕ}

theorem div_page (hi : i < P) : (b * P + i) / P = b := by
  rw [Nat.mul_comm, Nat.mul_add_div (by omega), Nat.div_eq_of_lt hi, Nat.add_zero]

theorem mod_page (hi : i < P) : (b * P + i) % P = i := by
  rw [Nat.mul_comm, Nat.mul_add_mod, Nat.mod_eq_of_lt hi]

theorem page_inj (hi : i < P) (hj : j < P) (h : b * P + i = c * P + j) : b = c ∧ i = j :=
  ⟨by rw [← div_page (b := b) hi, h, div_page hj], by rw [← mod_page (b := b) hi, h, mod_page hj]⟩

theorem page_lt (hb : b < c) (hi : i < P) : b * P + i < c * P := by
  calc b * P + i < b * P + P := by omega
    _ = (b + 1) * P := by ring
    _ ≤ c * P := Nat.mul_le_mul_right P hb

theorem div_mul_add_mod (p P : ℕ) : p / P * P + p % P = p := by
  rw [Nat.mul_comm, Nat.div_add_mod]

theorem div_eq_iff_range (hP : 0 < P) {p : ℕ} : p / P = b ↔ b * P ≤ p ∧ p < b * P + P := by
  rw [Nat.div_eq_iff hP]
  have : (b + 1) * P = b * P + P := by ring
  omega

/-- The number of items of block `b` whose flag is clear. -/
def clearCount (P : ℕ) (flag : ℕ → Bool) (b : ℕ) : ℕ :=
  ((List.range P).filter fun i => !flag (b * P + i)).length

theorem clearCount_pos {flag : ℕ → Bool} :
    0 < clearCount P flag b ↔ ∃ i < P, flag (b * P + i) = false := by
  unfold clearCount
  rw [List.length_pos_iff_exists_mem]
  simp

theorem clearCount_congr {flag flag' : ℕ → Bool}
    (h : ∀ i < P, flag (b * P + i) = flag' (b * P + i)) :
    clearCount P flag b = clearCount P flag' b := by
  unfold clearCount
  congr 1
  refine List.filter_congr fun i hi => ?_
  rw [h i (List.mem_range.mp hi)]

/-- An entry of a table of page numbers, where `-1` stands for no page. -/
def entry (z : ℤ) : Option ℕ := if z = -1 then none else some z.toNat

@[simp] theorem entry_natCast (p : ℕ) : entry (p : ℤ) = some p := by
  have : (p : ℤ) ≠ -1 := by omega
  simp [entry, this]

@[simp] theorem entry_neg_one : entry (-1) = none := rfl

theorem entry_eq_none {z : ℤ} : entry z = none ↔ z = -1 := by
  unfold entry
  split <;> simp_all

theorem entry_eq_some {z : ℤ} (hz : -1 ≤ z) {p : ℕ} : entry z = some p ↔ z = p := by
  unfold entry
  split
  next h => simp only [reduceCtorEq, false_iff]; omega
  next h => simp only [Option.some.injEq]; omega

end Paging
