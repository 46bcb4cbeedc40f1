import Coursework.Lib.NearestEven

/-! Natural numbers truncated to a given number of significant bits. -/
namespace NearestEven

/-- The `p` leading significant bits of a number, with zeros for the others. -/
def truncate (p n : ℕ) : ℕ := n / 2 ^ (n.size - p) * 2 ^ (n.size - p)

theorem truncate_of_lt {p n : ℕ} (h : n < 2 ^ p) : truncate p n = n := by
  have hzero : n.size - p = 0 := Nat.sub_eq_zero_of_le (Nat.size_le.2 h)
  rw [truncate, hzero, pow_zero, Nat.div_one, mul_one]

theorem truncate_split {p : ℕ} (hp : 0 < p) (n : ℕ) : n.size ≤ p ∧ truncate p n = n ∨
    2 ^ p ≤ 2 * (n / 2 ^ (n.size - p)) ∧ n / 2 ^ (n.size - p) < 2 ^ p ∧
      n = truncate p n + n % 2 ^ (n.size - p) := by
  by_cases hsize : n.size ≤ p
  · exact .inl ⟨hsize, truncate_of_lt (Nat.size_le.1 hsize)⟩
  · right
    obtain ⟨p', rfl⟩ : ∃ p', p = p' + 1 := ⟨p - 1, by omega⟩
    have hge : 2 ^ (p' + (n.size - (p' + 1))) ≤ n := Nat.lt_size.1 (by omega)
    have hlt : n < 2 ^ n.size := Nat.size_le.1 le_rfl
    refine ⟨?_, ?_, ?_⟩
    · have hdiv : 2 ^ p' ≤ n / 2 ^ (n.size - (p' + 1)) := by
        rw [Nat.le_div_iff_mul_le (Nat.two_pow_pos _), ← pow_add]
        exact hge
      rw [pow_succ]
      omega
    · rw [Nat.div_lt_iff_lt_mul (Nat.two_pow_pos _), ← pow_add]
      exact lt_of_lt_of_le hlt (Nat.pow_le_pow_right (by decide) (by omega))
    · rw [truncate, Nat.mul_comm]
      exact (Nat.div_add_mod _ _).symm

theorem truncate_le (p n : ℕ) : truncate p n ≤ n := Nat.div_mul_le_self _ _

theorem fits_truncate {p : ℕ} (hp : 0 < p) (n : ℕ) : Fits p (truncate p n) := by
  obtain ⟨hsize, he⟩ | ⟨-, hlt, -⟩ := truncate_split hp n
  · rw [he]
    exact ⟨n, 0, Nat.size_le.1 hsize, by rw [pow_zero, mul_one]⟩
  · exact ⟨_, _, hlt, rfl⟩

theorem Fits.le_truncate {p n l : ℕ} (hp : 0 < p) (hl : Fits p l) (h : l ≤ n) :
    l ≤ truncate p n := by
  obtain ⟨-, he⟩ | ⟨hge, -, he⟩ := truncate_split hp n
  · rwa [he]
  · have hmod := Nat.mod_lt n (Nat.two_pow_pos (n.size - p))
    have hgap := hl.gap (k := n.size - p) (.inr hge)
    rw [add_mul, one_mul] at hgap
    change l ≤ truncate p n ∨ truncate p n + _ ≤ l at hgap
    omega

theorem truncate_eq_zero {p n : ℕ} (hp : 0 < p) : truncate p n = 0 ↔ n = 0 := by
  refine ⟨fun h => ?_, fun h => ?_⟩
  · by_contra hne
    have hone : Fits p 1 := ⟨1, 0, Nat.one_lt_two_pow hp.ne', rfl⟩
    have hle := hone.le_truncate hp (Nat.pos_of_ne_zero hne)
    omega
  · have hle := truncate_le p n
    omega

theorem truncate_of_full {p k q r : ℕ} (hp : 0 < p) (hr : r < 2 ^ k) (hq : q < 2 ^ p)
    (hfull : 2 ^ p ≤ 2 * q) : truncate p (q * 2 ^ k + r) = q * 2 ^ k := by
  have hfits : Fits p (q * 2 ^ k) := ⟨q, k, hq, rfl⟩
  have hle := hfits.le_truncate hp (Nat.le_add_right _ r)
  have hgap := (fits_truncate hp (q * 2 ^ k + r)).gap (k := k) (.inr hfull)
  have hup := truncate_le p (q * 2 ^ k + r)
  rw [add_mul, one_mul] at hgap
  omega

end NearestEven
