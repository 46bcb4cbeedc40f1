import Mathlib.Data.Nat.Size
import Mathlib.Tactic.Ring

/-! Natural numbers rounded to a given number of significant bits, to the nearest one and in case
of a tie to the even one. -/
namespace NearestEven

/-- A number with at most `p` significant bits. -/
def Fits (p n : ℕ) : Prop := ∃ c k, c < 2 ^ p ∧ n = c * 2 ^ k

def dist (n m : ℕ) : ℕ := ((n : ℤ) - m).natAbs

/-- `m` has `p` significant bits and is nearest to `n`; of two such numbers it is the one that
has a bit less. -/
structure Nearest (p n m : ℕ) : Prop where
  fits : Fits p m
  nearest : ∀ l, Fits p l → dist n m ≤ dist n l
  even : ∀ l, Fits p l → l ≠ m → dist n l = dist n m → Fits (p - 1) m

/-- A quotient with its remainder, rounded. -/
def roundUp (d q r : ℕ) : ℕ := if d < 2 * r ∨ 2 * r = d ∧ q % 2 = 1 then q + 1 else q

/-- The nearest number with `p` significant bits. -/
def roundEven (p n : ℕ) : ℕ :=
  let k := n.size - p
  roundUp (2 ^ k) (n / 2 ^ k) (n % 2 ^ k) * 2 ^ k

theorem roundUp_eq_or (d q r : ℕ) : roundUp d q r = q ∨ roundUp d q r = q + 1 := by
  unfold roundUp
  split
  · exact .inr rfl
  · exact .inl rfl

theorem roundUp_eq_iff {d q r : ℕ} {p : Prop} [Decidable p] :
    roundUp d q r = q + (if p then 1 else 0) ↔ (p ↔ d < 2 * r ∨ 2 * r = d ∧ q % 2 = 1) := by
  unfold roundUp
  by_cases hup : d < 2 * r ∨ 2 * r = d ∧ q % 2 = 1 <;> by_cases hp : p <;> simp [hup, hp]

/-- The bits in front of the last place. -/
theorem size_of_split {p k q r : ℕ} (hr : r < 2 ^ k) (hq : q < 2 ^ p)
    (hk : k = 0 ∨ 2 ^ p ≤ 2 * q) : (q * 2 ^ k + r).size - p = k := by
  obtain rfl | hq' := hk
  · rw [pow_zero, mul_one] at *
    have hle : (q + r).size ≤ p := Nat.size_le.2 (by omega)
    omega
  · have hpos := Nat.two_pow_pos k
    have hle : (q * 2 ^ k + r).size ≤ p + k := by
      rw [Nat.size_le, pow_add]
      calc q * 2 ^ k + r < (q + 1) * 2 ^ k := by rw [add_mul, one_mul]; omega
        _ ≤ 2 ^ p * 2 ^ k := Nat.mul_le_mul_right _ hq
    have hge : ∀ j, j + 1 = p + k → j < (q * 2 ^ k + r).size := by
      intro j hj
      rw [Nat.lt_size]
      have htwo : 2 * 2 ^ j ≤ 2 * (q * 2 ^ k) := by
        rw [← pow_succ', hj, pow_add, ← mul_assoc]
        exact Nat.mul_le_mul_right _ hq'
      omega
    by_cases hpk : p + k = 0
    · omega
    · have := hge (p + k - 1) (by omega)
      omega

theorem roundEven_of_split {p k q r : ℕ} (hr : r < 2 ^ k) (hq : q < 2 ^ p)
    (hk : k = 0 ∨ 2 ^ p ≤ 2 * q) : roundEven p (q * 2 ^ k + r) = roundUp (2 ^ k) q r * 2 ^ k := by
  have hdiv : (q * 2 ^ k + r) / 2 ^ k = q := by
    rw [Nat.add_comm, Nat.add_mul_div_right _ _ (Nat.two_pow_pos k), Nat.div_eq_of_lt hr,
      Nat.zero_add]
  have hmod : (q * 2 ^ k + r) % 2 ^ k = r := by
    rw [Nat.add_comm, Nat.add_mul_mod_self_right, Nat.mod_eq_of_lt hr]
  unfold roundEven
  dsimp only
  rw [size_of_split hr hq hk, hdiv, hmod]

theorem exists_split {p : ℕ} (hp : 0 < p) (n : ℕ) : ∃ k q r, n = q * 2 ^ k + r ∧ r < 2 ^ k ∧
    q < 2 ^ p ∧ (k = 0 ∨ 2 ^ p ≤ 2 * q) := by
  refine ⟨n.size - p, n / 2 ^ (n.size - p), n % 2 ^ (n.size - p), ?_, ?_, ?_, ?_⟩
  · rw [Nat.mul_comm]
    exact (Nat.div_add_mod _ _).symm
  · exact Nat.mod_lt _ (Nat.two_pow_pos _)
  · rw [Nat.div_lt_iff_lt_mul (Nat.two_pow_pos _), ← pow_add]
    have hlt : n < 2 ^ n.size := Nat.size_le.1 le_rfl
    exact lt_of_lt_of_le hlt (Nat.pow_le_pow_right (by decide) (by omega))
  · by_cases hsize : n.size ≤ p
    · exact .inl (by omega)
    · obtain ⟨p', rfl⟩ : ∃ p', p = p' + 1 := ⟨p - 1, by omega⟩
      have hge : 2 ^ (p' + (n.size - (p' + 1))) ≤ n := Nat.lt_size.1 (by omega)
      have hdiv : 2 ^ p' ≤ n / 2 ^ (n.size - (p' + 1)) := by
        rw [Nat.le_div_iff_mul_le (Nat.two_pow_pos _), ← pow_add]
        exact hge
      rw [pow_succ]
      omega

section Split
variable {p k q r : ℕ}

/-- No number with `p` significant bits lies strictly between two neighbours. -/
theorem Fits.gap {l : ℕ} (h : Fits p l) (hk : k = 0 ∨ 2 ^ p ≤ 2 * q) :
    l ≤ q * 2 ^ k ∨ (q + 1) * 2 ^ k ≤ l := by
  obtain ⟨c, j, hc, rfl⟩ := h
  by_cases hjk : k ≤ j
  · have hsplit : c * 2 ^ j = c * 2 ^ (j - k) * 2 ^ k := by
      rw [mul_assoc, ← pow_add, Nat.sub_add_cancel hjk]
    rw [hsplit]
    obtain h | h := Nat.lt_or_ge q (c * 2 ^ (j - k))
    · exact .inr (Nat.mul_le_mul_right _ h)
    · exact .inl (Nat.mul_le_mul_right _ h)
  · have hq : 2 ^ p ≤ 2 * q := hk.resolve_left (by omega)
    have hsplit : q * 2 ^ k = 2 * q * 2 ^ (k - j - 1) * 2 ^ j := by
      have hk' : k = (k - j - 1) + 1 + j := by omega
      conv_lhs => rw [hk', pow_add, pow_succ]
      ring
    have hpos := Nat.two_pow_pos (k - j - 1)
    left
    rw [hsplit]
    refine Nat.mul_le_mul_right _ (le_trans hc.le (le_trans hq ?_))
    exact Nat.le_mul_of_pos_right _ hpos

theorem roundEven_of_fits (hp : 0 < p) {n : ℕ} (h : Fits p n) : roundEven p n = n := by
  obtain ⟨k, q, r, rfl, hr, hq, hk⟩ := exists_split hp n
  have hr0 : r = 0 := by
    have hgap := h.gap hk
    rw [add_mul, one_mul] at hgap
    omega
  have hpos := Nat.two_pow_pos k
  subst hr0
  rw [roundEven_of_split hr hq hk, roundUp, if_neg (by omega), Nat.add_zero]

theorem roundUp_mul (d q r : ℕ) {j : ℕ} (hj : 0 < j) :
    roundUp (d * j) q (r * j) = roundUp d q r := by
  have hmul : 2 * (r * j) = 2 * r * j := by ring
  refine if_congr (or_congr ?_ (and_congr_left' ?_)) rfl rfl
  · rw [hmul, Nat.mul_lt_mul_right hj]
  · rw [hmul, Nat.mul_left_inj hj.ne']

/-- Rounding commutes with powers of two. -/
theorem roundEven_mul_pow (hp : 0 < p) (n j : ℕ) :
    roundEven p (n * 2 ^ j) = roundEven p n * 2 ^ j := by
  obtain ⟨k, q, r, rfl, hr, hq, hk⟩ := exists_split hp n
  obtain hk0 | hq' := hk
  · subst hk0
    rw [pow_zero] at hr
    have hr0 : r = 0 := by omega
    subst hr0
    have hfits : Fits p (q * 2 ^ 0 + 0) := ⟨q, 0, hq, rfl⟩
    rw [roundEven_of_fits hp hfits]
    exact roundEven_of_fits hp ⟨q, j, hq, by rw [pow_zero, mul_one, Nat.add_zero]⟩
  · have hpos := Nat.two_pow_pos j
    have hr' : r * 2 ^ j < 2 ^ (k + j) := by
      rw [pow_add]
      exact Nat.mul_lt_mul_of_pos_right hr hpos
    have hsplit : (q * 2 ^ k + r) * 2 ^ j = q * 2 ^ (k + j) + r * 2 ^ j := by
      rw [pow_add]
      ring
    rw [hsplit, roundEven_of_split hr' hq (.inr hq'), roundEven_of_split hr hq (.inr hq'), pow_add,
      roundUp_mul _ _ _ hpos, mul_assoc]

theorem fits_roundEven (hp : 0 < p) (n : ℕ) : Fits p (roundEven p n) := by
  obtain ⟨k, q, r, rfl, hr, hq, hk⟩ := exists_split hp n
  rw [roundEven_of_split hr hq hk]
  obtain h | h := roundUp_eq_or (2 ^ k) q r
  · exact ⟨q, k, hq, by rw [h]⟩
  · rw [h]
    by_cases hlast : q + 1 < 2 ^ p
    · exact ⟨q + 1, k, hlast, rfl⟩
    · have hq1 : q + 1 = 2 ^ p := by omega
      exact ⟨1, p + k, Nat.one_lt_two_pow hp.ne', by rw [hq1, pow_add, one_mul]⟩

theorem le_roundEven (hp : 0 < p) {n l : ℕ} (hl : Fits p l) (h : l ≤ n) : l ≤ roundEven p n := by
  obtain ⟨k, q, r, rfl, hr, hq, hk⟩ := exists_split hp n
  have hgap := hl.gap hk
  rw [roundEven_of_split hr hq hk]
  rw [add_mul, one_mul] at hgap
  obtain hup | hup := roundUp_eq_or (2 ^ k) q r
  · rw [hup]
    omega
  · rw [hup, add_mul, one_mul]
    omega

theorem roundEven_le (hp : 0 < p) {n l : ℕ} (hl : Fits p l) (h : n ≤ l) : roundEven p n ≤ l := by
  obtain ⟨k, q, r, rfl, hr, hq, hk⟩ := exists_split hp n
  have hgap := hl.gap hk
  rw [roundEven_of_split hr hq hk]
  rw [add_mul, one_mul] at hgap
  unfold roundUp
  by_cases hup : 2 ^ k < 2 * r ∨ 2 * r = 2 ^ k ∧ q % 2 = 1
  · rw [if_pos hup, add_mul, one_mul]
    omega
  · rw [if_neg hup]
    omega

/-- The rounded number is nearest and, in case of a tie, even. -/
theorem nearest_roundEven (hp : 2 ≤ p) (n : ℕ) : Nearest p n (roundEven p n) := by
  have hfits := fits_roundEven (by omega : 0 < p) n
  obtain ⟨k, q, r, rfl, hr, hq, hk⟩ := exists_split (by omega : 0 < p) n
  rw [roundEven_of_split hr hq hk] at hfits ⊢
  have hgap : ∀ l, Fits p l → l ≤ q * 2 ^ k ∨ q * 2 ^ k + 2 ^ k ≤ l := by
    intro l hl
    have h := hl.gap hk
    rwa [add_mul, one_mul] at h
  have heven : ∀ m, m % 2 = 0 → m ≤ 2 ^ p → Fits (p - 1) (m * 2 ^ k) := by
    intro m hm hle
    obtain ⟨p', rfl⟩ : ∃ p', p = p' + 1 := ⟨p - 1, by omega⟩
    rw [Nat.add_sub_cancel]
    rw [pow_succ] at hle
    have hsplit : m * 2 ^ k = m / 2 * 2 ^ (k + 1) := by
      have hm' : m = m / 2 * 2 := by omega
      conv_lhs => rw [hm']
      rw [pow_succ]
      ring
    by_cases hlast : m / 2 < 2 ^ p'
    · exact ⟨m / 2, k + 1, hlast, hsplit⟩
    · have hm2 : m / 2 = 2 ^ p' := by omega
      refine ⟨1, p' + (k + 1), Nat.one_lt_two_pow (by omega), ?_⟩
      rw [hsplit, hm2, ← pow_add, one_mul]
  unfold roundUp at hfits ⊢
  by_cases hup : 2 ^ k < 2 * r ∨ 2 * r = 2 ^ k ∧ q % 2 = 1
  · rw [if_pos hup] at hfits ⊢
    refine ⟨hfits, fun l hl => ?_, fun l hl hne hdist => ?_⟩
    · have h := hgap l hl
      unfold dist
      rw [add_mul, one_mul]
      omega
    · have h := hgap l hl
      unfold dist at hdist
      rw [add_mul, one_mul] at hdist hne
      exact heven (q + 1) (by omega) (by omega)
  · rw [if_neg hup] at hfits ⊢
    refine ⟨hfits, fun l hl => ?_, fun l hl hne hdist => ?_⟩
    · have h := hgap l hl
      unfold dist
      omega
    · have h := hgap l hl
      unfold dist at hdist
      exact heven q (by omega) (by omega)

/-- An odd number with its full bits does not fit into a bit less. -/
theorem even_of_fits {m : ℕ} (h : Fits (p - 1) (m * 2 ^ k)) (hp : 0 < p) (hm : 2 ^ p ≤ 2 * m) :
    m % 2 = 0 := by
  obtain ⟨p', rfl⟩ : ∃ p', p = p' + 1 := ⟨p - 1, by omega⟩
  rw [Nat.add_sub_cancel] at h
  rw [pow_succ] at hm
  obtain ⟨c, j, hc, he⟩ := h
  have hkj : k < j := by
    by_contra hle
    have hsplit : m * 2 ^ k = m * 2 ^ (k - j) * 2 ^ j := by
      rw [mul_assoc, ← pow_add, Nat.sub_add_cancel (by omega)]
    rw [hsplit, Nat.mul_left_inj (Nat.two_pow_pos j).ne'] at he
    have hle' := Nat.le_mul_of_pos_right m (Nat.two_pow_pos (k - j))
    omega
  have hsplit : c * 2 ^ j = c * 2 ^ (j - k - 1) * 2 * 2 ^ k := by
    have hj : j = (j - k - 1) + 1 + k := by omega
    conv_lhs => rw [hj, pow_add, pow_succ]
    ring
  rw [hsplit, Nat.mul_left_inj (Nat.two_pow_pos k).ne'] at he
  omega

/-- There is one nearest number. -/
theorem nearest_iff (hp : 2 ≤ p) {n m : ℕ} : Nearest p n m ↔ m = roundEven p n := by
  have hround := nearest_roundEven hp n
  refine ⟨fun h => ?_, fun h => h ▸ hround⟩
  by_contra hne
  have hdist : dist n m = dist n (roundEven p n) :=
    le_antisymm (h.nearest _ hround.fits) (hround.nearest _ h.fits)
  have hm := hround.even m h.fits hne hdist
  have hm' := h.even _ hround.fits (Ne.symm hne) hdist.symm
  -- the two numbers are neighbours, so one of them is odd
  obtain ⟨k, q, r, rfl, hr, hq, hk⟩ := exists_split (by omega : 0 < p) n
  have hgap := h.fits.gap hk
  rw [roundEven_of_split hr hq hk] at hne hdist hm
  obtain hk0 | hq' := hk
  · subst hk0
    rw [pow_zero] at hr hgap hne hdist
    unfold roundUp dist at hdist
    unfold roundUp at hne
    rw [if_neg (by omega)] at hdist hne
    omega
  · have hodd := fun {m} (h : Fits (p - 1) (m * 2 ^ k)) => even_of_fits (m := m) h (by omega)
    rw [add_mul, one_mul] at hgap
    unfold roundUp at hne hdist hm
    by_cases hup : 2 ^ k < 2 * r ∨ 2 * r = 2 ^ k ∧ q % 2 = 1
    · rw [if_pos hup] at hne hdist hm
      have hother : m = q * 2 ^ k := by
        rw [add_mul, one_mul] at hne hdist
        unfold dist at hdist
        omega
      have h1 := hodd hm (by omega)
      have h2 := hodd (hother ▸ hm') hq'
      omega
    · rw [if_neg hup] at hne hdist hm
      have hother : m = (q + 1) * 2 ^ k := by
        rw [add_mul, one_mul]
        unfold dist at hdist
        omega
      have h1 := hodd hm hq'
      have h2 := hodd (hother ▸ hm') (by omega)
      omega

end Split

end NearestEven
