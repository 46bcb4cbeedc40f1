import Coursework.Lib.NearestEven

/-! Quotients of natural numbers rounded to natural numbers of a given number of significant bits,
to the nearest one and in case of a tie to the one that is even in its last place. -/
namespace NearestEven

/-- `m` has `p` significant bits and is nearest to `n / d`; of two such numbers it is the one
that is an even multiple of their distance. -/
structure NearestQuot (p d n m : ℕ) : Prop where
  fits : Fits p m
  nearest : ∀ l, Fits p l → dist n (m * d) ≤ dist n (l * d)
  even : ∀ l, Fits p l → l ≠ m → dist n (l * d) = dist n (m * d) → 2 * dist m l ∣ m

/-- The nearest number with `p` significant bits. -/
def roundQuot (p d n : ℕ) : ℕ :=
  let k := (n / d).size - p
  roundUp (d * 2 ^ k) (n / (d * 2 ^ k)) (n % (d * 2 ^ k)) * 2 ^ k

theorem dist_comm (m n : ℕ) : dist m n = dist n m := by
  unfold dist
  omega

theorem dist_add_left (m n : ℕ) : dist (m + n) m = n := by
  unfold dist
  omega

section Quotients
variable {p d k q r : ℕ}

/-- A rounded quotient is off by half a unit at most, and it is even if it is off by that much. -/
theorem eq_roundUp_iff {n m : ℕ} (hd : 0 < d) : m = roundUp d (n / d) (n % d) ↔
    2 * (m * d) ≤ 2 * n + d ∧ 2 * n ≤ 2 * (m * d) + d ∧
      (2 * (m * d) = 2 * n + d ∨ 2 * n = 2 * (m * d) + d → m % 2 = 0) := by
  have hn := Nat.div_add_mod' n d
  have hr := Nat.mod_lt n hd
  generalize n / d = q at *
  generalize n % d = r at *
  have hle : ∀ c, m < c → m * d + d ≤ c * d := by
    intro c hc
    have hmul := Nat.mul_le_mul_right d hc
    rwa [Nat.succ_mul] at hmul
  have hge : ∀ c, c < m → c * d + d ≤ m * d := by
    intro c hc
    have hmul := Nat.mul_le_mul_right d hc
    rwa [Nat.succ_mul] at hmul
  have hsucc : (q + 1) * d = q * d + d := by rw [add_mul, one_mul]
  have hcases : m < q ∨ m = q ∨ m = q + 1 ∨ q + 1 < m := by omega
  unfold roundUp
  obtain h | rfl | rfl | h := hcases
  · have hmul := hle q h
    refine iff_of_false (by split <;> omega) (by omega)
  · split <;> omega
  · rw [hsucc]
    split <;> omega
  · have hmul := hge (q + 1) h
    rw [hsucc] at hmul
    refine iff_of_false (by split <;> omega) (by omega)

theorem roundQuot_of_split (hr : r < d * 2 ^ k) (hq : q < 2 ^ p) (hk : k = 0 ∨ 2 ^ p ≤ 2 * q) :
    roundQuot p d (q * (d * 2 ^ k) + r) = roundUp (d * 2 ^ k) q r * 2 ^ k := by
  have hd : 0 < d := Nat.pos_of_ne_zero fun h => by simp [h] at hr
  have hpos : 0 < d * 2 ^ k := Nat.mul_pos hd (Nat.two_pow_pos k)
  have hquot : (q * (d * 2 ^ k) + r) / d = q * 2 ^ k + r / d := by
    have hsplit : q * (d * 2 ^ k) + r = r + q * 2 ^ k * d := by ring
    rw [hsplit, Nat.add_mul_div_right _ _ hd, Nat.add_comm]
  have hrd : r / d < 2 ^ k := Nat.div_lt_of_lt_mul hr
  have hdiv : (q * (d * 2 ^ k) + r) / (d * 2 ^ k) = q := by
    rw [Nat.add_comm, Nat.add_mul_div_right _ _ hpos, Nat.div_eq_of_lt hr, Nat.zero_add]
  have hmod : (q * (d * 2 ^ k) + r) % (d * 2 ^ k) = r := by
    rw [Nat.add_comm, Nat.add_mul_mod_self_right, Nat.mod_eq_of_lt hr]
  unfold roundQuot
  dsimp only
  rw [hquot, size_of_split hrd hq hk, hdiv, hmod]

theorem exists_split_quot (hp : 0 < p) (hd : 0 < d) (n : ℕ) : ∃ k q r,
    n = q * (d * 2 ^ k) + r ∧ r < d * 2 ^ k ∧ q < 2 ^ p ∧ (k = 0 ∨ 2 ^ p ≤ 2 * q) := by
  obtain ⟨k, q, r, hn, hr, hq, hk⟩ := exists_split hp (n / d)
  refine ⟨k, q, r * d + n % d, ?_, ?_, hq, hk⟩
  · calc n = n / d * d + n % d := (Nat.div_add_mod' n d).symm
      _ = q * (d * 2 ^ k) + (r * d + n % d) := by rw [hn]; ring
  · have hmod := Nat.mod_lt n hd
    calc r * d + n % d < (r + 1) * d := by rw [add_mul, one_mul]; omega
      _ ≤ 2 ^ k * d := Nat.mul_le_mul_right _ hr
      _ = d * 2 ^ k := Nat.mul_comm _ _

theorem Fits.gap_mul {l : ℕ} (h : Fits p l) (hk : k = 0 ∨ 2 ^ p ≤ 2 * q) :
    l * d ≤ q * (d * 2 ^ k) ∨ q * (d * 2 ^ k) + d * 2 ^ k ≤ l * d := by
  have hassoc : ∀ c, c * (d * 2 ^ k) = c * 2 ^ k * d := fun c => by ring
  have hone := hassoc 1
  rw [one_mul, one_mul] at hone
  rw [hassoc, hone, ← Nat.add_mul]
  obtain hle | hge := h.gap hk
  · exact .inl (Nat.mul_le_mul_right _ hle)
  · rw [add_mul, one_mul] at hge
    exact .inr (Nat.mul_le_mul_right _ hge)

theorem fits_roundQuot (hp : 0 < p) (hd : 0 < d) (n : ℕ) : Fits p (roundQuot p d n) := by
  obtain ⟨k, q, r, rfl, hr, hq, hk⟩ := exists_split_quot hp hd n
  rw [roundQuot_of_split hr hq hk]
  obtain h | h := roundUp_eq_or (d * 2 ^ k) q r
  · exact ⟨q, k, hq, by rw [h]⟩
  · rw [h]
    by_cases hlast : q + 1 < 2 ^ p
    · exact ⟨q + 1, k, hlast, rfl⟩
    · have hq1 : q + 1 = 2 ^ p := by omega
      exact ⟨1, p + k, Nat.one_lt_two_pow hp.ne', by rw [hq1, pow_add, one_mul]⟩

theorem le_roundQuot (hp : 0 < p) (hd : 0 < d) {n l : ℕ} (hl : Fits p l) (h : l * d ≤ n) :
    l ≤ roundQuot p d n := by
  obtain ⟨k, q, r, rfl, hr, hq, hk⟩ := exists_split_quot hp hd n
  have hgap := hl.gap_mul (d := d) hk
  rw [roundQuot_of_split hr hq hk]
  have hle : l * d ≤ q * 2 ^ k * d := by
    have hassoc : q * (d * 2 ^ k) = q * 2 ^ k * d := by ring
    omega
  have hup : q * 2 ^ k ≤ roundUp (d * 2 ^ k) q r * 2 ^ k := by
    refine Nat.mul_le_mul_right _ ?_
    obtain h | h := roundUp_eq_or (d * 2 ^ k) q r <;> omega
  exact le_trans (Nat.le_of_mul_le_mul_right hle hd) hup

theorem roundQuot_eq_zero_iff (hp : 0 < p) (hd : 0 < d) {n : ℕ} :
    roundQuot p d n = 0 ↔ 2 * n ≤ d := by
  have hpow : 1 < 2 ^ p := Nat.one_lt_two_pow hp.ne'
  by_cases hn : d ≤ n
  · have hle := le_roundQuot hp hd ⟨1, 0, hpow, rfl⟩ (le_of_eq_of_le (one_mul d) hn)
    omega
  · have hround := roundQuot_of_split (p := p) (d := d) (k := 0) (q := 0) (r := n)
      (by rw [pow_zero, Nat.mul_one]; omega) (by omega) (.inl rfl)
    rw [pow_zero, Nat.zero_mul, Nat.zero_add, Nat.mul_one, Nat.mul_one] at hround
    rw [hround]
    unfold roundUp
    split <;> omega

/-- The rounded quotient is nearest and, in case of a tie, even in its last place. -/
theorem nearestQuot_roundQuot (hp : 0 < p) (hd : 0 < d) (n : ℕ) :
    NearestQuot p d n (roundQuot p d n) := by
  have hfits := fits_roundQuot hp hd n
  obtain ⟨k, q, r, rfl, hr, hq, hk⟩ := exists_split_quot hp hd n
  rw [roundQuot_of_split hr hq hk] at hfits ⊢
  have hgap : ∀ l, Fits p l →
      l * d ≤ q * (d * 2 ^ k) ∨ q * (d * 2 ^ k) + d * 2 ^ k ≤ l * d := fun l hl => hl.gap_mul hk
  have hlow : q * 2 ^ k * d = q * (d * 2 ^ k) := by ring
  have hhigh : (q + 1) * 2 ^ k * d = q * (d * 2 ^ k) + d * 2 ^ k := by ring
  have hstep : (q + 1) * 2 ^ k = q * 2 ^ k + 2 ^ k := by ring
  have heven : ∀ c, c % 2 = 0 → 2 * 2 ^ k ∣ c * 2 ^ k := by
    intro c hc
    obtain ⟨c', rfl⟩ : ∃ c', c = 2 * c' := ⟨c / 2, by omega⟩
    exact ⟨c', by ring⟩
  unfold roundUp at hfits ⊢
  by_cases hup : d * 2 ^ k < 2 * r ∨ 2 * r = d * 2 ^ k ∧ q % 2 = 1
  · rw [if_pos hup] at hfits ⊢
    refine ⟨hfits, fun l hl => ?_, fun l hl hne hdist => ?_⟩
    · have h := hgap l hl
      unfold dist
      rw [hhigh]
      omega
    · have h := hgap l hl
      unfold dist at hdist
      rw [hhigh] at hdist
      have hother : l * d ≠ (q + 1) * 2 ^ k * d := fun he => hne (Nat.eq_of_mul_eq_mul_right hd he)
      rw [hhigh] at hother
      have hl' : l = q * 2 ^ k := Nat.eq_of_mul_eq_mul_right hd (by omega)
      rw [hl', hstep, dist_add_left, ← hstep]
      exact heven (q + 1) (by omega)
  · rw [if_neg hup] at hfits ⊢
    refine ⟨hfits, fun l hl => ?_, fun l hl hne hdist => ?_⟩
    · have h := hgap l hl
      unfold dist
      rw [hlow]
      omega
    · have h := hgap l hl
      unfold dist at hdist
      rw [hlow] at hdist
      have hother : l * d ≠ q * 2 ^ k * d := fun he => hne (Nat.eq_of_mul_eq_mul_right hd he)
      rw [hlow] at hother
      have hl' : l = (q + 1) * 2 ^ k := Nat.eq_of_mul_eq_mul_right hd (by omega)
      rw [hl', hstep, dist_comm, dist_add_left]
      exact heven q (by omega)

/-- There is one nearest number: of two, both would be even multiples of their distance. -/
theorem nearestQuot_iff (hp : 0 < p) (hd : 0 < d) {n m : ℕ} :
    NearestQuot p d n m ↔ m = roundQuot p d n := by
  have hround := nearestQuot_roundQuot hp hd n
  refine ⟨fun h => ?_, fun h => h ▸ hround⟩
  by_contra hne
  have hdist : dist n (m * d) = dist n (roundQuot p d n * d) :=
    le_antisymm (h.nearest _ hround.fits) (hround.nearest _ h.fits)
  obtain ⟨c, hc⟩ := h.even _ hround.fits (Ne.symm hne) hdist.symm
  obtain ⟨c', hc'⟩ := hround.even m h.fits hne hdist
  rw [dist_comm] at hc'
  have hspace : 0 < dist m (roundQuot p d n) := by
    unfold dist
    omega
  generalize hx : dist m (roundQuot p d n) = x at hc hc' hspace
  unfold dist at hx
  obtain hle | hlt := Nat.le_total c c'
  · have hdvd : m + 2 * x * (c' - c) = roundQuot p d n := by
      rw [hc, hc', ← Nat.mul_add, Nat.add_sub_of_le hle]
    have hle' := Nat.le_mul_of_pos_right (2 * x) (Nat.pos_of_ne_zero fun h0 => by
      rw [h0, Nat.mul_zero] at hdvd
      exact hne hdvd : 0 < c' - c)
    omega
  · have hdvd : roundQuot p d n + 2 * x * (c - c') = m := by
      rw [hc', hc, ← Nat.mul_add, Nat.add_sub_of_le hlt]
    have hle' := Nat.le_mul_of_pos_right (2 * x) (Nat.pos_of_ne_zero fun h0 => by
      rw [h0, Nat.mul_zero] at hdvd
      exact hne hdvd.symm : 0 < c - c')
    omega

theorem roundQuot_pow {c j t : ℕ} (h : j + t = c + k) (hr : r < 2 ^ j) (hq : q < 2 ^ p)
    (hk : k = 0 ∨ 2 ^ p ≤ 2 * q) :
    roundQuot p (2 ^ c) ((q * 2 ^ j + r) * 2 ^ t) = roundUp (2 ^ j) q r * 2 ^ k := by
  have hpow : 2 ^ c * 2 ^ k = 2 ^ j * 2 ^ t := by rw [← pow_add, ← pow_add, h]
  have hpos := Nat.two_pow_pos t
  have hlt : r * 2 ^ t < 2 ^ c * 2 ^ k := by
    rw [hpow]
    exact Nat.mul_lt_mul_of_pos_right hr hpos
  have hsplit : (q * 2 ^ j + r) * 2 ^ t = q * (2 ^ c * 2 ^ k) + r * 2 ^ t := by
    rw [hpow]
    ring
  rw [hsplit, roundQuot_of_split hlt hq hk, hpow, roundUp_mul _ _ _ hpos]

end Quotients

end NearestEven
