import Coursework.SoftFloat.Operands

/-! The cases in which the significand that `sfp_add` computes gives the nearest float to the exact
sum. -/
namespace SoftFloat
open NearestEven

/-- Two significands, the smaller one `d` places below the larger one, and the exponent of the
result. -/
structure Aligned (ret : Mysfp) (d place s₁ s₂ : ℕ) : Prop where
  place_eq : (ret.exp : ℕ) - 1 = d + place
  finite : ret.exp ≠ 127
  lt₁ : s₁ < 2 ^ 17
  lt₂ : s₂ < 2 ^ 17
  normal : ret.exp ≠ 0 → 2 ^ 16 ≤ s₁
  denormal : ret.exp = 0 → s₁ < 2 ^ 16 ∧ s₂ < 2 ^ 16
  order : d = 0 → s₂ ≤ s₁

section
variable {ret : Mysfp} {d place s₁ s₂ : ℕ}

theorem Aligned.normal_of_ne (h : Aligned ret d place s₁ s₂) (hd : d ≠ 0) : 2 ^ 16 ≤ s₁ := by
  refine h.normal fun h0 => ?_
  have hplace := h.place_eq
  rw [h0] at hplace
  change 0 - 1 = d + place at hplace
  omega

theorem Aligned.mul_pow (h : Aligned ret d place s₁ s₂) (m : ℕ) :
    m * 2 ^ ((ret.exp : ℕ) - 1) = m * 2 ^ d * 2 ^ place := by
  rw [h.place_eq, pow_add, mul_assoc]

theorem Aligned.exp_eq_zero (h : Aligned ret d place s₁ s₂) (h0 : ret.exp = 0) :
    d = 0 ∧ place = 0 := by
  have hplace := h.place_eq
  rw [h0] at hplace
  change 0 - 1 = d + place at hplace
  omega

theorem Aligned.le_limit (h : Aligned ret d place s₁ s₂) {m b e : ℕ} (he : (ret.exp : ℕ) ≤ e)
    (h1 : 1 ≤ e) (hb : b + e = 143) (hm : m ≤ 2 ^ b * 2 ^ d) : m * 2 ^ place ≤ limit := by
  refine le_trans (Nat.mul_le_mul_right _ hm) ?_
  rw [mul_assoc, ← pow_add, ← h.place_eq, ← pow_add]
  exact Nat.pow_le_pow_right (by decide) (by omega)

theorem roundEven_le_pow {m b k : ℕ} (h : m ≤ 2 ^ b * 2 ^ k) :
    roundEven 17 m ≤ 2 ^ b * 2 ^ k :=
  roundEven_le (by decide) ⟨1, b + k, by decide, by rw [one_mul, pow_add]⟩ h

theorem pow_le_roundEven {m b k : ℕ} (h : 2 ^ b * 2 ^ k ≤ m) :
    2 ^ b * 2 ^ k ≤ roundEven 17 m :=
  le_roundEven (by decide) ⟨1, b + k, by decide, by rw [one_mul, pow_add]⟩ h

theorem roundEven_of_le {g : ℕ} (h : g ≤ 2 ^ 17) : roundEven 17 g = g := by
  obtain h | h := Nat.lt_or_eq_of_le h
  · exact roundEven_small h
  · exact roundEven_of_fits (by decide) ⟨1, 17, by decide, by rw [one_mul, h]⟩

theorem near_zero (s₁ s₂ : ℕ) : Near 0 s₁ s₂ := by
  left
  rw [pow_zero]
  omega

theorem shiftRte_away (h18 : d < 18) : shiftRte d s₂ = s₂ / 2 ^ d + away d s₂ := shiftRte_eq h18

theorem Aligned.sum_lt (h : Aligned ret d place s₁ s₂) :
    s₁ + s₂ / 2 ^ d + away d s₂ < 2 ^ 18 - 1 := by
  have h1 := h.lt₁
  have h2 := h.lt₂
  by_cases h0 : d = 0
  · have haway : away d s₂ = 0 := by
      rw [h0]
      exact if_neg (not_roundsAway_zero _)
    rw [haway, h0, pow_zero, Nat.div_one]
    omega
  · have hhalf : s₂ / 2 ^ d ≤ s₂ / 2 :=
      Nat.div_le_div_left (Nat.le_self_pow h0 2) (by decide)
    obtain ⟨haway, -⟩ | ⟨haway, -⟩ := away_cases d s₂ <;> rw [haway] <;> omega

theorem Aligned.carry (h : Aligned ret d place s₁ s₂) (h17 : 2 ^ 17 ≤ s₁ + s₂ / 2 ^ d + away d s₂) :
    ret.exp ≠ 0 := by
  intro h0
  obtain ⟨rfl, -⟩ := h.exp_eq_zero h0
  have haway : away 0 s₂ = 0 := if_neg (not_roundsAway_zero s₂)
  have hlt := h.denormal h0
  rw [haway, pow_zero, Nat.div_one] at h17
  omega

theorem limit_gt : 2 ^ 17 < limit := by decide

/-- Equal signs, and no carry before the part shifted out is rounded. -/
theorem Aligned.add_near (h : Aligned ret d place s₁ s₂) (h18 : d < 18)
    (hlt : s₁ + s₂ / 2 ^ d < 2 ^ 17) :
    (renormalize ret (s₁ + shiftRte d s₂)).toSfp.value =
      ofMag ret.sign (roundEven 17 (s₁ * 2 ^ d + s₂) * 2 ^ place) ↔ Near d s₁ s₂ := by
  have hsum := h.sum_lt
  have hd : d = 0 ∨ 2 ^ 16 ≤ s₁ + s₂ / 2 ^ d := by
    by_cases h0 : d = 0
    · exact .inl h0
    · exact .inr (Nat.le_add_right_of_le (h.normal_of_ne h0))
  rw [shiftRte_away h18, ← Nat.add_assoc]
  by_cases h16 : 2 ^ 16 ≤ s₁ + s₂ / 2 ^ d + away d s₂
  · have hle : s₁ + s₂ / 2 ^ d + away d s₂ ≤ 2 ^ 17 := by
      obtain ⟨haway, -⟩ | ⟨haway, -⟩ := away_cases d s₂ <;> rw [haway] <;> omega
    have hexp := exp_lt h.finite
    have hexact : s₁ * 2 ^ d + s₂ ≤ 2 ^ 17 * 2 ^ d := by
      have hmod : s₂ % 2 ^ d < 2 ^ d := Nat.mod_lt _ (Nat.two_pow_pos d)
      have hmul := Nat.mul_le_mul_right (2 ^ d) hlt
      rw [Nat.succ_mul] at hmul
      rw [add_split]
      omega
    rw [renormalize_value h.finite h16 hsum h.carry, roundEven_of_le hle, h.mul_pow,
      ofMag_inj (h.le_limit (e := 126) (by omega) (by decide) rfl (Nat.mul_le_mul_right _ hle))
        (h.le_limit (e := 126) (by omega) (by decide) rfl (roundEven_le_pow hexact)),
      Nat.mul_left_inj (Nat.two_pow_pos place).ne', eq_comm, roundEven_add_near hlt hd]
  · -- two denormal floats
    have h0 : ret.exp = 0 := by
      by_contra h0
      exact h16 (Nat.le_add_right_of_le (Nat.le_add_right_of_le (h.normal h0)))
    obtain ⟨rfl, rfl⟩ := h.exp_eq_zero h0
    have hsig : s₁ + s₂ / 2 ^ 0 + away 0 s₂ = s₁ + s₂ := by
      rw [away, if_neg (not_roundsAway_zero s₂), pow_zero, Nat.div_one]
      rfl
    have hone : ∀ n, n * 2 ^ 0 = n := fun n => by rw [pow_zero, Nat.mul_one]
    rw [hsig] at h16 ⊢
    obtain ⟨m, hvalue, hm, -⟩ := renormalize_small h.finite (Nat.lt_of_not_le h16)
    rw [h.place_eq, hone] at hm
    rw [hvalue, hm (by omega), hone, hone, roundEven_small (by omega),
      ofMag_of_lt (lt_trans (by omega) limit_gt)]
    exact iff_of_true rfl (near_zero s₁ s₂)

/-- The same signs and a carry before the part shifted out is rounded. -/
theorem Aligned.add_carry (h : Aligned ret d place s₁ s₂) (h18 : d < 18)
    (hge : 2 ^ 17 ≤ s₁ + s₂ / 2 ^ d) :
    (renormalize ret (s₁ + shiftRte d s₂)).toSfp.value =
      ofMag ret.sign (roundEven 17 (s₁ * 2 ^ d + s₂) * 2 ^ place) ↔
        ret.exp = 126 ∨ Carry d s₁ s₂ := by
  have hsum := h.sum_lt
  have hge' : 2 ^ 17 ≤ s₁ + s₂ / 2 ^ d + away d s₂ := Nat.le_add_right_of_le hge
  have hcode : 2 ^ 17 ≤ roundEven 17 (s₁ + s₂ / 2 ^ d + away d s₂) :=
    le_roundEven (by decide) ⟨1, 17, by decide, by rw [one_mul]⟩ hge'
  have hexact : 2 ^ 17 * 2 ^ d ≤ roundEven 17 (s₁ * 2 ^ d + s₂) := by
    refine pow_le_roundEven ?_
    rw [add_split]
    exact Nat.le_add_right_of_le (Nat.mul_le_mul_right _ hge)
  rw [shiftRte_away h18, ← Nat.add_assoc, renormalize_value h.finite (by omega) hsum h.carry,
    h.mul_pow]
  by_cases hexp : ret.exp = 126
  · have hover : ∀ m, 2 ^ 17 * 2 ^ d ≤ m → limit ≤ m * 2 ^ place := by
      intro m hm
      have hplace := h.place_eq
      rw [hexp] at hplace
      change 125 = d + place at hplace
      calc limit = 2 ^ 17 * 2 ^ d * 2 ^ place := by
            rw [mul_assoc, ← pow_add, ← hplace, ← pow_add]
            rfl
        _ ≤ m * 2 ^ place := Nat.mul_le_mul_right _ hm
    rw [ofMag_of_le (hover _ (Nat.mul_le_mul_right _ hcode)), ofMag_of_le (hover _ hexact)]
    exact iff_of_true rfl (.inl hexp)
  · have hexp' : (ret.exp : ℕ) ≤ 125 := by
      have hlt := exp_lt h.finite
      have hne : (ret.exp : ℕ) ≠ 126 := fun he => hexp (Fin.ext he)
      omega
    have hcode' : roundEven 17 (s₁ + s₂ / 2 ^ d + away d s₂) ≤ 2 ^ 18 :=
      roundEven_le (by decide) ⟨1, 18, by decide, by rw [one_mul]⟩ (by omega)
    have hexact' : s₁ * 2 ^ d + s₂ ≤ 2 ^ 18 * 2 ^ d := by
      have hmod : s₂ % 2 ^ d < 2 ^ d := Nat.mod_lt _ (Nat.two_pow_pos d)
      have hlt : s₁ + s₂ / 2 ^ d < 2 ^ 18 :=
        lt_of_le_of_lt (Nat.le_add_right _ (away d s₂)) (by omega)
      have hmul := Nat.mul_le_mul_right (2 ^ d) hlt
      rw [Nat.succ_mul] at hmul
      rw [add_split]
      omega
    rw [ofMag_inj (h.le_limit hexp' (by decide) rfl (Nat.mul_le_mul_right _ hcode'))
        (h.le_limit hexp' (by decide) rfl (roundEven_le_pow hexact')),
      Nat.mul_left_inj (Nat.two_pow_pos place).ne', eq_comm, roundEven_add_carry hge (by omega),
      or_iff_right hexp]

theorem roundEven_add_far (h18 : 18 ≤ d) (h16 : 2 ^ 16 ≤ s₁) (h17 : s₁ < 2 ^ 17)
    (h2 : s₂ < 2 ^ 17) : roundEven 17 (s₁ * 2 ^ d + s₂) = s₁ * 2 ^ d := by
  have hpow : 2 ^ 18 ≤ 2 ^ d := Nat.pow_le_pow_right (by decide) h18
  rw [roundEven_of_split (by omega) h17 (.inr (by omega)), roundUp, if_neg (by omega)]

theorem Aligned.add_far (h : Aligned ret d place s₁ s₂) (h18 : 18 ≤ d) :
    (renormalize ret (s₁ + shiftRte d s₂)).toSfp.value =
      ofMag ret.sign (roundEven 17 (s₁ * 2 ^ d + s₂) * 2 ^ place) ↔ s₂ < 2 ^ 16 := by
  have h1 := h.lt₁
  have h2 := h.lt₂
  have h16 := h.normal_of_ne (by omega)
  have hexp := exp_lt h.finite
  have hle : s₁ + s₂ / 2 ^ 16 ≤ 2 ^ 17 := by omega
  have h0 : ret.exp ≠ 0 := by
    intro h0
    have := (h.exp_eq_zero h0).1
    omega
  rw [shiftRte_far h18, renormalize_value h.finite (by omega) (by omega) (fun _ => h0),
    roundEven_of_le hle, h.mul_pow, roundEven_add_far h18 h16 h1 h2,
    ofMag_inj (h.le_limit (e := 126) (by omega) (by decide) rfl (Nat.mul_le_mul_right _ hle))
      (h.le_limit (e := 126) (by omega) (by decide) rfl (Nat.mul_le_mul_right _ h1.le)),
    Nat.mul_left_inj (Nat.two_pow_pos place).ne', Nat.mul_left_inj (Nat.two_pow_pos d).ne']
  omega

theorem Aligned.shift_le (h : Aligned ret d place s₁ s₂) :
    s₂ / 2 ^ d + away d s₂ ≤ s₁ := by
  have h2 := h.lt₂
  by_cases h0 : d = 0
  · have haway : away d s₂ = 0 := by
      rw [h0]
      exact if_neg (not_roundsAway_zero _)
    have hle := h.order h0
    rw [haway, h0, pow_zero, Nat.div_one]
    omega
  · have h16 := h.normal_of_ne h0
    have hhalf : s₂ / 2 ^ d ≤ s₂ / 2 :=
      Nat.div_le_div_left (Nat.le_self_pow h0 2) (by decide)
    obtain ⟨haway, -⟩ | ⟨haway, -⟩ := away_cases d s₂ <;> rw [haway] <;> omega

theorem Aligned.le_mul (h : Aligned ret d place s₁ s₂) : s₂ ≤ s₁ * 2 ^ d := by
  have h2 := h.lt₂
  by_cases h0 : d = 0
  · rw [h0, pow_zero, Nat.mul_one]
    exact h.order h0
  · calc s₂ ≤ 2 ^ 16 * 2 := h2.le
      _ ≤ s₁ * 2 ^ d := Nat.mul_le_mul (h.normal_of_ne h0) (Nat.le_self_pow h0 2)

theorem Aligned.sub_eq (h : Aligned ret d place s₁ s₂) :
    s₁ * 2 ^ d - s₂ + s₂ % 2 ^ d =
      (s₁ - (s₂ / 2 ^ d + away d s₂)) * 2 ^ d + away d s₂ * 2 ^ d := by
  have hmul := h.le_mul
  have hmod := Nat.div_add_mod s₂ (2 ^ d)
  obtain ⟨n, hn⟩ := Nat.exists_eq_add_of_le h.shift_le
  rw [hn, add_mul, add_mul, Nat.mul_comm (s₂ / 2 ^ d)] at hmul
  rw [hn, Nat.add_sub_cancel_left, add_mul, add_mul, Nat.mul_comm (s₂ / 2 ^ d)]
  omega

/-- Opposite signs, and the exact difference has all bits of the larger operand. -/
theorem Aligned.sub_near (h : Aligned ret d place s₁ s₂) (h18 : d < 18)
    (hge : 2 ^ 16 * 2 ^ d ≤ s₁ * 2 ^ d - s₂) :
    (renormalize ret (s₁ - shiftRte d s₂)).toSfp.value =
      ofMag ret.sign (roundEven 17 (s₁ * 2 ^ d - s₂) * 2 ^ place) ↔ Near d s₁ s₂ := by
  have hsub := h.sub_eq
  have h1 := h.lt₁
  have hexp := exp_lt h.finite
  have hpos := Nat.two_pow_pos d
  have h16 : 2 ^ 16 ≤ s₁ - (s₂ / 2 ^ d + away d s₂) := by
    by_contra hlt
    have hmul := Nat.mul_le_mul_right (2 ^ d) (Nat.lt_of_not_le hlt)
    rw [Nat.succ_mul] at hmul
    obtain ⟨haway, hup, -⟩ | ⟨haway, -⟩ := away_cases d s₂
    · rw [haway, Nat.one_mul] at hsub
      rw [haway] at hmul
      omega
    · rw [haway, Nat.zero_mul] at hsub
      rw [haway] at hmul
      omega
  have hkept : s₂ / 2 ^ d ≤ s₁ := le_trans (Nat.le_add_right _ _) h.shift_le
  have hle : s₁ - (s₂ / 2 ^ d + away d s₂) < 2 ^ 17 := lt_of_le_of_lt (Nat.sub_le _ _) h1
  have hexact : s₁ * 2 ^ d - s₂ ≤ 2 ^ 17 * 2 ^ d :=
    le_trans (Nat.sub_le _ _) (Nat.mul_le_mul_right _ h1.le)
  rw [shiftRte_away h18, renormalize_value h.finite h16 (by omega) (fun h17 => by omega),
    roundEven_small hle, h.mul_pow,
    ofMag_inj (h.le_limit (e := 126) (by omega) (by decide) rfl (Nat.mul_le_mul_right _ hle.le))
      (h.le_limit (e := 126) (by omega) (by decide) rfl (roundEven_le_pow hexact)),
    Nat.mul_left_inj (Nat.two_pow_pos place).ne', eq_comm, ← Nat.sub_sub,
    roundEven_sub_near h1 hkept hge]

theorem away_mul_eq_iff : away d s₂ * 2 ^ d = s₂ % 2 ^ d ↔ s₂ % 2 ^ d = 0 := by
  have hpos := Nat.two_pow_pos d
  have hlt : s₂ % 2 ^ d < 2 ^ d := Nat.mod_lt _ hpos
  obtain ⟨haway, hup, -⟩ | ⟨haway, -⟩ := away_cases d s₂
  · rw [haway, one_mul]
    omega
  · rw [haway, Nat.zero_mul]
    omega

/-- The exact difference is at least half of the computed one. -/
theorem Aligned.half_le (h : Aligned ret d place s₁ s₂)
    (hlt : s₁ * 2 ^ d - s₂ < 2 ^ 16 * 2 ^ d) (hpos : 0 < s₁ - (s₂ / 2 ^ d + away d s₂)) :
    (s₁ - (s₂ / 2 ^ d + away d s₂)) * 2 ^ d ≤ 2 * roundEven 17 (s₁ * 2 ^ d - s₂) := by
  have hsub := h.sub_eq
  have hmod : s₂ % 2 ^ d < 2 ^ d := Nat.mod_lt _ (Nat.two_pow_pos d)
  by_cases h1 : d ≤ 1
  · have hpow : 2 ^ d ≤ 2 := Nat.pow_le_pow_right (by decide) h1
    have hsmall : s₁ * 2 ^ d - s₂ < 2 ^ 17 :=
      lt_of_lt_of_le hlt (Nat.mul_le_mul_left (2 ^ 16) hpow)
    have hge := Nat.mul_le_mul_right (2 ^ d) hpos
    rw [roundEven_small hsmall]
    omega
  · have h2 := h.lt₂
    have h16 := h.normal_of_ne (by omega)
    have hpow : 2 ^ 2 ≤ 2 ^ d := Nat.pow_le_pow_right (by decide) (by omega)
    have hquarter : s₂ / 2 ^ d ≤ s₂ / 2 ^ 2 := Nat.div_le_div_left hpow (by decide)
    obtain ⟨g, hg⟩ : ∃ g, s₁ - (s₂ / 2 ^ d + away d s₂) = g + 2 := by
      refine ⟨s₁ - (s₂ / 2 ^ d + away d s₂) - 2, ?_⟩
      obtain ⟨haway, -⟩ | ⟨haway, -⟩ := away_cases d s₂ <;> rw [haway] at * <;> omega
    have hglt : g + 1 < 2 ^ 17 := by
      have h1 := h.lt₁
      have hle := Nat.sub_le s₁ (s₂ / 2 ^ d + away d s₂)
      omega
    have hround : (g + 1) * 2 ^ d ≤ roundEven 17 (s₁ * 2 ^ d - s₂) := by
      refine le_roundEven (by decide) ⟨g + 1, d, hglt, rfl⟩ ?_
      rw [hg, add_mul] at hsub
      rw [add_mul, one_mul]
      omega
    rw [hg, add_mul]
    rw [add_mul, one_mul] at hround
    omega

/-- Opposite signs, and the exact difference has lost leading bits. -/
theorem Aligned.sub_below (h : Aligned ret d place s₁ s₂) (h18 : d < 18)
    (hlt : s₁ * 2 ^ d - s₂ < 2 ^ 16 * 2 ^ d) :
    (renormalize ret (s₁ - shiftRte d s₂)).toSfp.value =
      ofMag ret.sign (roundEven 17 (s₁ * 2 ^ d - s₂) * 2 ^ place) ↔
        s₁ - s₂ / 2 ^ d = 2 ^ 16 ∧ 4 * (s₂ % 2 ^ d) ≤ 2 ^ d ∨
          s₂ % 2 ^ d = 0 ∧ (s₁ * 2 ^ d - s₂) * 2 ^ place < 2 ^ 16 := by
  have hsub := h.sub_eq
  have hmod : s₂ % 2 ^ d < 2 ^ d := Nat.mod_lt _ (Nat.two_pow_pos d)
  have hkept : s₁ - s₂ / 2 ^ d = s₁ - (s₂ / 2 ^ d + away d s₂) + away d s₂ := by
    have hle := h.shift_le
    omega
  have hexp := exp_lt h.finite
  have hexact : roundEven 17 (s₁ * 2 ^ d - s₂) * 2 ^ place ≤ limit :=
    h.le_limit (e := 126) (by omega) (by decide) rfl
      (roundEven_le_pow (le_trans hlt.le (Nat.mul_le_mul_right _ (by decide))))
  have hhalf := h.half_le hlt
  have hgt : s₁ - (s₂ / 2 ^ d + away d s₂) < 2 ^ 17 := lt_of_le_of_lt (Nat.sub_le _ _) h.lt₁
  rw [shiftRte_away h18, hkept]
  generalize s₁ - (s₂ / 2 ^ d + away d s₂) = g at *
  by_cases h16 : 2 ^ 16 ≤ g
  · -- the difference is just below a power of two
    have htop : g = 2 ^ 16 := by
      by_contra hne
      have hmul := Nat.mul_le_mul_right (2 ^ d) (show 2 ^ 16 + 1 ≤ g by omega)
      rw [Nat.succ_mul] at hmul
      omega
    subst htop
    have haway : away d s₂ = 0 := by
      obtain ⟨haway, -⟩ | ⟨haway, -⟩ := away_cases d s₂
      · rw [haway, one_mul] at hsub
        omega
      · exact haway
    rw [haway, Nat.zero_mul, Nat.add_zero] at hsub
    have hrest : s₁ * 2 ^ d - s₂ = 2 ^ 16 * 2 ^ d - s₂ % 2 ^ d := by omega
    have hpos : 0 < s₂ % 2 ^ d := by omega
    rw [renormalize_value h.finite h16 (by decide) (fun h17 => absurd h17 (by decide)),
      roundEven_small hgt, h.mul_pow,
      ofMag_inj (h.le_limit (e := 126) (by omega) (by decide) rfl
        (Nat.mul_le_mul_right _ hgt.le)) hexact,
      Nat.mul_left_inj (Nat.two_pow_pos place).ne', eq_comm, hrest, roundEven_sub_below hpos hmod,
      haway]
    constructor
    · exact fun h4 => .inl ⟨rfl, h4⟩
    · rintro (⟨-, h4⟩ | ⟨h0, -⟩)
      · exact h4
      · omega
  · have hlimit : g * 2 ^ ((ret.exp : ℕ) - 1) < limit := lt_limit hgt hexp
    have hcond : (g + away d s₂ = 2 ^ 16 ∧ 4 * (s₂ % 2 ^ d) ≤ 2 ^ d ∨ s₂ % 2 ^ d = 0 ∧
        (s₁ * 2 ^ d - s₂) * 2 ^ place < 2 ^ 16) ↔
          s₂ % 2 ^ d = 0 ∧ (s₁ * 2 ^ d - s₂) * 2 ^ place < 2 ^ 16 := by
      refine or_iff_right ?_
      rintro ⟨htop, h4⟩
      obtain ⟨haway, hup, -⟩ | ⟨haway, -⟩ := away_cases d s₂ <;> rw [haway] at htop <;> omega
    have hzero : s₂ % 2 ^ d = 0 → s₁ * 2 ^ d - s₂ = g * 2 ^ d := by
      intro h0
      rw [away_mul_eq_iff.2 h0] at hsub
      omega
    obtain ⟨m, hvalue, hsmall, hbig⟩ := renormalize_small h.finite (Nat.lt_of_not_le h16)
    rw [hcond, hvalue]
    rw [h.mul_pow] at hsmall hbig hlimit
    by_cases hden : g * 2 ^ d * 2 ^ place < 2 ^ 16
    · have hg : g * 2 ^ d ≤ g * 2 ^ d * 2 ^ place :=
        Nat.le_mul_of_pos_right _ (Nat.two_pow_pos place)
      have hpow : 2 ^ d ≤ 2 ^ 17 := Nat.pow_le_pow_right (by decide) (by omega)
      have hfits : s₁ * 2 ^ d - s₂ < 2 ^ 17 := by
        obtain ⟨haway, hup, -⟩ | ⟨haway, -⟩ := away_cases d s₂ <;> rw [haway] at hsub <;> omega
      rw [hsmall hden, ← ofMag_of_lt hlimit, ofMag_inj hlimit.le hexact,
        Nat.mul_left_inj (Nat.two_pow_pos place).ne', roundEven_small hfits]
      constructor
      · intro heq
        have h0 := away_mul_eq_iff.1 (show away d s₂ * 2 ^ d = s₂ % 2 ^ d by omega)
        exact ⟨h0, by rw [← heq]; exact hden⟩
      · exact fun h0 => (hzero h0.1).symm
    · have hbig' := hbig (Nat.le_of_not_lt hden)
      have hne : g ≠ 0 := by
        rintro rfl
        rw [Nat.zero_mul, Nat.zero_mul] at hden
        exact hden (by decide)
      have hround := Nat.mul_le_mul_right (2 ^ place) (hhalf (Nat.pos_of_ne_zero hne))
      rw [mul_assoc 2] at hround
      rw [← ofMag_of_lt (show m < limit by omega), ofMag_inj (by omega) hexact]
      refine iff_of_false (by omega) ?_
      rintro ⟨h0, hlt'⟩
      rw [hzero h0] at hlt'
      exact hden hlt'

theorem roundEven_sub_far (h18 : 18 ≤ d) (h17 : s₁ < 2 ^ 17) (h2 : s₂ < 2 ^ 17)
    (hge : 2 ^ 16 * 2 ^ d ≤ s₁ * 2 ^ d - s₂) :
    roundEven 17 (s₁ * 2 ^ d - s₂) = s₁ * 2 ^ d := by
  have hpow : 2 ^ 18 ≤ 2 ^ d := Nat.pow_le_pow_right (by decide) h18
  have hdiv : s₂ / 2 ^ d = 0 := Nat.div_eq_of_lt (by omega)
  have hmod : s₂ % 2 ^ d = s₂ := Nat.mod_eq_of_lt (by omega)
  have haway : away d s₂ = 0 := by
    obtain ⟨-, hup, -⟩ | ⟨haway, -⟩ := away_cases d s₂
    · rw [hmod] at hup
      omega
    · exact haway
  have hnear := @roundEven_sub_near d s₁ s₂ h17 (by omega) hge
  rw [hdiv, haway, Nat.sub_zero, Nat.sub_zero] at hnear
  exact hnear.2 (.inl (by rw [hmod]; omega))

/-- Opposite signs, far apart. -/
theorem Aligned.sub_far (h : Aligned ret d place s₁ s₂) (h18 : 18 ≤ d) (hpos : 0 < s₂) :
    (renormalize ret (s₁ - shiftRte d s₂)).toSfp.value =
      ofMag ret.sign (roundEven 17 (s₁ * 2 ^ d - s₂) * 2 ^ place) ↔ s₂ < 2 ^ 16 := by
  have h1 := h.lt₁
  have h2 := h.lt₂
  have hexp := exp_lt h.finite
  have h16 := h.normal_of_ne (by omega)
  have hpow : 2 ^ 18 ≤ 2 ^ d := Nat.pow_le_pow_right (by decide) h18
  have hmul := Nat.mul_le_mul_right (2 ^ d) h16
  have hexact : roundEven 17 (s₁ * 2 ^ d - s₂) * 2 ^ place ≤ limit :=
    h.le_limit (e := 126) (by omega) (by decide) rfl
      (roundEven_le_pow (le_trans (Nat.sub_le _ _) (Nat.mul_le_mul_right _ h1.le)))
  have htop : ¬ 2 ^ 16 * 2 ^ d ≤ s₁ * 2 ^ d - s₂ → s₁ = 2 ^ 16 := by
    intro hlt
    by_contra hne
    have hmul' := Nat.mul_le_mul_right (2 ^ d) (show 2 ^ 16 + 1 ≤ s₁ by omega)
    rw [Nat.succ_mul] at hmul'
    omega
  rw [shiftRte_far h18]
  by_cases hlow : s₂ < 2 ^ 16
  · have hround : roundEven 17 (s₁ * 2 ^ d - s₂) = s₁ * 2 ^ d := by
      by_cases hge : 2 ^ 16 * 2 ^ d ≤ s₁ * 2 ^ d - s₂
      · exact roundEven_sub_far h18 h1 h2 hge
      · rw [htop hge]
        exact (roundEven_sub_below hpos (by omega)).2 (by omega)
    rw [Nat.div_eq_of_lt hlow, Nat.sub_zero,
      renormalize_value h.finite h16 (by omega) (fun h17 => by omega), roundEven_small h1,
      h.mul_pow, hround]
    exact iff_of_true rfl hlow
  · have hone : s₂ / 2 ^ 16 = 1 := by omega
    rw [hone]
    refine iff_of_false ?_ hlow
    by_cases hge : 2 ^ 16 * 2 ^ d ≤ s₁ * 2 ^ d - s₂
    · have hgt : 2 ^ 16 ≤ s₁ - 1 := by
        by_contra hlt
        have hmul' := Nat.mul_le_mul_right (2 ^ d) (show s₁ ≤ 2 ^ 16 by omega)
        omega
      rw [renormalize_value h.finite hgt (by omega) (fun h17 => by omega),
        roundEven_small (by omega), h.mul_pow,
        ofMag_inj (h.le_limit (e := 126) (by omega) (by decide) rfl
          (Nat.mul_le_mul_right _ (show s₁ - 1 ≤ 2 ^ 17 by omega))) hexact,
        Nat.mul_left_inj (Nat.two_pow_pos place).ne', roundEven_sub_far h18 h1 h2 hge,
        Nat.mul_left_inj (Nat.two_pow_pos d).ne']
      omega
    · have hs := htop hge
      obtain ⟨m, hvalue, -, hbig⟩ := @renormalize_small ret (s₁ - 1) h.finite (by omega)
      rw [h.mul_pow] at hbig
      have hU := Nat.two_pow_pos place
      have hfar : 2 ^ 16 ≤ (s₁ - 1) * 2 ^ d * 2 ^ place := by
        calc 2 ^ 16 ≤ 1 * 2 ^ d * 1 := by omega
          _ ≤ (s₁ - 1) * 2 ^ d * 2 ^ place :=
            Nat.mul_le_mul (Nat.mul_le_mul_right _ (by omega)) hU
      have hbig' := hbig hfar
      have hround : (s₁ - 1) * 2 ^ d ≤ roundEven 17 (s₁ * 2 ^ d - s₂) := by
        refine le_roundEven (by decide) ⟨s₁ - 1, d, by omega, rfl⟩ ?_
        rw [hs, Nat.sub_mul]
        omega
      have hmono := Nat.mul_le_mul_right (2 ^ place) hround
      have hlimit : m < limit := by omega
      rw [hvalue, ← ofMag_of_lt hlimit, ofMag_inj hlimit.le hexact]
      omega

end

end SoftFloat
