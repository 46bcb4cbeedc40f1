import Coursework.SoftFloat.Shift

/-! The exact sum of two aligned significands, rounded once, against the sum of the larger one and
the rounded smaller one. -/
namespace SoftFloat
open NearestEven

/-- What is counted for the part that is shifted out. -/
def away (d s : ℕ) : ℕ := if RoundsAway d s then 1 else 0

/-- The larger significand is rounded together with the part shifted out as that part alone. -/
def Near (d s₁ s₂ : ℕ) : Prop :=
  2 * (s₂ % 2 ^ d) < 2 ^ d ∨ (2 * (s₂ % 2 ^ d) = 2 ^ d ∧ s₁ % 2 = 0) ∨
    (2 ^ d < 2 * (s₂ % 2 ^ d) ∧ RoundsAway d s₂)

/-- The second rounding of a carry does what one rounding does. -/
def Carry (d s₁ s₂ : ℕ) : Prop :=
  ((s₁ + s₂ / 2 ^ d) % 4 = 2 → ¬ RoundsAway d s₂) ∧
    ((s₁ + s₂ / 2 ^ d) % 4 = 1 → s₂ % 2 ^ d = 0 ∨ RoundsAway d s₂)

section
variable {d s₁ s₂ : ℕ}

theorem away_cases (d s : ℕ) :
    away d s = 1 ∧ RoundsAway d s ∨ away d s = 0 ∧ ¬ RoundsAway d s := by
  unfold away
  by_cases h : RoundsAway d s
  · exact .inl ⟨if_pos h, h⟩
  · exact .inr ⟨if_neg h, h⟩

theorem RoundsAway.pos (h : RoundsAway d s₂) : 0 < s₂ % 2 ^ d := by
  have hpos := Nat.two_pow_pos d
  have hhalf := h.1
  omega

theorem near_iff {n : ℕ} (hn : n % 2 = (s₁ + s₂ / 2 ^ d) % 2) : Near d s₁ s₂ ↔
    (RoundsAway d s₂ ↔ 2 ^ d < 2 * (s₂ % 2 ^ d) ∨ 2 * (s₂ % 2 ^ d) = 2 ^ d ∧ n % 2 = 1) := by
  unfold Near RoundsAway
  omega

theorem add_split (d s₁ s₂ : ℕ) :
    s₁ * 2 ^ d + s₂ = (s₁ + s₂ / 2 ^ d) * 2 ^ d + s₂ % 2 ^ d := by
  have h := Nat.div_add_mod s₂ (2 ^ d)
  rw [add_mul, Nat.mul_comm (s₂ / 2 ^ d)]
  omega

theorem roundEven_add_near (hlt : s₁ + s₂ / 2 ^ d < 2 ^ 17)
    (hd : d = 0 ∨ 2 ^ 16 ≤ s₁ + s₂ / 2 ^ d) :
    roundEven 17 (s₁ * 2 ^ d + s₂) = (s₁ + s₂ / 2 ^ d + away d s₂) * 2 ^ d ↔ Near d s₁ s₂ := by
  have hpos := Nat.two_pow_pos d
  have hr : s₂ % 2 ^ d < 2 ^ d := Nat.mod_lt _ hpos
  rw [add_split, roundEven_of_split hr hlt (hd.imp_right (by omega)), Nat.mul_left_inj hpos.ne',
    near_iff rfl]
  exact roundUp_eq_iff

theorem roundEven_add_carry (hge : 2 ^ 17 ≤ s₁ + s₂ / 2 ^ d)
    (hlt : s₁ + s₂ / 2 ^ d + away d s₂ < 2 ^ 18) :
    roundEven 17 (s₁ * 2 ^ d + s₂) = roundEven 17 (s₁ + s₂ / 2 ^ d + away d s₂) * 2 ^ d ↔
      Carry d s₁ s₂ := by
  have hpos := Nat.two_pow_pos d
  have hr : s₂ % 2 ^ d < 2 ^ d := Nat.mod_lt _ hpos
  have hpow : 2 ^ (d + 1) = 2 * 2 ^ d := by rw [pow_succ, Nat.mul_comm]
  have hbit : (s₁ + s₂ / 2 ^ d) % 2 = 0 ∨ (s₁ + s₂ / 2 ^ d) % 2 = 1 := by omega
  have hr' : (s₁ + s₂ / 2 ^ d) % 2 * 2 ^ d + s₂ % 2 ^ d < 2 ^ (d + 1) := by
    obtain h | h := hbit <;> rw [h, hpow] <;> omega
  have hsplit : s₁ * 2 ^ d + s₂ = (s₁ + s₂ / 2 ^ d) / 2 * 2 ^ (d + 1) +
      ((s₁ + s₂ / 2 ^ d) % 2 * 2 ^ d + s₂ % 2 ^ d) := by
    have h := Nat.div_add_mod (s₁ + s₂ / 2 ^ d) 2
    rw [add_split, hpow]
    conv_lhs => rw [← h]
    ring
  have hcode : roundEven 17 (s₁ + s₂ / 2 ^ d + away d s₂) * 2 ^ d =
      ((s₁ + s₂ / 2 ^ d + away d s₂) / 2 +
        if (s₁ + s₂ / 2 ^ d + away d s₂) % 4 = 3 then 1 else 0) * 2 ^ (d + 1) := by
    rw [roundEven_carry (by omega) hlt, mul_assoc, hpow]
  rw [hcode, hsplit, roundEven_of_split hr' (by omega) (.inr (by omega)),
    Nat.mul_left_inj (Nat.two_pow_pos _).ne', hpow]
  clear hcode hsplit hr' hpow hbit
  obtain ⟨n, hn⟩ : ∃ n, n = s₁ + s₂ / 2 ^ d := ⟨_, rfl⟩
  rw [← hn] at hge hlt ⊢
  -- the last bit of the sum goes into the rest
  have hcases : n % 4 = 0 ∨ n % 4 = 1 ∨ n % 4 = 2 ∨ n % 4 = 3 := by omega
  obtain h4 | h4 | h4 | h4 := hcases
  · have hcarry : Carry d s₁ s₂ := ⟨fun h => by omega, fun h => by omega⟩
    refine iff_of_true ?_ hcarry
    rw [show n % 2 = 0 by omega, Nat.zero_mul, roundUp, if_neg (by omega)]
    obtain ⟨h, -⟩ | ⟨h, -⟩ := away_cases d s₂ <;> rw [h, if_neg (by omega)] <;> omega
  · rw [show n % 2 = 1 by omega, Nat.one_mul]
    obtain ⟨h, haway⟩ | ⟨h, haway⟩ := away_cases d s₂
    · have hrest := haway.pos
      rw [h, if_neg (by omega), roundUp, if_pos (by omega)]
      exact iff_of_true (by omega) ⟨fun h => by omega, fun _ => .inr haway⟩
    · rw [h, if_neg (by omega), roundUp]
      by_cases h0 : s₂ % 2 ^ d = 0
      · rw [if_neg (by omega)]
        exact iff_of_true (by omega) ⟨fun h => by omega, fun _ => .inl h0⟩
      · rw [if_pos (by omega)]
        exact iff_of_false (by omega) fun hcarry => (hcarry.2 (by omega)).elim h0 haway
  · rw [show n % 2 = 0 by omega, Nat.zero_mul, roundUp, if_neg (by omega)]
    obtain ⟨h, haway⟩ | ⟨h, haway⟩ := away_cases d s₂
    · rw [h, if_pos (by omega)]
      exact iff_of_false (by omega) fun hcarry => hcarry.1 (by omega) haway
    · rw [h, if_neg (by omega)]
      exact iff_of_true (by omega) ⟨fun _ => haway, fun h => by omega⟩
  · have hcarry : Carry d s₁ s₂ := ⟨fun h => by omega, fun h => by omega⟩
    refine iff_of_true ?_ hcarry
    rw [show n % 2 = 1 by omega, Nat.one_mul, roundUp, if_pos (by omega)]
    obtain ⟨h, -⟩ | ⟨h, -⟩ := away_cases d s₂
    · rw [h, if_neg (by omega)]
      omega
    · rw [h, if_pos (by omega)]
      rfl

theorem sub_split (h : s₂ / 2 ^ d ≤ s₁) :
    s₁ * 2 ^ d - s₂ = (s₁ - s₂ / 2 ^ d) * 2 ^ d - s₂ % 2 ^ d := by
  have hmod := Nat.div_add_mod s₂ (2 ^ d)
  obtain ⟨n, rfl⟩ := Nat.exists_eq_add_of_le h
  rw [Nat.add_sub_cancel_left, add_mul, Nat.mul_comm (s₂ / 2 ^ d)]
  omega

theorem roundEven_sub_near (hlt : s₁ < 2 ^ 17) (hle : s₂ / 2 ^ d ≤ s₁)
    (hge : 2 ^ 16 * 2 ^ d ≤ s₁ * 2 ^ d - s₂) :
    roundEven 17 (s₁ * 2 ^ d - s₂) = (s₁ - s₂ / 2 ^ d - away d s₂) * 2 ^ d ↔ Near d s₁ s₂ := by
  have hpos := Nat.two_pow_pos d
  have hr : s₂ % 2 ^ d < 2 ^ d := Nat.mod_lt _ hpos
  rw [sub_split hle] at hge ⊢
  obtain ⟨n, hn⟩ : ∃ n, s₁ = n + s₂ / 2 ^ d := ⟨s₁ - s₂ / 2 ^ d, by omega⟩
  have hkept : s₁ - s₂ / 2 ^ d = n := by omega
  have hn17 : n < 2 ^ 17 := lt_of_le_of_lt (hn ▸ Nat.le_add_right _ _) hlt
  rw [hkept] at hge ⊢
  by_cases h0 : s₂ % 2 ^ d = 0
  · have hn16 : 2 ^ 16 ≤ n := by
      rw [h0, Nat.sub_zero] at hge
      exact Nat.le_of_mul_le_mul_right hge hpos
    have hsplit : n * 2 ^ d - s₂ % 2 ^ d = n * 2 ^ d + 0 := by omega
    rw [hsplit, roundEven_of_split hpos (by omega) (.inr (by omega)), Nat.mul_left_inj hpos.ne']
    have haway : away d s₂ = 0 := if_neg fun h => h.pos.ne' h0
    rw [haway, roundUp, if_neg (by omega)]
    exact iff_of_true rfl (.inl (by omega))
  · have hn16 : 2 ^ 16 < n := by
      by_contra hge'
      have hmul := Nat.mul_le_mul_right (2 ^ d) (Nat.le_of_not_lt hge')
      omega
    have hsplit : n * 2 ^ d - s₂ % 2 ^ d = (n - 1) * 2 ^ d + (2 ^ d - s₂ % 2 ^ d) := by
      obtain ⟨n', rfl⟩ : ∃ n', n = n' + 1 := ⟨n - 1, by omega⟩
      rw [Nat.add_sub_cancel, add_mul, one_mul]
      omega
    rw [hsplit, roundEven_of_split (by omega) (by omega) (.inr (by omega)),
      Nat.mul_left_inj hpos.ne']
    have haway : n - away d s₂ = n - 1 + if ¬ RoundsAway d s₂ then 1 else 0 := by
      unfold away
      split <;> omega
    have hcond : (2 ^ d < 2 * (2 ^ d - s₂ % 2 ^ d) ∨
        2 * (2 ^ d - s₂ % 2 ^ d) = 2 ^ d ∧ (n - 1) % 2 = 1) ↔
          ¬ (2 ^ d < 2 * (s₂ % 2 ^ d) ∨ 2 * (s₂ % 2 ^ d) = 2 ^ d ∧ n % 2 = 1) := by omega
    rw [haway, roundUp_eq_iff, near_iff (n := n) (by omega), hcond, not_iff_not]

/-- Just below a power of two there is one more place. -/
theorem roundEven_sub_below {f : ℕ} (h0 : 0 < f) (hf : f < 2 ^ d) :
    roundEven 17 (2 ^ 16 * 2 ^ d - f) = 2 ^ 16 * 2 ^ d ↔ 4 * f ≤ 2 ^ d := by
  obtain ⟨k, rfl⟩ : ∃ k, d = k + 1 := by
    refine ⟨d - 1, ?_⟩
    by_contra hd
    have hd0 : d = 0 := by omega
    rw [hd0, pow_zero] at hf
    omega
  have hpos := Nat.two_pow_pos k
  have hpow : 2 ^ (k + 1) = 2 * 2 ^ k := by rw [pow_succ, Nat.mul_comm]
  have htop : 2 ^ 16 * (2 * 2 ^ k) = 2 ^ 17 * 2 ^ k := by rw [← mul_assoc, ← pow_succ]
  rw [hpow] at hf ⊢
  rw [htop]
  by_cases hhalf : f ≤ 2 ^ k
  · have hsplit : 2 ^ 17 * 2 ^ k - f = (2 ^ 17 - 1) * 2 ^ k + (2 ^ k - f) := by omega
    rw [hsplit, roundEven_of_split (by omega) (by omega) (.inr (by omega)),
      Nat.mul_left_inj hpos.ne', roundUp]
    split <;> omega
  · have hsplit : 2 ^ 17 * 2 ^ k - f = (2 ^ 17 - 2) * 2 ^ k + (2 * 2 ^ k - f) := by omega
    rw [hsplit, roundEven_of_split (by omega) (by omega) (.inr (by omega)),
      Nat.mul_left_inj hpos.ne', roundUp]
    split <;> omega

end

end SoftFloat
