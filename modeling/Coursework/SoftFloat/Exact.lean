import Coursework.SoftFloat.Addition

/-! The operands for which `sfp_add` gives the exact sum rounded to nearest even, in both orders. -/
namespace SoftFloat
open NearestEven

/-- Operands of one sign, the larger one first: what is shifted out of the smaller one is rounded
away from it only where this is right for the sum, too. -/
def AddExact (x y : Sfp) : Prop :=
  if 18 ≤ x.place - y.place then y.exp = 0
  else if x.signif + y.signif / 2 ^ (x.place - y.place) < 2 ^ 17 then
    Near (x.place - y.place) x.signif y.signif
  else x.exp = 126 ∨ Carry (x.place - y.place) x.signif y.signif

/-- Operands of opposite signs, the larger one first: the difference keeps its leading bit, or it
is a denormal float. -/
def SubExact (x y : Sfp) : Prop :=
  if 18 ≤ x.place - y.place then y.exp = 0
  else if 2 ^ 16 * 2 ^ (x.place - y.place) ≤
      x.signif * 2 ^ (x.place - y.place) - y.signif then
    Near (x.place - y.place) x.signif y.signif
  else
    x.signif - y.signif / 2 ^ (x.place - y.place) = 2 ^ 16 ∧
        4 * (y.signif % 2 ^ (x.place - y.place)) ≤ 2 ^ (x.place - y.place) ∨
      y.signif % 2 ^ (x.place - y.place) = 0 ∧ x.magnitude - y.magnitude < 2 ^ 16

def SumExact (x y : Sfp) : Prop := if x.sign = y.sign then AddExact x y else SubExact x y

def Sfp.IsNan (x : Sfp) : Prop := x.exp = 127 ∧ x.frac ≠ 0

def Sfp.IsInf (x : Sfp) : Prop := x.exp = 127 ∧ x.frac = 0

def Sfp.IsZero (x : Sfp) : Prop := x.exp = 0 ∧ x.frac = 0

/-- The operands whose sum is right. -/
def Exact (a b : Sfp) : Prop :=
  (a.IsNan → ¬ b.IsInf) ∧ (a.IsInf → ¬ b.IsNan) ∧
    (a.exp ≠ 127 → b.exp ≠ 127 → ¬ a.IsZero → ¬ b.IsZero → SumExact (larger a b) (smaller a b))

section Values
variable {x : Sfp}

theorem Sfp.kinds (x : Sfp) : x.IsNan ∨ x.IsInf ∨ x.exp ≠ 127 := by
  by_cases h : x.exp = 127
  · by_cases h0 : x.frac = 0
    · exact .inr (.inl ⟨h, h0⟩)
    · exact .inl ⟨h, h0⟩
  · exact .inr (.inr h)

theorem Sfp.IsNan.value (h : x.IsNan) : x.value = .nan := by
  rw [Sfp.value, if_pos h.1, if_neg h.2]

theorem Sfp.IsInf.value (h : x.IsInf) : x.value = .inf (decide (x.sign = 1)) := by
  rw [Sfp.value, if_pos h.1, if_pos h.2]

theorem Sfp.value_finite (h : x.exp ≠ 127) : x.value = .fin (signed x.sign x.magnitude) :=
  if_neg h

theorem Sfp.isZero_iff : x.IsZero ↔ x.signif = 0 := by
  unfold Sfp.IsZero Sfp.signif
  by_cases h : x.exp = 0
  · rw [if_pos h, and_iff_right h, Fin.ext_iff]
    rfl
  · rw [if_neg h]
    exact iff_of_false (fun h' => h h'.1) (by omega)

theorem Sfp.exp_eq_zero_iff : x.exp = 0 ↔ x.signif < 2 ^ 16 := by
  refine ⟨Sfp.signif_denormal, fun h => ?_⟩
  by_contra h0
  exact absurd (Sfp.signif_normal h0) (Nat.not_le.2 h)

theorem Sfp.rounds_value (h : x.exp ≠ 127) : Rounds (signed x.sign x.magnitude) x.value := by
  have hlimit : x.magnitude < limit := lt_limit x.signif_lt (exp_lt h)
  have hfits : Fits 17 x.magnitude := ⟨x.signif, x.place, x.signif_lt, rfl⟩
  rw [rounds_signed, roundEven_of_fits (by decide) hfits, ofMag_of_lt hlimit, value_finite h]

theorem Sfp.IsZero.signed_magnitude (h : x.IsZero) : signed x.sign x.magnitude = 0 := by
  have h0 : x.magnitude = 0 := by
    rw [Sfp.magnitude, Sfp.isZero_iff.1 h, Nat.zero_mul]
  rw [h0]
  unfold signed
  split <;> rfl

end Values

section IsSum
variable {u v r r' : Value}

theorem isSum_fin {m n : ℤ} : IsSum (.fin m) (.fin n) r ↔ Rounds (m + n) r := by
  refine ⟨fun h => ?_, .fin_fin m n r⟩
  cases h with
  | fin_fin _ _ _ h => exact h

theorem IsSum.comm (h : IsSum u v r) : IsSum v u r := by
  cases h with
  | nan_left => exact .nan_right v
  | nan_right => exact .nan_left u
  | inf_opposite s =>
    have h := IsSum.inf_opposite (!s)
    rwa [Bool.not_not] at h
  | inf_inf s => exact .inf_inf s
  | inf_fin s m => exact .fin_inf m s
  | fin_inf m s => exact .inf_fin s m
  | fin_fin m n _ h => exact .fin_fin n m r (by rwa [add_comm])

theorem Rounds.unique {z : ℤ} (h : Rounds z r) (h' : Rounds z r') : r = r' := by
  obtain ⟨s, hs⟩ : ∃ s, z = signed s z.natAbs := by
    by_cases hz : 0 ≤ z
    · exact ⟨0, (Int.natAbs_of_nonneg hz).symm⟩
    · refine ⟨1, ?_⟩
      change z = -(z.natAbs : ℤ)
      omega
  rw [hs, rounds_signed] at h h'
  rw [h, h']

theorem IsSum.unique (h : IsSum u v r) (h' : IsSum u v r') : r = r' := by
  cases h with
  | nan_left => cases h' <;> rfl
  | nan_right => cases h' <;> rfl
  | inf_opposite s => cases s <;> cases h' <;> rfl
  | inf_inf s => cases s <;> cases h' <;> rfl
  | inf_fin s m => cases h'; rfl
  | fin_inf m s => cases h'; rfl
  | fin_fin m n _ h => exact h.unique (isSum_fin.1 h')

end IsSum

section Finite
variable {x y : Sfp}

theorem Ordered.aligned (h : Ordered x y) (hx : x.exp ≠ 127) (ret : Mysfp) :
    Aligned { ret with sign := x.sign, exp := x.exp } (x.place - y.place) y.place
      x.signif y.signif where
  place_eq := (Nat.sub_add_cancel h.place_le).symm
  finite := hx
  lt₁ := x.signif_lt
  lt₂ := y.signif_lt
  normal h0 := Sfp.signif_normal (x := x) h0
  denormal h0 := ⟨Sfp.signif_denormal (x := x) h0, Sfp.signif_denormal (h.denormal h0)⟩
  order h0 := h.signif_le (le_antisymm (Nat.sub_eq_zero_iff_le.1 h0) h.place_le)

theorem Ordered.magnitude_eq (h : Ordered x y) :
    x.magnitude = x.signif * 2 ^ (x.place - y.place) * 2 ^ y.place := by
  rw [Sfp.magnitude, mul_assoc, ← pow_add, Nat.sub_add_cancel h.place_le]

/-- The sum of two finite floats, the larger one first, before it is rounded. -/
theorem Ordered.isSum_iff (h : Ordered x y) (hx : x.exp ≠ 127) (hy : y.exp ≠ 127) {r : Value} :
    IsSum x.value y.value r ↔ r = ofMag x.sign (roundEven 17
      (if x.sign = y.sign then x.signif * 2 ^ (x.place - y.place) + y.signif
        else x.signif * 2 ^ (x.place - y.place) - y.signif) * 2 ^ y.place) := by
  have hle := (h.aligned hx x.word).le_mul
  rw [Sfp.value_finite hx, Sfp.value_finite hy, isSum_fin, ← roundEven_mul_pow (by decide),
    ← rounds_signed, h.magnitude_eq, Sfp.magnitude]
  have hsum : signed x.sign (x.signif * 2 ^ (x.place - y.place) * 2 ^ y.place) +
      signed y.sign (y.signif * 2 ^ y.place) = signed x.sign
        ((if x.sign = y.sign then x.signif * 2 ^ (x.place - y.place) + y.signif
          else x.signif * 2 ^ (x.place - y.place) - y.signif) * 2 ^ y.place) := by
    by_cases hsign : x.sign = y.sign
    · rw [if_pos hsign, ← hsign, add_mul]
      unfold signed
      split <;> push_cast <;> ring
    · have hmul := Nat.mul_le_mul_right (2 ^ y.place) hle
      rw [if_neg hsign, Nat.sub_mul]
      unfold signed
      obtain hx0 | hx1 := sign_cases x.sign <;> obtain hy0 | hy1 := sign_cases y.sign
      · exact absurd (hx0.trans hy0.symm) hsign
      · rw [hx0, hy1, if_pos rfl, if_neg (by decide), if_pos rfl]
        omega
      · rw [hx1, hy0, if_pos rfl, if_neg (by decide), if_neg (by decide)]
        omega
      · exact absurd (hx1.trans hy1.symm) hsign
  rw [hsum]

/-- The computed sum of two finite floats is right under the condition on their significands. -/
theorem Ordered.sum_iff (h : Ordered x y) (hx : x.exp ≠ 127) (hy : y.exp ≠ 127)
    (hy0 : y.signif ≠ 0) (ret : Mysfp) :
    IsSum x.value y.value
        (renormalize { ret with sign := x.sign, exp := x.exp } (signifSum x y)).toSfp.value ↔
      SumExact x y := by
  have hal := h.aligned hx ret
  rw [h.isSum_iff hx hy]
  unfold SumExact signifSum
  by_cases hsign : x.sign = y.sign
  · rw [if_pos hsign, if_pos hsign, if_pos hsign, AddExact]
    by_cases h18 : 18 ≤ x.place - y.place
    · rw [if_pos h18, hal.add_far h18, Sfp.exp_eq_zero_iff]
    · rw [if_neg h18]
      by_cases hlt : x.signif + y.signif / 2 ^ (x.place - y.place) < 2 ^ 17
      · rw [if_pos hlt, hal.add_near (Nat.lt_of_not_le h18) hlt]
      · rw [if_neg hlt, hal.add_carry (Nat.lt_of_not_le h18) (Nat.le_of_not_lt hlt)]
  · rw [if_neg hsign, if_neg hsign, if_neg hsign, SubExact]
    by_cases h18 : 18 ≤ x.place - y.place
    · rw [if_pos h18, hal.sub_far h18 (Nat.pos_of_ne_zero hy0), Sfp.exp_eq_zero_iff]
    · rw [if_neg h18]
      by_cases hge : 2 ^ 16 * 2 ^ (x.place - y.place) ≤
          x.signif * 2 ^ (x.place - y.place) - y.signif
      · rw [if_pos hge, hal.sub_near (Nat.lt_of_not_le h18) hge]
      · rw [if_neg hge, hal.sub_below (Nat.lt_of_not_le h18) (Nat.lt_of_not_le hge), Nat.sub_mul,
          ← h.magnitude_eq]
        rfl

variable {a b : Sfp}

theorem larger_comm (h : a.key ≠ b.key) :
    larger b a = larger a b ∧ smaller b a = smaller a b := by
  unfold larger smaller
  by_cases hlt : b.key < a.key
  · rw [if_pos hlt, if_pos hlt, if_neg (by omega), if_neg (by omega)]
    exact ⟨rfl, rfl⟩
  · rw [if_neg hlt, if_neg hlt, if_pos (by omega), if_pos (by omega)]
    exact ⟨rfl, rfl⟩

theorem larger_cases (a b : Sfp) :
    larger a b = a ∧ smaller a b = b ∨ larger a b = b ∧ smaller a b = a := by
  unfold larger smaller
  by_cases h : b.key < a.key
  · rw [if_pos h, if_pos h]
    exact .inl ⟨rfl, rfl⟩
  · rw [if_neg h, if_neg h]
    exact .inr ⟨rfl, rfl⟩

/-- The sum of two floats of the same magnitude is right. -/
theorem sumExact_of_key (h : x.key = y.key) : SumExact x y := by
  have hx := x.frac.isLt
  have hy := y.frac.isLt
  have hexp : x.exp = y.exp := by
    unfold Sfp.key at h
    exact Fin.ext (by omega)
  have hfrac : x.frac = y.frac := by
    unfold Sfp.key at h
    exact Fin.ext (by omega)
  have hplace : x.place - y.place = 0 := by
    unfold Sfp.place
    rw [hexp, Nat.sub_self]
  have hsignif : x.signif = y.signif := by
    unfold Sfp.signif
    rw [hexp, hfrac]
  have hmag : x.magnitude - y.magnitude = 0 := by
    unfold Sfp.magnitude Sfp.place
    rw [hsignif, hexp, Nat.sub_self]
  unfold SumExact AddExact SubExact
  rw [hplace, hmag, hsignif, pow_zero, Nat.div_one, Nat.mod_one]
  split
  · rw [if_neg (by decide)]
    split
    · exact near_zero _ _
    · refine .inr ⟨fun _ => not_roundsAway_zero _, fun _ => .inl (Nat.mod_one _)⟩
  · rw [if_neg (by decide), if_neg (by omega)]
    exact .inr ⟨rfl, by decide⟩

theorem sumExact_comm : SumExact (larger a b) (smaller a b) →
    SumExact (larger b a) (smaller b a) := by
  intro h
  by_cases hkey : a.key = b.key
  · obtain ⟨hl, hs⟩ | ⟨hl, hs⟩ := larger_cases b a
    · rw [hl, hs]
      exact sumExact_of_key hkey.symm
    · rw [hl, hs]
      exact sumExact_of_key hkey
  · obtain ⟨hl, hs⟩ := larger_comm hkey
    rwa [hl, hs]

theorem Exact.comm (h : Exact a b) : Exact b a := by
  obtain ⟨hnan, hinf, hsum⟩ := h
  refine ⟨fun hb ha => hinf ha hb, fun hb ha => hnan ha hb, ?_⟩
  exact fun hb ha hb0 ha0 => sumExact_comm (hsum ha hb ha0 hb0)

theorem addFinite_iff (ha : a.exp ≠ 127) (hb : b.exp ≠ 127) (ha0 : ¬ a.IsZero) (hb0 : ¬ b.IsZero)
    (ret : Mysfp) : IsSum a.value b.value (addFinite ret a.word b.word).toSfp.value ↔
      SumExact (larger a b) (smaller a b) := by
  have hord := ordered_larger a b
  rw [Sfp.isZero_iff] at ha0 hb0
  rw [addFinite_eq]
  obtain ⟨hl, hs⟩ | ⟨hl, hs⟩ := larger_cases a b
  · rw [hl, hs] at hord ⊢
    exact hord.sum_iff ha hb hb0 ret
  · rw [hl, hs] at hord ⊢
    rw [← hord.sum_iff hb ha ha0 ret]
    exact ⟨IsSum.comm, IsSum.comm⟩

end Finite

section Special
variable {a b : Sfp}

@[simp] theorem Sfp.word_sign (a : Sfp) : a.word.sign = a.sign := rfl

@[simp] theorem Sfp.word_exp (a : Sfp) : a.word.exp = a.exp := rfl

@[simp] theorem Sfp.word_frac (a : Sfp) : a.word.frac = a.frac := rfl

theorem sfpAdd_nan (ret : Mysfp) (ha : a.IsNan) : sfpAdd ret a.word b.word = a.word := by
  simp [sfpAdd, ha.1, ha.2]

theorem sfpAdd_opposite (ret : Mysfp) (ha : a.IsInf) (hb : b.IsInf) (hsign : a.sign ≠ b.sign) :
    (sfpAdd ret a.word b.word).toSfp.value = .nan := by
  obtain ha0 | ha1 := sign_cases a.sign <;> obtain hb0 | hb1 := sign_cases b.sign
  · exact absurd (ha0.trans hb0.symm) hsign
  · simp [sfpAdd, Sfp.value, ha.1, ha.2, ha0, hb.1, hb.2, hb1]
  · simp [sfpAdd, Sfp.value, ha.1, ha.2, ha1, hb.1, hb.2, hb0]
  · exact absurd (ha1.trans hb1.symm) hsign

theorem sfpAdd_inf (ret : Mysfp) (ha : a.IsInf) (h : b.IsInf → a.sign = b.sign) :
    (sfpAdd ret a.word b.word).toSfp.value = a.value := by
  have hb : ∀ s, s ≠ a.sign → ¬ (b.sign = s ∧ b.exp = 127 ∧ b.frac = 0) := by
    rintro s hs ⟨rfl, hb⟩
    exact hs (h hb).symm
  obtain ha0 | ha1 := sign_cases a.sign
  · have hb' := hb 1 (by rw [ha0]; decide)
    simp [sfpAdd, Sfp.value, ha.1, ha.2, ha0, hb']
  · have hb' := hb 0 (by rw [ha1]; decide)
    simp [sfpAdd, Sfp.value, ha.1, ha.2, ha1, hb']

theorem sfpAdd_special (ret : Mysfp) (ha : a.exp ≠ 127) (hb : b.exp = 127) :
    (sfpAdd ret a.word b.word).toSfp.value = b.value := by
  by_cases h0 : b.frac = 0
  · simp [sfpAdd, Sfp.value, ha, hb, h0]
  · simp [sfpAdd, Sfp.word, ha, hb, h0]

theorem sfpAdd_zero_left (ret : Mysfp) (ha : a.IsZero) (hb : b.exp ≠ 127) :
    sfpAdd ret a.word b.word = b.word := by
  simp [sfpAdd, hb, ha.1, ha.2]

theorem sfpAdd_zero_right (ret : Mysfp) (ha : a.exp ≠ 127) (ha0 : ¬ a.IsZero) (hb : b.IsZero) :
    sfpAdd ret a.word b.word = a.word := by
  have ha0' : ¬ (a.exp = 0 ∧ a.frac = 0) := ha0
  simp [sfpAdd, ha, ha0', hb.1, hb.2]

theorem sfpAdd_finite (ret : Mysfp) (ha : a.exp ≠ 127) (hb : b.exp ≠ 127) (ha0 : ¬ a.IsZero)
    (hb0 : ¬ b.IsZero) : sfpAdd ret a.word b.word = addFinite ret a.word b.word := by
  have ha0' : ¬ (a.exp = 0 ∧ a.frac = 0) := ha0
  have hb0' : ¬ (b.exp = 0 ∧ b.frac = 0) := hb0
  simp [sfpAdd, ha, hb, ha0', hb0']

theorem Sfp.IsInf.not_isNan (h : a.IsInf) : ¬ a.IsNan := fun h' => h'.2 h.2

/-- The sum is right in the order of the call. -/
theorem sfpAdd_isSum_iff (ret : Mysfp) (a b : Sfp) :
    IsSum a.value b.value (sfpAdd ret a.word b.word).toSfp.value ↔
      (a.IsInf → ¬ b.IsNan) ∧ (a.exp ≠ 127 → b.exp ≠ 127 → ¬ a.IsZero → ¬ b.IsZero →
        SumExact (larger a b) (smaller a b)) := by
  obtain ha | ha | ha := a.kinds
  · rw [sfpAdd_nan ret ha]
    change IsSum a.value b.value a.value ↔ _
    rw [ha.value]
    exact iff_of_true (.nan_left _) ⟨fun h => absurd ha h.not_isNan, fun h => absurd ha.1 h⟩
  · have hsum : a.exp ≠ 127 → b.exp ≠ 127 → ¬ a.IsZero → ¬ b.IsZero →
        SumExact (larger a b) (smaller a b) := fun h => absurd ha.1 h
    obtain hb | hb | hb := b.kinds
    · -- the infinity is returned before the other operand is looked at
      rw [sfpAdd_inf ret ha fun h => absurd hb h.not_isNan, ha.value, hb.value]
      refine iff_of_false (fun h => by cases h) ?_
      exact fun h => h.1 ha hb
    · refine iff_of_true ?_ ⟨fun _ => hb.not_isNan, hsum⟩
      by_cases hsign : a.sign = b.sign
      · rw [sfpAdd_inf ret ha fun _ => hsign, ha.value, hb.value, hsign]
        exact .inf_inf _
      · have hopposite : decide (b.sign = 1) = !decide (a.sign = 1) := by
          obtain ha0 | ha1 := sign_cases a.sign <;> obtain hb0 | hb1 := sign_cases b.sign
          · exact absurd (ha0.trans hb0.symm) hsign
          · rw [ha0, hb1]
            rfl
          · rw [ha1, hb0]
            rfl
          · exact absurd (ha1.trans hb1.symm) hsign
        rw [sfpAdd_opposite ret ha hb hsign, ha.value, hb.value, hopposite]
        exact .inf_opposite _
    · rw [sfpAdd_inf ret ha fun h => absurd h.1 hb, ha.value, Sfp.value_finite hb]
      exact iff_of_true (.inf_fin _ _) ⟨fun _ h => hb h.1, hsum⟩
  · have hinf : a.IsInf → ¬ b.IsNan := fun h => absurd h.1 ha
    obtain hb | hb | hb := b.kinds
    · rw [sfpAdd_special ret ha hb.1, hb.value]
      exact iff_of_true (.nan_right _) ⟨hinf, fun _ h => absurd hb.1 h⟩
    · rw [sfpAdd_special ret ha hb.1, hb.value, Sfp.value_finite ha]
      exact iff_of_true (.fin_inf _ _) ⟨hinf, fun _ h => absurd hb.1 h⟩
    · by_cases ha0 : a.IsZero
      · rw [sfpAdd_zero_left ret ha0 hb]
        refine iff_of_true ?_ ⟨hinf, fun _ _ h => absurd ha0 h⟩
        change IsSum a.value b.value b.value
        rw [Sfp.value_finite ha, Sfp.value_finite hb, isSum_fin, ha0.signed_magnitude, zero_add,
          ← Sfp.value_finite hb]
        exact Sfp.rounds_value hb
      by_cases hb0 : b.IsZero
      · rw [sfpAdd_zero_right ret ha ha0 hb0]
        refine iff_of_true ?_ ⟨hinf, fun _ _ _ h => absurd hb0 h⟩
        change IsSum a.value b.value a.value
        rw [Sfp.value_finite ha, Sfp.value_finite hb, isSum_fin, hb0.signed_magnitude, add_zero,
          ← Sfp.value_finite ha]
        exact Sfp.rounds_value ha
      rw [sfpAdd_finite ret ha hb ha0 hb0, addFinite_iff ha hb ha0 hb0]
      exact ⟨fun h => ⟨hinf, fun _ _ _ _ => h⟩, fun h => h.2 ha hb ha0 hb0⟩

end Special

/-- The sum is right in both orders, and it is the same value, for the exact operands only. -/
theorem sfpAdd_exact_iff (ret ret' : Mysfp) (a b : Sfp) :
    IsSum a.value b.value (sfpAdd ret a.word b.word).toSfp.value ∧
        (sfpAdd ret a.word b.word).toSfp.value = (sfpAdd ret' b.word a.word).toSfp.value ↔
      Exact a b := by
  constructor
  · rintro ⟨hsum, heq⟩
    have hab := (sfpAdd_isSum_iff ret a b).1 hsum
    rw [heq] at hsum
    have hba := (sfpAdd_isSum_iff ret' b a).1 hsum.comm
    exact ⟨fun ha hb => hba.1 hb ha, hab.1, hab.2⟩
  · intro h
    have hab := (sfpAdd_isSum_iff ret a b).2 h.2
    have hba := (sfpAdd_isSum_iff ret' b a).2 h.comm.2
    exact ⟨hab, hab.unique hba.comm⟩

/-- The leading bit that the loop brings back is cut off, and then the exponent is cleared:
1.5 - 1 is zero. -/
theorem sfpAdd_half :
    (sfpAdd (Sfp.word ⟨0, 0, 0⟩) (Sfp.word ⟨0, 63, 0x8000⟩) (Sfp.word ⟨1, 63, 0⟩)).toSfp.value =
        .fin 0 ∧
      IsSum (Sfp.value ⟨0, 63, 0x8000⟩) (Sfp.value ⟨1, 63, 0⟩) (.fin (2 ^ 77)) ∧
      ¬ IsSum (Sfp.value ⟨0, 63, 0x8000⟩) (Sfp.value ⟨1, 63, 0⟩) (.fin 0) := by
  have hsum : IsSum (Sfp.value ⟨0, 63, 0x8000⟩) (Sfp.value ⟨1, 63, 0⟩) (.fin (2 ^ 77)) := by
    have ha : Sfp.value ⟨0, 63, 0x8000⟩ = .fin (3 * 2 ^ 77) := by decide
    have hb : Sfp.value ⟨1, 63, 0⟩ = .fin (-2 ^ 78) := by decide
    have hfits : Fits 17 (2 ^ 77) := ⟨1, 77, by decide, by decide⟩
    rw [ha, hb, isSum_fin, show (3 * 2 ^ 77 + -2 ^ 78 : ℤ) = signed 0 (2 ^ 77) by decide,
      rounds_signed, roundEven_of_fits (by decide) hfits, ofMag_of_lt (by decide)]
    decide
  exact ⟨by decide, hsum, fun h => absurd (h.unique hsum) (by decide)⟩

end SoftFloat
