import Coursework.SoftFloat.Multiply
import Mathlib.Tactic.IntervalCases

/-! The significands and exponents for which the product that `sfp_mul` makes of them is the exact
product rounded to nearest even. -/
namespace SoftFloat
open NearestEven

/-- The rounding to sixteen places less, followed by the rounding of the carry, is not the rounding
to seventeen places less. -/
def TwiceRounded (P : ℕ) : Prop :=
  2 ^ 16 < P % 2 ^ 18 ∧ P % 2 ^ 18 < 2 ^ 16 + 2 ^ 15 ∨
    2 ^ 17 + 2 ^ 15 < P % 2 ^ 18 ∧ P % 2 ^ 18 < 2 ^ 17 + 2 ^ 16

/-- Two normal floats with the product `P` of their significands and the exponent `E` of their
product before a carry. -/
def NormalExact (E P : ℕ) : Prop :=
  if P < 2 ^ 33 - 2 ^ 15 then
    if E = 0 then (2 ^ 18 - 3) * 2 ^ 15 < P ∧ P < (2 ^ 17 - 1) * 2 ^ 16 else E ≤ 127
  else E = 126 ∨ E ≤ 125 ∧ (P < 2 ^ 33 ∨ ¬TwiceRounded P)

/-- A normal float and a denormal one. -/
def DenormalExact (E P : ℕ) : Prop :=
  if E = 0 then P < 2 ^ 32 - 2 ^ 15
  else E ≤ 15 ∧ P + 2 ^ 15 < 2 ^ (33 - E) ∧
    (2 ^ (33 - E) < P + 2 ^ 15 + 2 ^ (15 - E) ∨ E ≠ 1 ∧ 2 ^ (33 - E) = P + 2 ^ 15 + 2 ^ (15 - E))

/-- The product of the significands without its lower sixteen bits, rounded. -/
def upper (P : ℕ) : ℕ := roundUp (2 ^ 16) (P / 2 ^ 16) (P % 2 ^ 16)

section Exact
variable {E P : ℕ}

theorem roundQuot_normal (h34 : P < 2 ^ 34) (h32 : 2 ^ 32 ≤ P) :
    roundQuot 17 (2 ^ 78) (P * 2 ^ (E + 61)) =
      if 1 ≤ E ∧ P < 2 ^ 33 then upper P * 2 ^ (E - 1)
      else roundUp (2 ^ 17) (P / 2 ^ 17) (P % 2 ^ 17) * 2 ^ E := by
  by_cases h : 1 ≤ E ∧ P < 2 ^ 33
  · obtain ⟨hE, h33⟩ := h
    rw [if_pos ⟨hE, h33⟩, upper]
    conv_lhs => rw [← Nat.div_add_mod' P (2 ^ 16)]
    exact roundQuot_pow (by omega) (Nat.mod_lt _ (by decide)) (by omega) (.inr (by omega))
  · rw [if_neg h]
    conv_lhs => rw [← Nat.div_add_mod' P (2 ^ 17)]
    exact roundQuot_pow (by omega) (Nat.mod_lt _ (by decide)) (by omega) (by omega)

theorem upper_lt_roundQuot (h16 : 2 ^ 16 ≤ P) (h33 : P + 2 ^ 17 < 2 ^ 33) (hE : 1 ≤ E) :
    (upper P + 1) * 2 ^ (E - 1) ≤ roundQuot 17 (2 ^ 78) (P * 2 ^ (E + 62)) := by
  have hupper : upper P + 1 < 2 ^ 17 ∧ (upper P + 1) * 2 ^ 16 ≤ 2 * P := by
    unfold upper roundUp
    split <;> omega
  refine le_roundQuot (by decide) (by decide) ⟨upper P + 1, E - 1, hupper.1, rfl⟩ ?_
  calc (upper P + 1) * 2 ^ (E - 1) * 2 ^ 78 = (upper P + 1) * 2 ^ 16 * 2 ^ (E - 1 + 62) := by
        rw [mul_assoc, mul_assoc, ← pow_add, ← pow_add]
        congr 2
        omega
    _ ≤ 2 * P * 2 ^ (E - 1 + 62) := Nat.mul_le_mul_right _ hupper.2
    _ = P * 2 ^ (E + 62) := by
        rw [Nat.mul_comm 2 P, mul_assoc, ← pow_succ']
        congr 2
        omega

theorem le_roundQuot_denormal (hE : E ≤ 16) (hlarge : 2 ^ 17 * 2 ^ (16 - E) ≤ P) :
    2 ^ 17 ≤ roundQuot 17 (2 ^ 78) (P * 2 ^ (E + 62)) := by
  have hpow : 2 ^ (16 - E) * 2 ^ (E + 62) = 2 ^ 78 := by
    rw [← pow_add, show 16 - E + (E + 62) = 78 by omega]
  refine le_roundQuot (by decide) (Nat.two_pow_pos 78) ⟨1, 17, by decide, (one_mul _).symm⟩ ?_
  rw [← hpow, ← mul_assoc]
  exact Nat.mul_le_mul_right _ hlarge

theorem roundQuot_denormal (hE : E ≤ 16) (hsmall : P / 2 ^ (16 - E) < 2 ^ 17) :
    roundQuot 17 (2 ^ 78) (P * 2 ^ (E + 62)) =
      roundUp (2 ^ (16 - E)) (P / 2 ^ (16 - E)) (P % 2 ^ (16 - E)) := by
  conv_lhs => rw [← Nat.div_add_mod' P (2 ^ (16 - E))]
  rw [roundQuot_pow (k := 0) (by omega) (Nat.mod_lt _ (Nat.two_pow_pos _)) hsmall (.inl rfl),
    pow_zero, Nat.mul_one]

/-- Only the last significand before a leading bit, with its misplaced leading bit, comes near to
the exact product. -/
theorem roundUp_denormal_iff {Q : ℕ} (hE : 1 ≤ E) (hE16 : E ≤ 16)
    (hQ : Q = roundUp (2 ^ 16) (P / 2 ^ 16) (P % 2 ^ 16)) (hlast : Q < 2 * 2 ^ (16 - E)) :
    2 ^ 16 + Q * 2 ^ (E - 1) =
        roundUp (2 ^ (16 - E)) (P / 2 ^ (16 - E)) (P % 2 ^ (16 - E)) ↔ DenormalExact E P := by
  have hsplit : 2 ^ (E - 1) * 2 ^ (16 - E) = 2 ^ 15 := by
    rw [← pow_add, show E - 1 + (16 - E) = 15 by omega]
  have hmul : (2 ^ 16 + Q * 2 ^ (E - 1)) * 2 ^ (16 - E) = 2 ^ 16 * 2 ^ (16 - E) + Q * 2 ^ 15 := by
    rw [add_mul, mul_assoc, hsplit]
  have hodd : Q % 2 = 1 → ((2 ^ 16 + Q * 2 ^ (E - 1)) % 2 = 0 ↔ E ≠ 1) := by
    intro hQ1
    by_cases h1 : E = 1
    · rw [h1, pow_zero]
      omega
    · have hpow : Q * 2 ^ (E - 1) = 2 * (Q * 2 ^ (E - 2)) := by
        rw [show E - 1 = E - 2 + 1 by omega, pow_succ]
        ring
      rw [hpow]
      omega
  have hpow : 2 ^ (33 - E) = 2 ^ 17 * 2 ^ (16 - E) := by
    rw [← pow_add, show 17 + (16 - E) = 33 - E by omega]
  rw [eq_roundUp_iff (by decide)] at hQ
  rw [eq_roundUp_iff (Nat.two_pow_pos _), DenormalExact, if_neg (by omega), hmul, hpow]
  generalize (2 ^ 16 + Q * 2 ^ (E - 1)) % 2 = b at *
  by_cases hE15 : E ≤ 15
  · have hhalf : 2 ^ (16 - E) = 2 * 2 ^ (15 - E) := by
      rw [← pow_succ', show 15 - E + 1 = 16 - E by omega]
    have hbound : 2 ^ (15 - E) ≤ 2 ^ 14 := Nat.pow_le_pow_right (by decide) (by omega)
    rw [hhalf] at hlast ⊢
    generalize 2 ^ (15 - E) = H at *
    clear hmul hpow hhalf hsplit
    omega
  · have hone : 2 ^ (16 - E) = 1 := by
      rw [show 16 - E = 0 by omega, pow_zero]
    rw [hone] at hlast ⊢
    omega

/-- A product with a denormal float that is computed without its leading bit. -/
theorem denormal_iff (h16 : 2 ^ 16 ≤ P) (hE : 1 ≤ E) (hsmall : upper P * 2 ^ (E - 1) < 2 ^ 16) :
    2 ^ 16 + upper P * 2 ^ (E - 1) = roundQuot 17 (2 ^ 78) (P * 2 ^ (E + 62)) ↔
      DenormalExact E P := by
  have hupper : 1 ≤ upper P := by
    unfold upper roundUp
    split <;> omega
  have hE16 : E ≤ 16 := by
    by_contra hlt
    have hpow : 2 ^ 16 ≤ 2 ^ (E - 1) := Nat.pow_le_pow_right (by decide) (by omega)
    have hmul := Nat.le_mul_of_pos_left (2 ^ (E - 1)) hupper
    omega
  by_cases hlarge : P / 2 ^ (16 - E) < 2 ^ 17
  · have hlast : upper P < 2 * 2 ^ (16 - E) := by
      refine Nat.lt_of_mul_lt_mul_right (a := 2 ^ (E - 1)) (lt_of_lt_of_eq hsmall ?_)
      rw [mul_assoc, ← pow_add, ← pow_succ', show 16 - E + (E - 1) + 1 = 16 by omega]
    rw [roundQuot_denormal hE16 hlarge]
    exact roundUp_denormal_iff hE hE16 rfl hlast
  · have hle : 2 ^ 17 * 2 ^ (16 - E) ≤ P :=
      (Nat.le_div_iff_mul_le (Nat.two_pow_pos _)).1 (Nat.le_of_not_lt hlarge)
    have hround := le_roundQuot_denormal hE16 hle
    have hpow : 2 ^ 17 * 2 ^ (16 - E) = 2 ^ (33 - E) := by
      rw [← pow_add, show 17 + (16 - E) = 33 - E by omega]
    refine iff_of_false (by omega) fun h => ?_
    rw [DenormalExact, if_neg (by omega)] at h
    omega

end Exact

theorem fin_eq_ofMag {s : Fin 2} {m v : ℕ} (hm : m < limit) :
    .fin (signed s m) = ofMag s v ↔ m = v := by
  by_cases hv : v < limit
  · rw [ofMag_of_lt hv, Value.fin.injEq, signed_inj]
  · rw [ofMag_of_le (Nat.le_of_not_lt hv)]
    exact iff_of_false (fun h => by cases h) (by omega)

theorem inf_eq_ofMag {s : Fin 2} {v : ℕ} : .inf (decide (s = 1)) = ofMag s v ↔ limit ≤ v := by
  by_cases hv : limit ≤ v
  · rw [ofMag_of_le hv]
    exact iff_of_true rfl hv
  · rw [ofMag_of_lt (Nat.lt_of_not_le hv)]
    exact iff_of_false (fun h => by cases h) hv

theorem limit_le {g e : ℕ} (hg : 2 ^ 16 ≤ g) (he : 126 ≤ e) : limit ≤ g * 2 ^ e := by
  calc limit = 2 ^ 16 * 2 ^ 126 := by rw [limit, ← pow_add]
    _ ≤ g * 2 ^ e := Nat.mul_le_mul hg (Nat.pow_le_pow_right (by decide) he)

theorem placed_zero (g : ℕ) : placed 0 g = g % 2 ^ 16 := if_pos rfl

theorem placed_of_le {e g : ℕ} (he : e ≠ 0) (h : 2 ^ 16 ≤ g * 2 ^ (e - 1)) :
    placed e g = g * 2 ^ (e - 1) := by
  rw [placed, if_neg he, if_neg (Nat.not_lt.2 h)]

section Code
variable {E P : ℕ} {ret : Mysfp}

theorem exp_ne_iff {e : ℕ} (h : (ret.exp : ℕ) = e) : ret.exp ≠ 127 ↔ e ≠ 127 := by
  rw [← h]
  exact not_congr ⟨fun he => by rw [he]; rfl, fun he => Fin.ext he⟩

/-- A product of normal floats that is not rounded up to a carry. -/
theorem normal_iff_of_lt (h32 : 2 ^ 32 ≤ P) (h33 : P < 2 ^ 33 - 2 ^ 15) (hE : E ≤ 189)
    (hret : (ret.exp : ℕ) = E % 128) : (normalizeProduct ret (upper P)).toSfp.value =
      ofMag ret.sign (roundQuot 17 (2 ^ 78) (P * 2 ^ (E + 61))) ↔ NormalExact E P := by
  have hU : 2 ^ 16 ≤ upper P ∧ upper P < 2 ^ 17 := by
    unfold upper roundUp
    split <;> omega
  rw [NormalExact, if_pos h33, roundQuot_normal (by omega) h32]
  by_cases h0 : E = 0
  · subst h0
    have hlt : upper P % 2 ^ 16 < limit := lt_trans (by omega) limit_gt
    rw [if_pos rfl, if_neg (by omega), pow_zero, Nat.mul_one,
      normalizeProduct_fin hU.2 ((exp_ne_iff hret).2 (by decide)), hret, Nat.zero_mod, placed_zero,
      fin_eq_ofMag hlt]
    unfold upper roundUp
    split <;> split <;> omega
  · rw [if_neg h0, if_pos ⟨by omega, by omega⟩]
    by_cases h127 : E = 127
    · rw [normalizeProduct_inf hU.1 hU.2 (Fin.ext (by rw [hret, h127]; rfl)), inf_eq_ofMag]
      exact iff_of_true (limit_le hU.1 (by omega)) (by omega)
    · by_cases hlt : E < 127
      · have hmod : E % 128 = E := by omega
        have hle : upper P ≤ upper P * 2 ^ (E - 1) :=
          Nat.le_mul_of_pos_right _ (Nat.two_pow_pos _)
        rw [normalizeProduct_fin hU.2 ((exp_ne_iff hret).2 (by omega)), hret, hmod,
          placed_of_le h0 (by omega), fin_eq_ofMag (lt_limit hU.2 hlt)]
        exact iff_of_true rfl (by omega)
      · rw [normalizeProduct_fin hU.2 ((exp_ne_iff hret).2 (by omega)),
          ofMag_of_le (limit_le hU.1 (by omega))]
        exact iff_of_false (fun h => by cases h) (by omega)

/-- A product of normal floats with a carry. -/
theorem normal_iff_of_le (h33 : 2 ^ 33 - 2 ^ 15 ≤ P) (h34 : P ≤ (2 ^ 17 - 1) * (2 ^ 17 - 1))
    (hE : E ≤ 189) (hret : (ret.exp : ℕ) = E % 128) :
    (normalizeProduct ret (upper P)).toSfp.value =
      ofMag ret.sign (roundQuot 17 (2 ^ 78) (P * 2 ^ (E + 61))) ↔ NormalExact E P := by
  have hU : 2 ^ 17 ≤ upper P ∧ upper P < 2 ^ 18 - 1 := by
    unfold upper roundUp
    split <;> omega
  have hU' : 2 ^ 16 ≤ upper P / 2 + (if upper P % 4 = 3 then 1 else 0) ∧
      upper P / 2 + (if upper P % 4 = 3 then 1 else 0) < 2 ^ 17 := by
    split <;> omega
  have hR : 2 ^ 16 ≤ roundUp (2 ^ 17) (P / 2 ^ 17) (P % 2 ^ 17) := by
    unfold roundUp
    split <;> omega
  -- the exact product in the place of the carry
  have hround : roundQuot 17 (2 ^ 78) (P * 2 ^ (E + 61)) =
      roundUp (2 ^ 17) (P / 2 ^ 17) (P % 2 ^ 17) * 2 ^ E := by
    rw [roundQuot_normal (by omega) (by omega)]
    by_cases h : 1 ≤ E ∧ P < 2 ^ 33
    · have hcarry : upper P = 2 * roundUp (2 ^ 17) (P / 2 ^ 17) (P % 2 ^ 17) := by
        unfold upper roundUp
        split <;> split <;> omega
      rw [if_pos h, hcarry, Nat.mul_comm 2, mul_assoc, ← pow_succ', Nat.sub_add_cancel h.1]
    · rw [if_neg h]
  have hnext : ((ret.exp + 1 : Fin 128) : ℕ) = (E + 1) % 128 := by
    rw [Fin.val_add, hret]
    change (E % 128 + 1) % 128 = _
    omega
  rw [normalizeProduct_carry hU.1 hU.2, hround, NormalExact, if_neg (Nat.not_lt.2 h33)]
  by_cases h126 : E = 126
  · rw [normalizeProduct_inf hU'.1 hU'.2 (Fin.ext (by rw [hnext, h126]; rfl)), inf_eq_ofMag]
    exact iff_of_true (limit_le hR (by omega)) (.inl h126)
  · rw [normalizeProduct_fin hU'.2 ((exp_ne_iff hnext).2 (by omega)), or_iff_right h126]
    by_cases hlt : E ≤ 125
    · have hmod : (E + 1) % 128 = E + 1 := by omega
      have hle : upper P / 2 + (if upper P % 4 = 3 then 1 else 0) ≤
          (upper P / 2 + if upper P % 4 = 3 then 1 else 0) * 2 ^ E :=
        Nat.le_mul_of_pos_right _ (Nat.two_pow_pos _)
      have hlimit := lt_limit (e := E + 1) hU'.2 (by omega)
      rw [Nat.add_sub_cancel] at hlimit
      rw [hnext, hmod, placed_of_le (show E + 1 ≠ 0 by omega) (by rw [Nat.add_sub_cancel]; omega),
        Nat.add_sub_cancel, fin_eq_ofMag hlimit, Nat.mul_left_inj (Nat.two_pow_pos E).ne',
        and_iff_right hlt]
      unfold TwiceRounded upper roundUp
      split <;> split <;> split <;> omega
    · rw [ofMag_of_le (limit_le hR (by omega))]
      exact iff_of_false (fun h => by cases h) (by omega)

/-- A product of a normal float and a denormal one. -/
theorem denormal_product_iff (h16 : 2 ^ 16 ≤ P) (h33 : P + 2 ^ 17 < 2 ^ 33) (hE : E ≤ 63)
    (hret : (ret.exp : ℕ) = E) : (normalizeProduct ret (upper P)).toSfp.value =
      ofMag ret.sign (roundQuot 17 (2 ^ 78) (P * 2 ^ (E + 62))) ↔ DenormalExact E P := by
  have hU : upper P < 2 ^ 17 := by
    unfold upper roundUp
    split <;> omega
  rw [normalizeProduct_fin hU ((exp_ne_iff hret).2 (by omega)), hret]
  by_cases h0 : E = 0
  · subst h0
    have hround : roundQuot 17 (2 ^ 78) (P * 2 ^ (0 + 62)) = upper P := by
      conv_lhs => rw [← Nat.div_add_mod' P (2 ^ 16)]
      rw [roundQuot_pow (k := 0) (by omega) (Nat.mod_lt _ (by decide)) (by omega) (.inl rfl),
        pow_zero, Nat.mul_one, upper]
    have hlt : upper P % 2 ^ 16 < limit := lt_trans (by omega) limit_gt
    rw [placed_zero, fin_eq_ofMag hlt, hround, DenormalExact, if_pos rfl]
    unfold upper roundUp
    split <;> omega
  · have hlimit := lt_limit (e := E) hU (by omega)
    by_cases hsmall : upper P * 2 ^ (E - 1) < 2 ^ 16
    · rw [placed, if_neg h0, if_pos hsmall, fin_eq_ofMag (lt_trans (by omega) limit_gt)]
      exact denormal_iff h16 (by omega) hsmall
    · rw [placed_of_le h0 (Nat.le_of_not_lt hsmall), fin_eq_ofMag hlimit]
      have hnext := upper_lt_roundQuot h16 h33 (show 1 ≤ E by omega)
      have hpos := Nat.two_pow_pos (E - 1)
      rw [add_mul, one_mul] at hnext
      refine iff_of_false (by omega) fun h => hsmall ?_
      rw [DenormalExact, if_neg h0] at h
      have hU' : upper P * 2 ^ 16 < 2 ^ (33 - E) := by
        have hle : upper P * 2 ^ 16 ≤ P + 2 ^ 15 := by
          unfold upper roundUp
          split <;> omega
        exact lt_of_le_of_lt hle h.2.1
      refine Nat.lt_of_mul_lt_mul_right (a := 2 ^ 16) ?_
      calc upper P * 2 ^ (E - 1) * 2 ^ 16 = upper P * 2 ^ 16 * 2 ^ (E - 1) := by ring
        _ < 2 ^ (33 - E) * 2 ^ (E - 1) := Nat.mul_lt_mul_of_pos_right hU' hpos
        _ = 2 ^ 16 * 2 ^ 16 := by
          rw [← pow_add, ← pow_add, show 33 - E + (E - 1) = 16 + 16 by omega]

end Code

end SoftFloat
