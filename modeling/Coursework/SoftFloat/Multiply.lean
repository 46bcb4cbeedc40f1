import Coursework.Lib.NearestQuotient
import Coursework.SoftFloat.Exact

/-! Multiplication of floats of 24 bits. -/
namespace SoftFloat
open NearestEven

/-- `signif>>=16` with rounding to nearest even. -/
def roundSixteen (signif : ℕ) : ℕ :=
  let G := (1 <<< 16) &&& signif
  let R := (1 <<< 15) &&& signif
  let S := ((1 <<< 15) - 1) &&& signif
  if R = 0 then signif >>> 16
  else if S = 0 then if G ≠ 0 then (signif >>> 16) + 1 else signif >>> 16
  else (signif >>> 16) + 1

/-- `signif>>=1` with rounding after a carry. The exponent is a field of 7 bits. -/
def carryProduct (exp : Fin 128) (signif : ℕ) : Fin 128 × ℕ :=
  if 1 <<< 17 ≤ signif then
    let signif := if signif &&& 1 ≠ 0 ∧ signif &&& 2 ≠ 0 then signif + 1 else signif
    (exp + 1, signif >>> 1)
  else (exp, signif)

/-- What `sfp_mul` does with the rounded significand. -/
def normalizeProduct (ret : Mysfp) (signif : ℕ) : Mysfp :=
  let (exp, signif) := carryProduct ret.exp signif
  let (exp, signif) := normalize exp signif
  if (1 <<< 7) - 1 ≤ exp then { ret with exp := 127, frac := 0 }
  else { ret with exp := Fin.ofNat 128 exp, frac := Fin.ofNat 65536 (signif &&& 0xFFFF) }

/-- The product of operands that are neither NaN nor zero, the first one not infinite. -/
def mulFinite (ret ms1 ms2 : Mysfp) : Mysfp :=
  if (ms1.exp : ℕ) + ms2.exp < 63 then { ret with exp := 0, frac := 0 }
  else
    let ret := { ret with exp := Fin.ofNat 128 (ms1.exp + ms2.exp - 63) }
    let signif1 : ℕ := if ms1.exp ≠ 0 then ms1.frac ||| (1 <<< 16) else ms1.frac
    let signif2 : ℕ := if ms2.exp ≠ 0 then ms2.frac ||| (1 <<< 16) else ms2.frac
    normalizeProduct ret (roundSixteen (signif1 * signif2))

/-- `sfp_mul` after its operands have been put in order. -/
def mulOrdered (ret ms1 ms2 : Mysfp) : Mysfp :=
  let ret := { ret with sign := ms1.sign ^^^ ms2.sign }
  if (ms1.exp = 127 ∧ ms1.frac ≠ 0) ∨ (ms2.exp = 127 ∧ ms2.frac ≠ 0) then
    { ret with exp := 127, frac := 1 }
  else if (ms1.exp = 0 ∧ ms1.frac = 0) ∨ (ms2.exp = 0 ∧ ms2.frac = 0) then
    if (ms1.exp = 127 ∧ ms1.frac = 0) ∨ (ms2.exp = 127 ∧ ms2.frac = 0) then
      { ret with exp := 127, frac := 1 }
    else { ret with exp := 0, frac := 0 }
  else if (ms1.exp = 127 ∧ ms1.frac = 0) ∨ (ms1.exp = 127 ∧ ms2.frac = 0) then
    { ret with exp := 127, frac := 0 }
  else mulFinite ret ms1 ms2

/-- The word that `sfp_mul` compares: a positive float counts more than a negative one. -/
def flipped (ms : Mysfp) : Mysfp := { ms with sign := if ms.sign ≠ 0 then 0 else 1 }

/-- `sfp_mul`; `ret` is what the variable for the result holds before it is written. -/
def sfpMul (ret in1 in2 : Mysfp) : Mysfp :=
  let tmp1 := flipped in1
  let tmp2 := flipped in2
  if tmp2.u < tmp1.u then mulOrdered ret in1 in2 else mulOrdered ret in2 in1

/-- A quotient as the nearest float, even in case of a tie; infinity if it overflows. -/
inductive RoundsQuot (d : ℕ) (z : ℤ) : Value → Prop
  | fin (m : ℕ) : NearestQuot 17 d z.natAbs m → m < limit → RoundsQuot d z (.fin (z.sign * m))
  | inf (m : ℕ) : NearestQuot 17 d z.natAbs m → limit ≤ m → RoundsQuot d z (.inf (decide (z < 0)))

/-- The rounded product of two values. -/
inductive IsProduct : Value → Value → Value → Prop
  | nan_left (y : Value) : IsProduct .nan y .nan
  | nan_right (x : Value) : IsProduct x .nan .nan
  | inf_zero (s : Bool) : IsProduct (.inf s) (.fin 0) .nan
  | zero_inf (s : Bool) : IsProduct (.fin 0) (.inf s) .nan
  | inf_inf (s t : Bool) : IsProduct (.inf s) (.inf t) (.inf (s ^^ t))
  | inf_fin (s : Bool) (v : ℤ) : v ≠ 0 → IsProduct (.inf s) (.fin v) (.inf (s ^^ decide (v < 0)))
  | fin_inf (u : ℤ) (t : Bool) : u ≠ 0 → IsProduct (.fin u) (.inf t) (.inf (decide (u < 0) ^^ t))
  | fin_fin (u v : ℤ) (r : Value) : RoundsQuot (2 ^ 78) (u * v) r → IsProduct (.fin u) (.fin v) r

theorem roundsQuot_signed {d : ℕ} (hd : 0 < d) {s : Fin 2} {m : ℕ} {r : Value} :
    RoundsQuot d (signed s m) r ↔ r = ofMag s (roundQuot 17 d m) := by
  have hzero : m = 0 → roundQuot 17 d m = 0 := fun h =>
    (roundQuot_eq_zero_iff (by decide) hd).2 (by omega)
  rw [eq_ofMag_iff hzero]
  constructor
  · rintro (⟨m', hm', hlt⟩ | ⟨m', hm', hle⟩)
    · rw [natAbs_signed, nearestQuot_iff (by decide) hd] at hm'
      rw [hm'] at hlt ⊢
      exact .inl ⟨hlt, rfl⟩
    · rw [natAbs_signed, nearestQuot_iff (by decide) hd] at hm'
      rw [hm'] at hle
      exact .inr ⟨hle, rfl⟩
  · have hnearest : NearestQuot 17 d (signed s m).natAbs (roundQuot 17 d m) := by
      rw [natAbs_signed]
      exact nearestQuot_roundQuot (by decide) hd m
    rintro (⟨hlt, rfl⟩ | ⟨hle, rfl⟩)
    · exact .fin _ hnearest hlt
    · exact .inf _ hnearest hle

theorem roundSixteen_eq (P : ℕ) :
    roundSixteen P = roundUp (2 ^ 16) (P / 2 ^ 16) (P % 2 ^ 16) := by
  have hG := one_shift_and_eq_zero P 16
  have hR := one_shift_and_eq_zero P 15
  have hS : ((1 <<< 15) - 1) &&& P = P % 2 ^ 15 := by
    rw [Nat.and_comm]
    exact Nat.and_two_pow_sub_one_eq_mod P 15
  unfold roundSixteen roundUp
  dsimp only
  rw [hS, Nat.shiftRight_eq_div_pow]
  by_cases h15 : (1 <<< 15) &&& P = 0
  · rw [if_pos h15, if_neg (by omega)]
  rw [if_neg h15]
  by_cases hs : P % 2 ^ 15 = 0
  · rw [if_pos hs]
    by_cases hg : (1 <<< 16) &&& P = 0
    · rw [if_neg (not_not.2 hg), if_neg (by omega)]
    · rw [if_pos hg, if_pos (by omega)]
  · rw [if_neg hs, if_pos (by omega)]

/-- The magnitude of the float that `sfp_mul` makes of an exponent and a significand. -/
def placed (e g : ℕ) : ℕ :=
  if e = 0 then g % 2 ^ 16
  else if g * 2 ^ (e - 1) < 2 ^ 16 then 2 ^ 16 + g * 2 ^ (e - 1)
  else g * 2 ^ (e - 1)

section Normalize
variable {ret : Mysfp} {g : ℕ}

theorem carryProduct_of_lt (exp : Fin 128) (h17 : g < 2 ^ 17) :
    carryProduct exp g = (exp, g) := by
  have hs17 : (1 <<< 17 : ℕ) = 2 ^ 17 := rfl
  exact if_neg (by omega)

theorem carryProduct_of_le (exp : Fin 128) (h17 : 2 ^ 17 ≤ g) :
    carryProduct exp g = (exp + 1, g / 2 + if g % 4 = 3 then 1 else 0) := by
  have hs17 : (1 <<< 17 : ℕ) = 2 ^ 17 := rfl
  have hG := and_pow_eq_zero g 1
  have hR := and_pow_eq_zero g 0
  rw [pow_one] at hG
  rw [pow_zero, Nat.div_one] at hR
  have hround : (if g &&& 1 ≠ 0 ∧ g &&& 2 ≠ 0 then g + 1 else g) / 2 =
      g / 2 + if g % 4 = 3 then 1 else 0 := by
    by_cases h : g &&& 1 ≠ 0 ∧ g &&& 2 ≠ 0
    · rw [if_pos h, if_pos (by omega)]
      omega
    · rw [if_neg h, if_neg (by omega)]
      rfl
  unfold carryProduct
  rw [if_pos (show 1 <<< 17 ≤ g by omega)]
  dsimp only
  rw [Nat.shiftRight_eq_div_pow, pow_one, hround]

theorem normalizeProduct_carry (h17 : 2 ^ 17 ≤ g) (h18 : g < 2 ^ 18 - 1) :
    normalizeProduct ret g = normalizeProduct { ret with exp := ret.exp + 1 }
      (g / 2 + if g % 4 = 3 then 1 else 0) := by
  have hbound : g / 2 + (if g % 4 = 3 then 1 else 0) < 2 ^ 17 := by
    split <;> omega
  unfold normalizeProduct
  rw [carryProduct_of_le _ h17, carryProduct_of_lt _ hbound]

theorem normalizeProduct_eq (h17 : g < 2 ^ 17) : normalizeProduct ret g =
    if 127 ≤ (normalize ret.exp g).1 then { ret with exp := 127, frac := 0 }
    else { ret with
      exp := Fin.ofNat 128 (normalize ret.exp g).1
      frac := Fin.ofNat 65536 ((normalize ret.exp g).2 &&& 0xFFFF) } := by
  unfold normalizeProduct
  rw [carryProduct_of_lt _ h17]
  rfl

theorem normalizeProduct_inf (h16 : 2 ^ 16 ≤ g) (h17 : g < 2 ^ 17) (he : ret.exp = 127) :
    (normalizeProduct ret g).toSfp.value = .inf (decide (ret.sign = 1)) := by
  have hs16 : (1 <<< 16 : ℕ) = 2 ^ 16 := rfl
  have hnorm : normalize ret.exp g = (127, g) := by
    rw [he]
    exact if_neg (by omega)
  rw [normalizeProduct_eq h17, hnorm, if_pos (le_refl 127)]
  exact Sfp.IsInf.value ⟨rfl, rfl⟩

/-- Every other exponent gives a finite float. -/
theorem normalizeProduct_fin (h17 : g < 2 ^ 17) (he : ret.exp ≠ 127) :
    (normalizeProduct ret g).toSfp.value = .fin (signed ret.sign (placed ret.exp g)) := by
  have hs16 : (1 <<< 16 : ℕ) = 2 ^ 16 := rfl
  have hlt := exp_lt he
  have hand : ∀ n : ℕ, ((Fin.ofNat 65536 (n &&& 0xFFFF) : Fin 65536) : ℕ) = n % 2 ^ 16 := by
    intro n
    have hmod : n &&& 0xFFFF = n % 2 ^ 16 := Nat.and_two_pow_sub_one_eq_mod n 16
    change (n &&& 0xFFFF) % 65536 = n % 2 ^ 16
    rw [hmod]
    omega
  rw [normalizeProduct_eq h17]
  by_cases h0 : ret.exp = 0
  · have hnorm : normalize ret.exp g = (0, g) := by
      rw [h0]
      rfl
    rw [hnorm, if_neg (Nat.not_succ_le_zero 126), placed, if_pos (by rw [h0]; rfl)]
    exact (value_denormal _ _).trans (by rw [hand])
  · have hpos := exp_pos h0
    -- the value of a finite exponent, whether the leading bit is there or not
    have hvalue : ∀ e n : ℕ, 0 < e → e < 127 →
        (⟨ret.sign, Fin.ofNat 128 e, Fin.ofNat 65536 (n &&& 0xFFFF)⟩ : Sfp).value =
          .fin (signed ret.sign ((2 ^ 16 + n % 2 ^ 16) * 2 ^ (e - 1))) := by
      intro e n he0 he127
      have hval : ((Fin.ofNat 128 e : Fin 128) : ℕ) = e := Nat.mod_eq_of_lt (by omega)
      have hne : ∀ c : Fin 128, (c : ℕ) ≠ e → (Fin.ofNat 128 e : Fin 128) ≠ c := by
        rintro c hc rfl
        exact hc hval
      rw [value_normal _ (hne 0 (by change 0 ≠ e; omega)) (hne 127 (by change 127 ≠ e; omega)),
        hand, hval]
      rfl
    have hne : ¬ (ret.exp : ℕ) = 0 := by omega
    unfold placed
    by_cases h16 : 2 ^ 16 ≤ g
    · have hnorm : normalize ret.exp g = ((ret.exp : ℕ), g) := by
        obtain ⟨e, he'⟩ : ∃ e, (ret.exp : ℕ) = e + 1 := ⟨ret.exp - 1, by omega⟩
        rw [he']
        exact if_neg (by omega)
      have hle : g ≤ g * 2 ^ ((ret.exp : ℕ) - 1) :=
        Nat.le_mul_of_pos_right _ (Nat.two_pow_pos _)
      rw [hnorm, if_neg (Nat.not_le.2 hlt), if_neg hne, if_neg (by omega)]
      refine (hvalue _ _ hpos hlt).trans ?_
      rw [show 2 ^ 16 + g % 2 ^ 16 = g by omega]
    · obtain ⟨j, hnorm, hj, hj17, hend⟩ := normalize_spec (Nat.lt_of_not_le h16) hpos
      have hlt' : (ret.exp : ℕ) - j < 127 := by omega
      rw [hnorm, if_neg (Nat.not_le.2 hlt'), if_neg hne]
      refine (hvalue _ _ (Nat.sub_pos_of_lt hj) hlt').trans ?_
      have hmul : g * 2 ^ j * 2 ^ ((ret.exp : ℕ) - j - 1) = g * 2 ^ ((ret.exp : ℕ) - 1) := by
        rw [mul_assoc, ← pow_add]
        congr 2
        omega
      by_cases hsmall : g * 2 ^ j < 2 ^ 16
      · have hj1 := hend hsmall
        rw [show (ret.exp : ℕ) - 1 = j by omega, show (ret.exp : ℕ) - j - 1 = 0 by omega,
          if_pos hsmall, Nat.mod_eq_of_lt hsmall, pow_zero, Nat.mul_one]
      · have hle : g * 2 ^ j ≤ g * 2 ^ ((ret.exp : ℕ) - 1) :=
          Nat.mul_le_mul_left _ (Nat.pow_le_pow_right (by decide) (by omega))
        rw [if_neg (by omega), show 2 ^ 16 + g * 2 ^ j % 2 ^ 16 = g * 2 ^ j by omega, hmul]

end Normalize

section Words
variable {x y : Sfp}

theorem mulFinite_below (ret : Mysfp) (h : (x.exp : ℕ) + y.exp < 63) :
    mulFinite ret x.word y.word = { ret with exp := 0, frac := 0 } := if_pos h

theorem mulFinite_eq (ret : Mysfp) (h : 63 ≤ (x.exp : ℕ) + y.exp) : mulFinite ret x.word y.word =
    normalizeProduct { ret with exp := Fin.ofNat 128 (x.exp + y.exp - 63) }
      (roundUp (2 ^ 16) (x.signif * y.signif / 2 ^ 16) (x.signif * y.signif % 2 ^ 16)) := by
  have hsignif : ∀ c : Sfp,
      (if c.word.exp ≠ 0 then (c.word.frac : ℕ) ||| (1 <<< 16) else c.word.frac) = c.signif := by
    intro c
    unfold Sfp.signif
    rw [← frac_or, ite_not]
    rfl
  have hexp : ¬ (x.word.exp : ℕ) + y.word.exp < 63 := Nat.not_lt.2 h
  unfold mulFinite
  rw [if_neg hexp]
  dsimp only
  rw [hsignif, hsignif, roundSixteen_eq]
  rfl

end Words

end SoftFloat
