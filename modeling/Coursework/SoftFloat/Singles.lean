import Coursework.SoftFloat.Integers

/-! The conversions between single-precision floats and the floats of 24 bits. -/
namespace SoftFloat
open NearestEven

/-- The bits of a single-precision float. -/
structure Myfloat where
  sign : Fin 2
  exp : Fin 256
  frac : Fin 8388608
  deriving DecidableEq

section Source

/-- `float2sfp`; `ret` is what the variable for the result holds before it is written. -/
def float2sfp (ret : Mysfp) (mf : Myfloat) : Mysfp :=
  let ret := { ret with sign := mf.sign }
  if mf.exp = 255 then
    if mf.frac = 0 then { ret with exp := 127, frac := 0 } else { ret with exp := 127, frac := 1 }
  else if mf.exp = 0 ∧ mf.frac = 0 then { ret with exp := 0, frac := 0 }
  else if 190 ≤ (mf.exp : ℕ) then { ret with exp := 127, frac := 0 }
  else if mf.exp = 64 then
    { ret with exp := 0, frac := Fin.ofNat 65536 ((mf.frac : ℕ) >>> 8 ||| 1 <<< 15) }
  else if (mf.exp : ℕ) < 64 then { ret with exp := 0, frac := 0 }
  else
    { ret with
      exp := Fin.ofNat 128 ((mf.exp : ℕ) - 64), frac := Fin.ofNat 65536 ((mf.frac : ℕ) >>> 7) }

/-- `while(0==(signif&(1<<23)))`: the exponent and the significand after the loop. -/
def leadingBit : ℕ → ℕ → ℕ × ℕ
  | 0, signif => (0, signif)
  | exp + 1, signif =>
    if 0 = signif &&& 1 <<< 23 then leadingBit exp (signif <<< 1) else (exp + 1, signif)

def sfp2float (ms : Mysfp) : Myfloat :=
  if ms.exp = 0 then
    if ms.frac = 0 then ⟨ms.sign, 0, 0⟩
    else
      let (exp, signif) := leadingBit 64 ((ms.frac : ℕ) <<< 8)
      ⟨ms.sign, Fin.ofNat 256 exp, Fin.ofNat 8388608 signif⟩
  else ⟨ms.sign, Fin.ofNat 256 (ms.exp + 64), Fin.ofNat 8388608 ((ms.frac : ℕ) <<< 7)⟩

end Source

section Spec

def Myfloat.signif (f : Myfloat) : ℕ := if f.exp = 0 then f.frac else 2 ^ 23 + f.frac

def Myfloat.magnitude (f : Myfloat) : ℕ := f.signif * 2 ^ ((f.exp : ℕ) - 1)

/-- What a single-precision float stands for, in units of the least one, 2^-149. -/
def Myfloat.value (f : Myfloat) : Value :=
  if f.exp = 255 then if f.frac = 0 then .inf (decide (f.sign = 1)) else .nan
  else .fin (signed f.sign f.magnitude)

/-- A value in units of 2^-78 and the same value in units of 2^-149. -/
inductive SameValue : Value → Value → Prop
  | inf (s : Bool) : SameValue (.inf s) (.inf s)
  | fin (v : ℤ) : SameValue (.fin v) (.fin (v * 2 ^ 71))

/-- A value in units of 2^-149 truncated toward zero to a float of 24 bits, infinite from 2^64
on. -/
def truncated : Value → Value
  | .nan => .nan
  | .inf s => .inf s
  | .fin v =>
    if limit ≤ v.natAbs / 2 ^ 71 then .inf (decide (v < 0))
    else .fin (v.sign * truncate 17 (v.natAbs / 2 ^ 71))

end Spec

section ToFloat
variable {ms : Mysfp}

theorem and_leadingBit {g : ℕ} (h : g < 2 ^ 24) : 0 = g &&& 1 <<< 23 ↔ g < 2 ^ 23 := by
  rw [Nat.shiftLeft_eq, one_mul, Nat.and_two_pow, Nat.testBit_eq_decide_div_mod_eq]
  by_cases hg : g < 2 ^ 23
  · rw [Nat.div_eq_of_lt hg]
    exact iff_of_true rfl hg
  · have hone : g / 2 ^ 23 = 1 := by omega
    rw [hone]
    exact iff_of_false (by decide) hg

/-- The loop brings the leading bit to its place. -/
theorem leadingBit_spec {exp g : ℕ} (h24 : g < 2 ^ 24) (hexp : 2 ^ 23 ≤ g * 2 ^ exp) :
    ∃ j, leadingBit exp g = (exp - j, g * 2 ^ j) ∧ j ≤ exp ∧ 2 ^ 23 ≤ g * 2 ^ j ∧
      g * 2 ^ j < 2 ^ 24 ∧ (j = 0 ↔ 2 ^ 23 ≤ g) := by
  induction exp generalizing g with
  | zero =>
    rw [pow_zero, mul_one] at hexp
    exact ⟨0, by rw [pow_zero, mul_one]; rfl, le_rfl, by omega, by omega, by omega⟩
  | succ exp ih =>
    rw [leadingBit]
    by_cases hg : g < 2 ^ 23
    · have hmul : ∀ j, g * 2 * 2 ^ j = g * 2 ^ (j + 1) := fun j => by rw [pow_succ]; ring
      obtain ⟨j, hj, hle, hge, hlt, -⟩ := ih (g := g * 2) (by omega) (by rwa [hmul])
      rw [hmul] at hj hge hlt
      refine ⟨j + 1, ?_, by omega, hge, hlt, by omega⟩
      rw [if_pos ((and_leadingBit h24).2 hg), Nat.shiftLeft_eq, pow_one, hj]
      congr 1
      omega
    · refine ⟨0, ?_, Nat.zero_le _, by omega, by omega, by omega⟩
      rw [if_neg (mt (and_leadingBit h24).1 hg), pow_zero, mul_one]
      rfl

theorem sfp2float_denormal (h0 : ms.exp = 0) (hf : ms.frac ≠ 0) : ∃ j ≤ 15,
    sfp2float ms = ⟨ms.sign, Fin.ofNat 256 (64 - j),
      Fin.ofNat 8388608 ((ms.frac : ℕ) * 2 ^ 8 * 2 ^ j)⟩ ∧
      2 ^ 23 ≤ (ms.frac : ℕ) * 2 ^ 8 * 2 ^ j ∧ (ms.frac : ℕ) * 2 ^ 8 * 2 ^ j < 2 ^ 24 ∧
        (j = 0 ↔ 2 ^ 15 ≤ (ms.frac : ℕ)) := by
  have hpos : 0 < (ms.frac : ℕ) := Nat.pos_of_ne_zero fun he => hf (Fin.ext he)
  have hlt := ms.frac.isLt
  have hexp : 2 ^ 23 ≤ (ms.frac : ℕ) * 2 ^ 8 * 2 ^ 64 := by
    rw [mul_assoc, ← pow_add]
    exact le_trans (Nat.pow_le_pow_right (by decide) (by decide)) (Nat.le_mul_of_pos_left _ hpos)
  obtain ⟨j, hj, -, hge, hlt24, hzero⟩ := leadingBit_spec (by omega) hexp
  refine ⟨j, ?_, ?_, hge, hlt24, by omega⟩
  · by_contra hj15
    have hpow : 2 ^ 16 ≤ 2 ^ j := Nat.pow_le_pow_right (by decide) (by omega)
    have hle : 1 * 2 ^ 8 * 2 ^ 16 ≤ (ms.frac : ℕ) * 2 ^ 8 * 2 ^ j :=
      Nat.mul_le_mul (Nat.mul_le_mul_right _ hpos) hpow
    omega
  · rw [sfp2float, if_pos h0, if_neg hf, Nat.shiftLeft_eq, hj]

theorem Myfloat.value_normal (s : Fin 2) {e f : ℕ} (h0 : 0 < e) (h255 : e < 255)
    (hf : f < 2 ^ 23) : (⟨s, Fin.ofNat 256 e, Fin.ofNat 8388608 f⟩ : Myfloat).value =
      .fin (signed s ((2 ^ 23 + f) * 2 ^ (e - 1))) := by
  have he : ((Fin.ofNat 256 e : Fin 256) : ℕ) = e := Nat.mod_eq_of_lt (by omega)
  have hf' : ((Fin.ofNat 8388608 f : Fin 8388608) : ℕ) = f := Nat.mod_eq_of_lt hf
  have hne : Fin.ofNat 256 e ≠ 255 := fun h => by
    rw [h] at he
    change 255 = e at he
    omega
  have hne' : Fin.ofNat 256 e ≠ 0 := fun h => by
    rw [h] at he
    change 0 = e at he
    omega
  rw [Myfloat.value, if_neg hne, Myfloat.magnitude, Myfloat.signif]
  dsimp only
  rw [if_neg hne', he, hf']

theorem Myfloat.value_zero (s : Fin 2) : (⟨s, 0, 0⟩ : Myfloat).value = .fin (signed s 0) := by
  have hne : (0 : Fin 256) ≠ 255 := by decide
  have hfrac : ((0 : Fin 8388608) : ℕ) = 0 := rfl
  rw [Myfloat.value, if_neg hne, Myfloat.magnitude, Myfloat.signif, if_pos rfl, hfrac, Nat.zero_mul]

theorem sfp2float_normal (h0 : ms.exp ≠ 0) : sfp2float ms =
    ⟨ms.sign, Fin.ofNat 256 (ms.exp + 64), Fin.ofNat 8388608 ((ms.frac : ℕ) * 2 ^ 7)⟩ := by
  rw [sfp2float, if_neg h0, Nat.shiftLeft_eq]

/-- Only infinity is not converted to the same value. -/
theorem sfp2float_iff (hnan : ¬ms.toSfp.IsNan) :
    SameValue ms.value (sfp2float ms).value ↔ ms.exp ≠ 127 := by
  have hlt := ms.frac.isLt
  by_cases h127 : ms.exp = 127
  · refine iff_of_false (fun h => ?_) fun h => h h127
    have hinf : ms.toSfp.IsInf := ⟨h127, by_contra fun hf => hnan ⟨h127, hf⟩⟩
    have h0 : ms.exp ≠ 0 := by
      rw [h127]
      decide
    have hexp : (ms.exp : ℕ) = 127 := congrArg Fin.val h127
    rw [hinf.value, sfp2float_normal h0,
      Myfloat.value_normal ms.sign (by omega) (by omega) (by omega)] at h
    cases h
  refine iff_of_true ?_ h127
  have hscale : ∀ m m' : ℕ, m * 2 ^ 71 = m' →
      SameValue (.fin (signed ms.sign m)) (.fin (signed ms.sign m')) := by
    rintro m _ rfl
    have hcast : ((2 ^ 71 : ℕ) : ℤ) = 2 ^ 71 := by norm_num
    rw [← signed_mul, hcast]
    exact SameValue.fin _
  by_cases h0 : ms.exp = 0
  · have hmag : ms.magnitude = ms.frac := by
      have hsignif : ms.signif = ms.frac := if_pos h0
      have hplace : ms.place = 0 := by rw [Sfp.place, h0]; rfl
      rw [Sfp.magnitude, hsignif, hplace, pow_zero, mul_one]
    rw [Sfp.value_finite h127, hmag]
    by_cases hf : ms.frac = 0
    · have hfrac : (ms.frac : ℕ) = 0 := congrArg Fin.val hf
      rw [sfp2float, if_pos h0, if_pos hf, Myfloat.value_zero, hfrac]
      exact hscale 0 0 (Nat.zero_mul _)
    · obtain ⟨j, hj, hfloat, hge, hlt24, -⟩ := sfp2float_denormal h0 hf
      have hcut : Fin.ofNat 8388608 ((ms.frac : ℕ) * 2 ^ 8 * 2 ^ j) =
          Fin.ofNat 8388608 ((ms.frac : ℕ) * 2 ^ 8 * 2 ^ j - 2 ^ 23) := by
        refine Fin.ext ?_
        change _ % 8388608 = _ % 8388608
        omega
      rw [hfloat, hcut, Myfloat.value_normal ms.sign (by omega) (by omega) (by omega)]
      refine hscale _ _ ?_
      rw [Nat.add_sub_of_le hge, mul_assoc, mul_assoc, ← pow_add, ← pow_add]
      congr 2
      omega
  · have hexp := exp_lt h127
    have hpos := exp_pos h0
    rw [Sfp.value_finite h127, sfp2float_normal h0,
      Myfloat.value_normal ms.sign (by omega) (by omega) (by omega)]
    refine hscale _ _ ?_
    have hsignif : ms.signif = 65536 + (ms.frac : ℕ) := if_neg h0
    have hplace : (ms.exp : ℕ) + 64 - 1 = ms.place + 64 := by
      unfold Sfp.place
      omega
    rw [Sfp.magnitude, hsignif, hplace, pow_add]
    ring

end ToFloat

section FromFloat
variable {ret : Mysfp} {mf : Myfloat}

theorem truncated_signed (s : Fin 2) (m : ℕ) : truncated (.fin (signed s m)) =
    if limit ≤ m / 2 ^ 71 then .inf (decide (s = 1))
    else .fin (signed s (truncate 17 (m / 2 ^ 71))) := by
  rw [truncated, natAbs_signed]
  obtain rfl | hpos := Nat.eq_zero_or_pos m
  · have hsigned : signed s 0 = 0 := by
      unfold signed
      split <;> rfl
    have hzero : truncate 17 (0 / 2 ^ 71) = 0 := (truncate_eq_zero (by decide)).2 rfl
    have hlimit : ¬limit ≤ 0 / 2 ^ 71 := by decide
    rw [if_neg hlimit, if_neg hlimit, hzero, hsigned, Int.sign_zero, zero_mul]
  · have hsign : (signed s m).sign * (truncate 17 (m / 2 ^ 71) : ℤ) =
        signed s (truncate 17 (m / 2 ^ 71)) := by
      unfold signed
      split
      · rw [Int.sign_eq_one_of_pos (by omega), one_mul]
      · rw [Int.sign_eq_neg_one_of_neg (by omega), neg_one_mul]
    have hneg : signed s m < 0 ↔ s = 1 := by
      obtain rfl | rfl := sign_cases s
      · refine iff_of_false ?_ (by decide)
        rw [signed, if_pos rfl]
        omega
      · refine iff_of_true ?_ rfl
        rw [signed, if_neg (by decide)]
        omega
    rw [hsign, decide_eq_decide.2 hneg]

theorem Myfloat.value_finite (h : mf.exp ≠ 255) :
    mf.value = .fin (signed mf.sign mf.magnitude) := if_neg h

/-- The units of the floats of 24 bits in a large magnitude: the 17 bits that are kept, and the
others. -/
theorem units_split {g f e : ℕ} (h65 : 65 ≤ e) (hf : f < 2 ^ 7) :
    ∃ r < 2 ^ (e - 65), (g * 2 ^ 7 + f) * 2 ^ (e - 1) / 2 ^ 71 = g * 2 ^ (e - 65) + r := by
  have hpow : 2 ^ (e - 1) * 2 ^ 7 = 2 ^ (e - 65) * 2 ^ 71 := by
    rw [← pow_add, ← pow_add]
    congr 1
    omega
  refine ⟨f * 2 ^ (e - 1) / 2 ^ 71, ?_, ?_⟩
  · rw [Nat.div_lt_iff_lt_mul (Nat.two_pow_pos _), ← hpow, Nat.mul_comm]
    exact Nat.mul_lt_mul_of_pos_left hf (Nat.two_pow_pos _)
  · have hsplit : (g * 2 ^ 7 + f) * 2 ^ (e - 1) =
        f * 2 ^ (e - 1) + g * 2 ^ (e - 65) * 2 ^ 71 := by
      calc (g * 2 ^ 7 + f) * 2 ^ (e - 1) = f * 2 ^ (e - 1) + g * (2 ^ (e - 1) * 2 ^ 7) := by ring
        _ = f * 2 ^ (e - 1) + g * 2 ^ (e - 65) * 2 ^ 71 := by rw [hpow, mul_assoc]
    rw [hsplit, Nat.add_mul_div_right _ _ (Nat.two_pow_pos _), Nat.add_comm]

theorem Myfloat.magnitude_normal (h0 : mf.exp ≠ 0) :
    mf.magnitude = (2 ^ 23 + (mf.frac : ℕ)) * 2 ^ ((mf.exp : ℕ) - 1) := by
  rw [Myfloat.magnitude, Myfloat.signif, if_neg h0]

theorem value_zero (s : Fin 2) : (⟨s, 0, 0⟩ : Sfp).value = .fin (signed s 0) := value_denormal s 0

theorem signed_eq_fin {s : Fin 2} {m m' : ℕ} :
    Value.fin (signed s m) = .fin (signed s m') ↔ m = m' := by
  rw [Value.fin.injEq, signed_inj]

theorem float2sfp_denormal (he : mf.exp = 64) : (float2sfp ret mf).toSfp =
    ⟨mf.sign, 0, Fin.ofNat 65536 (2 ^ 15 + (mf.frac : ℕ) / 2 ^ 8)⟩ := by
  have hfrac := mf.frac.isLt
  have hne : mf.exp ≠ 255 := by
    rw [he]
    decide
  have h0 : mf.exp ≠ 0 := by
    rw [he]
    decide
  have hexp : (mf.exp : ℕ) = 64 := congrArg Fin.val he
  have hbits : (mf.frac : ℕ) >>> 8 ||| 1 <<< 15 = 2 ^ 15 + (mf.frac : ℕ) / 2 ^ 8 := by
    have hlt : (mf.frac : ℕ) / 2 ^ 8 < 2 ^ 15 := by omega
    have hor := Nat.two_pow_add_eq_or_of_lt hlt 1
    rw [Nat.shiftRight_eq_div_pow, Nat.or_comm, Nat.shiftLeft_eq, one_mul]
    rw [mul_one] at hor
    exact hor.symm
  unfold float2sfp
  rw [if_neg hne, if_neg fun h => h0 h.1, if_neg (by omega), if_pos he, hbits]

theorem float2sfp_below (hlt : (mf.exp : ℕ) < 64) :
    (float2sfp ret mf).toSfp = ⟨mf.sign, 0, 0⟩ := by
  have hne : mf.exp ≠ 255 := fun he => by
    rw [he] at hlt
    exact absurd hlt (by decide)
  have hne' : mf.exp ≠ 64 := fun he => by
    rw [he] at hlt
    exact absurd hlt (by decide)
  unfold float2sfp
  rw [if_neg hne]
  by_cases hzero : mf.exp = 0 ∧ mf.frac = 0
  · rw [if_pos hzero]
  · rw [if_neg hzero, if_neg (by omega), if_neg hne', if_pos hlt]

theorem float2sfp_inf (h190 : 190 ≤ (mf.exp : ℕ)) (h255 : mf.exp ≠ 255) :
    (float2sfp ret mf).toSfp = ⟨mf.sign, 127, 0⟩ := by
  have h0 : mf.exp ≠ 0 := fun he => by
    rw [he] at h190
    exact absurd h190 (by decide)
  unfold float2sfp
  rw [if_neg h255, if_neg fun h => h0 h.1, if_pos h190]

/-- A single of less than 2^-62 is a denormal float or less than every one. -/
theorem float2sfp_small (h64 : (mf.exp : ℕ) ≤ 64) :
    (float2sfp ret mf).value = truncated mf.value ↔ (mf.exp : ℕ) < 49 ∨ (mf.exp : ℕ) = 64 := by
  have hne : mf.exp ≠ 255 := fun he => by
    rw [he] at h64
    exact absurd h64 (by decide)
  have hfrac := mf.frac.isLt
  have hlimit : ¬limit ≤ mf.magnitude / 2 ^ 71 := by
    have hmag : mf.magnitude < 2 ^ 24 * 2 ^ 63 := by
      have hsignif : mf.signif < 2 ^ 24 := by
        unfold Myfloat.signif
        split <;> omega
      exact Nat.mul_lt_mul_of_lt_of_le hsignif
        (Nat.pow_le_pow_right (by decide) (by omega)) (Nat.two_pow_pos _)
    have hpow : 2 ^ 24 * 2 ^ 63 ≤ limit := by decide
    have hdiv := Nat.div_le_self mf.magnitude (2 ^ 71)
    omega
  rw [Myfloat.value_finite hne, truncated_signed, if_neg hlimit]
  by_cases he : mf.exp = 64
  · have hexp : (mf.exp : ℕ) = 64 := congrArg Fin.val he
    have h0 : mf.exp ≠ 0 := by
      rw [he]
      decide
    have hcast : ((Fin.ofNat 65536 (2 ^ 15 + (mf.frac : ℕ) / 2 ^ 8) : Fin 65536) : ℕ) =
        2 ^ 15 + (mf.frac : ℕ) / 2 ^ 8 := Nat.mod_eq_of_lt (by omega)
    have hunits : mf.magnitude / 2 ^ 71 = 2 ^ 15 + (mf.frac : ℕ) / 2 ^ 8 := by
      have hden : 2 ^ 71 = 2 ^ 8 * 2 ^ 63 := by rw [← pow_add]
      rw [Myfloat.magnitude_normal h0, hexp, hden, Nat.mul_div_mul_right _ _ (Nat.two_pow_pos _)]
      omega
    refine iff_of_true ?_ (.inr hexp)
    rw [float2sfp_denormal he, hunits, truncate_of_lt (by omega), value_denormal, hcast]
  have hlt : (mf.exp : ℕ) < 64 := by
    have hne64 : (mf.exp : ℕ) ≠ 64 := fun h => he (Fin.ext h)
    omega
  have hcode : (float2sfp ret mf).value = .fin (signed mf.sign 0) := by
    rw [float2sfp_below hlt, value_zero]
  rw [hcode, signed_eq_fin, eq_comm, truncate_eq_zero (by decide)]
  have hiff : mf.magnitude / 2 ^ 71 = 0 ↔ mf.magnitude < 2 ^ 71 := by
    rw [Nat.div_eq_zero_iff]
    simp
  rw [hiff]
  by_cases h49 : (mf.exp : ℕ) < 49
  · refine iff_of_true ?_ (.inl h49)
    have hsignif : mf.signif < 2 ^ 24 := by
      unfold Myfloat.signif
      split <;> omega
    calc mf.magnitude < 2 ^ 24 * 2 ^ ((mf.exp : ℕ) - 1) :=
          Nat.mul_lt_mul_of_pos_right hsignif (Nat.two_pow_pos _)
      _ ≤ 2 ^ 24 * 2 ^ 47 := Nat.mul_le_mul_left _ (Nat.pow_le_pow_right (by decide) (by omega))
      _ = 2 ^ 71 := by rw [← pow_add]
  · refine iff_of_false ?_ (by omega)
    have h0 : mf.exp ≠ 0 := fun h => by
      rw [h] at h49
      exact h49 (by decide)
    rw [Myfloat.magnitude_normal h0, not_lt]
    calc 2 ^ 71 = 2 ^ 23 * 2 ^ 48 := by rw [← pow_add]
      _ ≤ (2 ^ 23 + (mf.frac : ℕ)) * 2 ^ ((mf.exp : ℕ) - 1) :=
          Nat.mul_le_mul (by omega) (Nat.pow_le_pow_right (by decide) (by omega))

theorem float2sfp_normal (h64 : 64 < (mf.exp : ℕ)) (h190 : (mf.exp : ℕ) < 190) :
    (float2sfp ret mf).toSfp = ⟨mf.sign, Fin.ofNat 128 ((mf.exp : ℕ) - 64),
      Fin.ofNat 65536 ((mf.frac : ℕ) / 2 ^ 7)⟩ := by
  have hne : mf.exp ≠ 255 := fun he => by
    rw [he] at h190
    exact absurd h190 (by decide)
  have hzero : ¬(mf.exp = 0 ∧ mf.frac = 0) := fun h => by
    rw [h.1] at h64
    exact absurd h64 (by decide)
  have hne' : mf.exp ≠ 64 := fun he => by
    rw [he] at h64
    exact absurd h64 (by decide)
  unfold float2sfp
  rw [if_neg hne, if_neg hzero, if_neg (by omega), if_neg hne', if_neg (by omega),
    Nat.shiftRight_eq_div_pow]

theorem float2sfp_value (h64 : 64 < (mf.exp : ℕ)) (h190 : (mf.exp : ℕ) < 190) :
    (float2sfp ret mf).value = truncated mf.value := by
  have hne : mf.exp ≠ 255 := fun he => by
    rw [he] at h190
    exact absurd h190 (by decide)
  have h0 : mf.exp ≠ 0 := fun he => by
    rw [he] at h64
    exact absurd h64 (by decide)
  have hfrac := mf.frac.isLt
  have he : ((Fin.ofNat 128 ((mf.exp : ℕ) - 64) : Fin 128) : ℕ) = (mf.exp : ℕ) - 64 :=
    Nat.mod_eq_of_lt (by omega)
  have hf : ((Fin.ofNat 65536 ((mf.frac : ℕ) / 2 ^ 7) : Fin 65536) : ℕ) = (mf.frac : ℕ) / 2 ^ 7 :=
    Nat.mod_eq_of_lt (by omega)
  have he0 : Fin.ofNat 128 ((mf.exp : ℕ) - 64) ≠ 0 := fun h => by
    rw [h] at he
    change 0 = _ at he
    omega
  have he127 : Fin.ofNat 128 ((mf.exp : ℕ) - 64) ≠ 127 := fun h => by
    rw [h] at he
    change 127 = _ at he
    omega
  have hvalue := value_normal mf.sign he0 he127 (Fin.ofNat 65536 ((mf.frac : ℕ) / 2 ^ 7))
  have hplace : (mf.exp : ℕ) - 64 - 1 = (mf.exp : ℕ) - 65 := by omega
  rw [he, hf, hplace] at hvalue
  obtain ⟨r, hr, hunits⟩ := units_split (g := 65536 + (mf.frac : ℕ) / 2 ^ 7)
    (f := (mf.frac : ℕ) % 2 ^ 7) (e := mf.exp) (by omega) (Nat.mod_lt _ (by decide))
  have hmag : mf.magnitude / 2 ^ 71 =
      (65536 + (mf.frac : ℕ) / 2 ^ 7) * 2 ^ ((mf.exp : ℕ) - 65) + r := by
    have hsignif : 2 ^ 23 + (mf.frac : ℕ) =
        (65536 + (mf.frac : ℕ) / 2 ^ 7) * 2 ^ 7 + (mf.frac : ℕ) % 2 ^ 7 := by omega
    rw [Myfloat.magnitude_normal h0, hsignif, hunits]
  have htruncate := truncate_of_full (p := 17) (q := 65536 + (mf.frac : ℕ) / 2 ^ 7) (by decide) hr
    (by omega) (by omega)
  have hlimit : ¬limit ≤ mf.magnitude / 2 ^ 71 := by
    have hlt : (65536 + (mf.frac : ℕ) / 2 ^ 7 + 1) * 2 ^ ((mf.exp : ℕ) - 65) ≤
        2 ^ 17 * 2 ^ 124 :=
      Nat.mul_le_mul (by omega) (Nat.pow_le_pow_right (by decide) (by omega))
    have hpow : 2 ^ 17 * 2 ^ 124 < limit := by decide
    rw [add_mul, one_mul] at hlt
    rw [hmag]
    omega
  rw [Myfloat.value_finite hne, truncated_signed, if_neg hlimit, hmag, htruncate]
  exact (congrArg Sfp.value (float2sfp_normal h64 h190)).trans hvalue

/-- From the exponent 190 on the result is infinite, and should be from 191 on. -/
theorem float2sfp_large (h190 : 190 ≤ (mf.exp : ℕ)) (h255 : mf.exp ≠ 255) :
    (float2sfp ret mf).value = truncated mf.value ↔ (mf.exp : ℕ) ≠ 190 := by
  have h0 : mf.exp ≠ 0 := fun he => by
    rw [he] at h190
    exact absurd h190 (by decide)
  have hfrac := mf.frac.isLt
  have hcode : (float2sfp ret mf).value = .inf (decide (mf.sign = 1)) := by
    rw [float2sfp_inf h190 h255]
    exact Sfp.IsInf.value ⟨rfl, rfl⟩
  rw [hcode, Myfloat.value_finite h255, truncated_signed, Myfloat.magnitude_normal h0]
  by_cases he : (mf.exp : ℕ) = 190
  · have hlimit : ¬limit ≤ (2 ^ 23 + (mf.frac : ℕ)) * 2 ^ ((mf.exp : ℕ) - 1) / 2 ^ 71 := by
      rw [not_le, Nat.div_lt_iff_lt_mul (Nat.two_pow_pos _), he, limit, ← pow_add]
      calc (2 ^ 23 + (mf.frac : ℕ)) * 2 ^ (190 - 1) < 2 ^ 24 * 2 ^ (190 - 1) :=
            Nat.mul_lt_mul_of_pos_right (by omega) (Nat.two_pow_pos _)
        _ = 2 ^ (142 + 71) := by rw [← pow_add]
    rw [if_neg hlimit]
    exact iff_of_false (by simp) fun h => h he
  · have hlimit : limit ≤ (2 ^ 23 + (mf.frac : ℕ)) * 2 ^ ((mf.exp : ℕ) - 1) / 2 ^ 71 := by
      rw [Nat.le_div_iff_mul_le (Nat.two_pow_pos _), limit, ← pow_add]
      calc 2 ^ (142 + 71) = 2 ^ 23 * 2 ^ 190 := by rw [← pow_add]
        _ ≤ (2 ^ 23 + (mf.frac : ℕ)) * 2 ^ ((mf.exp : ℕ) - 1) :=
            Nat.mul_le_mul (by omega) (Nat.pow_le_pow_right (by decide) (by omega))
    rw [if_pos hlimit]
    exact iff_of_true rfl he

def Myfloat.IsNan (mf : Myfloat) : Prop := mf.exp = 255 ∧ mf.frac ≠ 0

theorem float2sfp_iff (hnan : ¬mf.IsNan) : (float2sfp ret mf).value = truncated mf.value ↔
    ((mf.exp : ℕ) < 49 ∨ 63 < (mf.exp : ℕ)) ∧ (mf.exp : ℕ) ≠ 190 := by
  by_cases h255 : mf.exp = 255
  · have hfrac : mf.frac = 0 := by_contra fun hf => hnan ⟨h255, hf⟩
    have hexp : (mf.exp : ℕ) = 255 := congrArg Fin.val h255
    refine iff_of_true ?_ (by omega)
    rw [Myfloat.value, if_pos h255, if_pos hfrac, float2sfp, if_pos h255, if_pos hfrac]
    exact Sfp.IsInf.value (x := ⟨mf.sign, 127, 0⟩) ⟨rfl, rfl⟩
  obtain h64 | h64 := Nat.lt_or_ge 64 (mf.exp : ℕ)
  · obtain h190 | h190 := Nat.lt_or_ge (mf.exp : ℕ) 190
    · exact iff_of_true (float2sfp_value h64 h190) (by omega)
    · rw [float2sfp_large h190 h255]
      omega
  · rw [float2sfp_small h64]
    omega

end FromFloat

section Both
variable {ms : Mysfp}

/-- The way through a single and back. -/
theorem float2sfp_sfp2float (ret : Mysfp) (hnan : ¬ms.toSfp.IsNan) :
    (float2sfp ret (sfp2float ms)).toSfp = ms.toSfp ↔
      ms.exp ≠ 126 ∧ (ms.exp = 0 → ms.frac = 0 ∨ 2 ^ 15 ≤ (ms.frac : ℕ)) := by
  have hlt := ms.frac.isLt
  by_cases h0 : ms.exp = 0
  · have h126 : ms.exp ≠ 126 := by
      rw [h0]
      decide
    rw [and_iff_right h126, imp_iff_right h0]
    by_cases hf : ms.frac = 0
    · refine iff_of_true ?_ (.inl hf)
      have hfloat : sfp2float ms = ⟨ms.sign, 0, 0⟩ := by rw [sfp2float, if_pos h0, if_pos hf]
      rw [hfloat, float2sfp_below (Nat.succ_pos 63), ← h0, ← hf]
    · rw [or_iff_right hf]
      obtain ⟨j, hj, hfloat, hge, hlt24, hzero⟩ := sfp2float_denormal h0 hf
      rw [hfloat, ← hzero]
      by_cases hj0 : j = 0
      · refine iff_of_true ?_ hj0
        subst hj0
        have hcut : ((Fin.ofNat 8388608 ((ms.frac : ℕ) * 2 ^ 8 * 2 ^ 0) : Fin 8388608) : ℕ) =
            (ms.frac : ℕ) * 2 ^ 8 - 2 ^ 23 := by
          change _ % 8388608 = _
          omega
        have hfrac : Fin.ofNat 65536 (2 ^ 15 + ((ms.frac : ℕ) * 2 ^ 8 - 2 ^ 23) / 2 ^ 8) =
            ms.frac := by
          refine Fin.ext ?_
          change _ % 65536 = _
          omega
        rw [float2sfp_denormal rfl]
        dsimp only
        rw [hcut, hfrac, ← h0]
      · refine iff_of_false (fun h => ?_) hj0
        have hexp : ((Fin.ofNat 256 (64 - j) : Fin 256) : ℕ) < 64 := by
          change _ % 256 < 64
          omega
        rw [float2sfp_below hexp] at h
        exact hf (congrArg Sfp.frac h).symm
  · have hpos := exp_pos h0
    have he : ((Fin.ofNat 256 (ms.exp + 64) : Fin 256) : ℕ) = ms.exp + 64 :=
      Nat.mod_eq_of_lt (by omega)
    rw [sfp2float_normal h0]
    by_cases h125 : (ms.exp : ℕ) < 126
    · have h126 : ms.exp ≠ 126 := fun h => by
        rw [h] at h125
        exact absurd h125 (by decide)
      refine iff_of_true ?_ ⟨h126, fun h => absurd h h0⟩
      have hexp : Fin.ofNat 128 ((ms.exp : ℕ) + 64 - 64) = ms.exp := by
        refine Fin.ext ?_
        change _ % 128 = _
        omega
      have hfrac : Fin.ofNat 65536
          (((Fin.ofNat 8388608 ((ms.frac : ℕ) * 2 ^ 7) : Fin 8388608) : ℕ) / 2 ^ 7) =
            ms.frac := by
        refine Fin.ext ?_
        change _ % 8388608 / 2 ^ 7 % 65536 = _
        omega
      rw [float2sfp_normal (by dsimp only; omega) (by dsimp only; omega)]
      dsimp only
      rw [he, hexp, hfrac]
    · have h255 : Fin.ofNat 256 (ms.exp + 64) ≠ 255 := fun h => by
        rw [h] at he
        change 255 = _ at he
        omega
      rw [float2sfp_inf (by dsimp only; omega) h255]
      by_cases h127 : ms.exp = 127
      · have hf : ms.frac = 0 := by_contra fun hf => hnan ⟨h127, hf⟩
        have h126 : ms.exp ≠ 126 := by
          rw [h127]
          decide
        refine iff_of_true ?_ ⟨h126, fun h => absurd h h0⟩
        rw [← h127, ← hf]
      · refine iff_of_false (fun h => h127 (congrArg Sfp.exp h).symm) fun h => h.1 ?_
        have hlt127 := exp_lt h127
        have h126 : (ms.exp : ℕ) = 126 := by omega
        exact Fin.ext h126

/-- When each of the conversions is right: `sfp2float` for all finite floats, the way back for
those that are not the largest or the least ones, and `float2sfp` for singles that are neither. -/
theorem singles_iff (ret ms : Mysfp) (mf : Myfloat) (hms : ¬ms.toSfp.IsNan) (hmf : ¬mf.IsNan) :
    (SameValue ms.value (sfp2float ms).value ↔ ms.exp ≠ 127) ∧
      ((float2sfp ret (sfp2float ms)).toSfp = ms.toSfp ↔
          ms.exp ≠ 126 ∧ (ms.exp = 0 → ms.frac = 0 ∨ 2 ^ 15 ≤ (ms.frac : ℕ))) ∧
        ((float2sfp ret mf).value = truncated mf.value ↔
          ((mf.exp : ℕ) < 49 ∨ 63 < (mf.exp : ℕ)) ∧ (mf.exp : ℕ) ≠ 190) :=
  ⟨sfp2float_iff hms, float2sfp_sfp2float ret hms, float2sfp_iff hmf⟩

/-- The float 1.5 and the single 1.5. -/
theorem singles_half :
    SameValue (Sfp.value ⟨0, 63, 0x8000⟩) (sfp2float (Sfp.word ⟨0, 63, 0x8000⟩)).value ∧
      (float2sfp (Sfp.word ⟨0, 0, 0⟩) (sfp2float (Sfp.word ⟨0, 63, 0x8000⟩))).toSfp =
          ⟨0, 63, 0x8000⟩ ∧
        (float2sfp (Sfp.word ⟨0, 0, 0⟩) ⟨0, 127, 0x400000⟩).value =
          truncated (Myfloat.value ⟨0, 127, 0x400000⟩) := by
  have hmf : ¬(⟨0, 127, 0x400000⟩ : Myfloat).IsNan := fun h => absurd h.1 (by decide)
  have hms : ¬(Sfp.word ⟨0, 63, 0x8000⟩).toSfp.IsNan := fun h => absurd h.1 (by decide)
  obtain ⟨hfloat, htrip, hsfp⟩ := singles_iff (Sfp.word ⟨0, 0, 0⟩) _ _ hms hmf
  exact ⟨hfloat.2 (by decide), htrip.2 (by decide), hsfp.2 (by decide)⟩

/-- Infinity becomes the single 2^64, the largest float comes back as infinity, and the single
2^63 becomes infinite. -/
theorem singles_large :
    ¬SameValue (Sfp.value ⟨0, 127, 0⟩) (sfp2float (Sfp.word ⟨0, 127, 0⟩)).value ∧
      (float2sfp (Sfp.word ⟨0, 0, 0⟩) (sfp2float (Sfp.word ⟨0, 126, 0xFFFF⟩))).toSfp ≠
          ⟨0, 126, 0xFFFF⟩ ∧
        (float2sfp (Sfp.word ⟨0, 0, 0⟩) ⟨0, 190, 0⟩).value ≠
          truncated (Myfloat.value ⟨0, 190, 0⟩) := by
  have hinf : ¬(Sfp.word ⟨0, 127, 0⟩).toSfp.IsNan := fun h => h.2 rfl
  have hlargest : ¬(Sfp.word ⟨0, 126, 0xFFFF⟩).toSfp.IsNan := fun h => absurd h.1 (by decide)
  have hmf : ¬(⟨0, 190, 0⟩ : Myfloat).IsNan := fun h => absurd h.1 (by decide)
  exact ⟨fun h => (sfp2float_iff hinf).1 h rfl,
    fun h => ((float2sfp_sfp2float _ hlargest).1 h).1 rfl,
    fun h => ((float2sfp_iff hmf).1 h).2 rfl⟩

end Both

end SoftFloat
