import Coursework.Lib.CInt
import Coursework.Lib.Truncation
import Coursework.SoftFloat.Exact

/-! The conversions between `int` and the floats of 24 bits. -/
namespace SoftFloat
open CInt NearestEven

section Source

/-- `<<` of an unsigned number; a shift by 32 or more is undefined. -/
def shl (u k : ℕ) : Option ℕ := if k < 32 then some ((u <<< k) % 2 ^ 32) else none

def fraclength (n x : ℕ) : Option Bool := do
  let lbound ← shl 0 x
  let rbound ← shl 1 (x + 1)
  return decide (lbound ≤ n ∧ n < rbound)

/-- The last `k` rounds of the loop of `getfraclength`, which ends with round 31. -/
def getfraclengthFrom (n : ℕ) : ℕ → Option ℤ
  | 0 => some (-1)
  | k + 1 => do
    if ← fraclength n (31 - k) then some (31 - k : ℕ) else getfraclengthFrom n k

def unsigned (n : ℤ) : ℕ := (n % 2 ^ 32).toNat

def getfraclength (n : ℤ) : Option ℤ := getfraclengthFrom (unsigned n) 31

def getfracbit (n s : ℤ) : Option ℕ :=
  if s < 16 then shl (unsigned n) (16 - s).toNat else some (unsigned n)

/-- `int2sfp`; `ret` is what the variable for the result holds before it is written. -/
def int2sfp (ret : Mysfp) (input : ℤ) : Option Mysfp :=
  if input = 0 then some { ret with sign := 0, exp := 0, frac := 0 }
  else
    let sign : Fin 2 := if input < 0 then 1 else 0
    -- `(~input)+1`
    (if input < 0 then checked ((-1 - input) + 1) else some input).bind fun input =>
      (if input = 1 then some 0 else getfraclength input).bind fun shiftnum =>
        (getfracbit input shiftnum).bind fun frac =>
          some { ret with
            sign := sign
            exp := Fin.ofNat 128 (shiftnum + 63).toNat
            frac := Fin.ofNat 65536 frac }

def TMin : ℤ := -2147483648
def TMax : ℤ := 2147483647

def sfp2int (ms : Mysfp) : ℤ :=
  if ms.exp = 0 then 0
  else if ms.exp = 127 then
    if ms.frac = 0 then if ms.sign ≠ 0 then TMin else TMax else TMin
  else if (ms.exp : ℕ) < 63 then 0
  else
    let exp := (ms.exp : ℕ) - 63
    if 31 ≤ exp then if ms.sign ≠ 0 then TMin else TMax
    else
      let frac := if exp ≤ 16 then (ms.frac : ℕ) >>> (16 - exp) else (ms.frac : ℕ) >>> 16
      let frac := frac + 1 <<< exp
      -- `(~frac)+1`
      let frac := if ms.sign ≠ 0 then (2 ^ 32 - frac) % 2 ^ 32 else frac
      (frac % 2 ^ 31 : ℕ) - (ms.sign : ℤ) * 2 ^ 31

end Source

section Spec

/-- The range of an `int`, with saturation. -/
def saturate (z : ℤ) : ℤ := max TMin (min z TMax)

/-- A number truncated toward zero to 17 significant bits. -/
def truncate17 (n : ℤ) : ℤ := n.sign * truncate 17 n.natAbs

/-- `int2sfp` has the sign of the number and its 17 leading bits. -/
def IntRight (ret : Mysfp) (n : ℤ) : Prop :=
  ∃ r, int2sfp ret n = some r ∧ (r.sign = 1 ↔ n < 0) ∧ r.value = .fin (truncate17 n * 2 ^ 78)

/-- `sfp2int` truncates toward zero and saturates. -/
def SfpRight (ms : Mysfp) : Prop :=
  ∀ v, ms.value = .fin v → sfp2int ms = saturate (v.tdiv (2 ^ 78))

def RoundTrip (ret : Mysfp) (n : ℤ) : Prop :=
  ∃ r, int2sfp ret n = some r ∧ sfp2int r = truncate17 n

end Spec

section FromInt
variable {ret : Mysfp} {n : ℤ} {m : ℕ}

theorem shl_eq {u k : ℕ} (hk : k < 32) (h : u * 2 ^ k < 2 ^ 32) : shl u k = some (u * 2 ^ k) := by
  rw [shl, if_pos hk, Nat.shiftLeft_eq, Nat.mod_eq_of_lt h]

theorem fraclength_eq {x : ℕ} (hx : x < 31) :
    fraclength m x = some (decide (m.size ≤ x + 1)) := by
  have hpow : 1 * 2 ^ (x + 1) < 2 ^ 32 := by
    rw [one_mul]
    exact Nat.pow_lt_pow_right (by decide) (by omega)
  rw [fraclength, shl_eq (by omega) (by simp), Option.bind_eq_bind, Option.bind_some,
    shl_eq (by omega) hpow, Option.bind_some]
  simp [Nat.size_le]

/-- The loop finds the place of the leading bit. -/
theorem getfraclengthFrom_eq (h31 : m < 2 ^ 31) {k : ℕ} (hk : k ≤ 31)
    (hm : 2 ^ (32 - k) ≤ m) : getfraclengthFrom m k = some ((m.size - 1 : ℕ) : ℤ) := by
  have hsize : m.size ≤ 31 := Nat.size_le.2 h31
  induction k with
  | zero =>
    have hlt : m < 2 ^ 32 := lt_trans h31 (by decide)
    omega
  | succ k ih =>
    have hgt : 31 - k < m.size := by
      rw [Nat.lt_size]
      have he : 32 - (k + 1) = 31 - k := by omega
      rwa [← he]
    rw [getfraclengthFrom, fraclength_eq (by omega), Option.bind_eq_bind, Option.bind_some]
    by_cases hle : m.size ≤ 31 - k + 1
    · have he : 31 - k = m.size - 1 := by omega
      rw [decide_eq_true hle, if_pos rfl, he]
    · have hpow : 2 ^ (32 - k) ≤ m := by
        rw [← Nat.lt_size]
        omega
      rw [decide_eq_false hle, if_neg Bool.false_ne_true]
      exact ih (by omega) hpow

theorem unsigned_natCast (h : m < 2 ^ 32) : unsigned m = m := by
  unfold unsigned
  omega

/-- The fraction bits of a positive number, before they are cut to 16. -/
def fracBits (m : ℕ) : ℕ := if m.size ≤ 16 then m * 2 ^ (17 - m.size) else m

theorem getfracbit_eq (h0 : 0 < m) (h31 : m < 2 ^ 31) :
    getfracbit m ((m.size - 1 : ℕ) : ℤ) = some (fracBits m) := by
  have hpos : 0 < m.size := Nat.size_pos.2 h0
  rw [getfracbit, unsigned_natCast (lt_trans h31 (by decide)), fracBits]
  by_cases hsize : m.size ≤ 16
  · have hk : (16 - ((m.size - 1 : ℕ) : ℤ)).toNat = 17 - m.size := by omega
    have hlt : m * 2 ^ (17 - m.size) < 2 ^ 32 := by
      calc m * 2 ^ (17 - m.size) < 2 ^ m.size * 2 ^ (17 - m.size) :=
            Nat.mul_lt_mul_of_pos_right (Nat.size_le.1 le_rfl) (Nat.two_pow_pos _)
        _ = 2 ^ 17 := by rw [← pow_add]; congr 1; omega
        _ < 2 ^ 32 := by decide
    rw [if_pos (by omega), if_pos hsize, hk, shl_eq (by omega) hlt]
  · rw [if_neg (by omega), if_neg hsize]

/-- The result for a number that is neither zero nor the least one. -/
theorem int2sfp_eq (h0 : n ≠ 0) (h31 : n.natAbs < 2 ^ 31) : int2sfp ret n = some { ret with
    sign := if n < 0 then 1 else 0
    exp := Fin.ofNat 128 (n.natAbs.size + 62)
    frac := Fin.ofNat 65536 (fracBits n.natAbs) } := by
  have hpos : 0 < n.natAbs := Int.natAbs_pos.2 h0
  have habs : (if n < 0 then checked ((-1 - n) + 1) else some n) = some (n.natAbs : ℤ) := by
    by_cases hneg : n < 0
    · have hn : (-1 - n) + 1 = (n.natAbs : ℤ) := by omega
      rw [if_pos hneg, hn, checked_natCast h31]
    · have hn : n = (n.natAbs : ℤ) := by omega
      rw [if_neg hneg, ← hn]
  have hshift : (if (n.natAbs : ℤ) = 1 then some 0 else getfraclength n.natAbs) =
      some ((n.natAbs.size - 1 : ℕ) : ℤ) := by
    by_cases hone : n.natAbs = 1
    · rw [if_pos (by omega), hone]
      rfl
    · rw [if_neg (by omega), getfraclength, unsigned_natCast (by omega)]
      exact getfraclengthFrom_eq h31 le_rfl (by omega)
  have hsize : 0 < n.natAbs.size := Nat.size_pos.2 hpos
  have hexp : (((n.natAbs.size - 1 : ℕ) : ℤ) + 63).toNat = n.natAbs.size + 62 := by omega
  rw [int2sfp, if_neg h0]
  simp only [habs, Option.bind_some, hshift, getfracbit_eq hpos h31, hexp]

theorem int2sfp_min (ret : Mysfp) : int2sfp ret TMin = none := by
  have hover : checked ((-1 - TMin) + 1) = none := if_neg (by decide)
  have hneg : TMin < 0 := by decide
  rw [int2sfp, if_neg (by decide)]
  simp only [if_pos hneg, hover, Option.bind_none]

theorem truncate17_eq (n : ℤ) :
    truncate17 n = signed (if n < 0 then 1 else 0) (truncate 17 n.natAbs) := by
  unfold truncate17 signed
  obtain hneg | rfl | hpos := lt_trichotomy n 0
  · rw [if_pos hneg, if_neg (by decide), Int.sign_eq_neg_one_of_neg hneg, neg_one_mul]
  · rfl
  · rw [if_neg (not_lt.2 hpos.le), if_pos rfl, Int.sign_eq_one_of_pos hpos, one_mul]

theorem signed_mul (s : Fin 2) (m k : ℕ) : signed s m * k = signed s (m * k) := by
  unfold signed
  split
  · exact (Nat.cast_mul m k).symm
  · rw [neg_mul, Nat.cast_mul]

theorem truncate17_mul (n : ℤ) : truncate17 n * 2 ^ 78 =
    signed (if n < 0 then 1 else 0) (truncate 17 n.natAbs * 2 ^ 78) := by
  have hcast : ((2 ^ 78 : ℕ) : ℤ) = 2 ^ 78 := by norm_num
  rw [truncate17_eq, ← signed_mul, hcast]

theorem fracBits_of_size_le (h : m.size ≤ 17) : fracBits m = m * 2 ^ (17 - m.size) := by
  unfold fracBits
  split
  · rfl
  · have hzero : 17 - m.size = 0 := by omega
    rw [hzero, pow_zero, mul_one]

theorem significand_eq (h0 : 0 < m) (h : m.size ≤ 17) :
    65536 + fracBits m % 65536 = m * 2 ^ (17 - m.size) := by
  have hpos : 0 < m.size := Nat.size_pos.2 h0
  have hlt : m * 2 ^ (17 - m.size) < 2 ^ 17 := by
    calc m * 2 ^ (17 - m.size) < 2 ^ m.size * 2 ^ (17 - m.size) :=
          Nat.mul_lt_mul_of_pos_right (Nat.size_le.1 le_rfl) (Nat.two_pow_pos _)
      _ = 2 ^ 17 := by rw [← pow_add]; congr 1; omega
  have hge : 2 ^ 16 ≤ m * 2 ^ (17 - m.size) := by
    calc 2 ^ 16 = 2 ^ (m.size - 1) * 2 ^ (17 - m.size) := by rw [← pow_add]; congr 1; omega
      _ ≤ m * 2 ^ (17 - m.size) := Nat.mul_le_mul_right _ (Nat.lt_size.1 (by omega))
  rw [fracBits_of_size_le h]
  omega

theorem magnitude_iff (h0 : 0 < m) :
    (65536 + fracBits m % 65536) * 2 ^ (m.size + 61) = truncate 17 m * 2 ^ 78 ↔
      m / 2 ^ (m.size - 17) % 2 ^ 16 = m % 2 ^ 16 := by
  by_cases hsize : m.size ≤ 17
  · have hzero : m.size - 17 = 0 := by omega
    refine iff_of_true ?_ ?_
    · rw [significand_eq h0 hsize, truncate_of_lt (Nat.size_le.1 hsize), mul_assoc, ← pow_add]
      congr 2
      omega
    · rw [hzero, pow_zero, Nat.div_one]
  · obtain ⟨hle, -⟩ | ⟨hge, hlt, -⟩ := truncate_split (by decide : 0 < 17) m
    · exact absurd hle hsize
    · have hbits : fracBits m = m := if_neg (by omega)
      have hpow : truncate 17 m * 2 ^ 78 = m / 2 ^ (m.size - 17) * 2 ^ (m.size + 61) := by
        rw [truncate, mul_assoc, ← pow_add]
        congr 2
        omega
      rw [hbits, hpow, Nat.mul_left_inj (Nat.two_pow_pos _).ne']
      omega

variable (ret)

theorem cast_exp (h : m < 2 ^ 31) :
    ((Fin.ofNat 128 (m.size + 62) : Fin 128) : ℕ) = m.size + 62 := by
  have hsize : m.size ≤ 31 := Nat.size_le.2 h
  exact Nat.mod_eq_of_lt (by omega)

theorem intRight_iff (hn : InRange n) : IntRight ret n ↔
    n ≠ TMin ∧ n.natAbs / 2 ^ (n.natAbs.size - 17) % 2 ^ 16 = n.natAbs % 2 ^ 16 := by
  obtain ⟨hlo, hhi⟩ := hn
  by_cases h0 : n = 0
  · subst h0
    refine iff_of_true ⟨_, rfl, by simp, ?_⟩ (by decide)
    exact value_denormal 0 0
  by_cases hmin : n = TMin
  · refine iff_of_false ?_ fun h => h.1 hmin
    rintro ⟨r, hr, -⟩
    rw [hmin, int2sfp_min] at hr
    cases hr
  · have h31 : n.natAbs < 2 ^ 31 := by
      unfold TMin at hmin
      omega
    have hpos : 0 < n.natAbs := Int.natAbs_pos.2 h0
    have hexp := cast_exp h31
    have hsize : n.natAbs.size ≤ 31 := Nat.size_le.2 h31
    have hne : Fin.ofNat 128 (n.natAbs.size + 62) ≠ 0 := fun he => by
      rw [he] at hexp
      cases hexp
    have hne' : Fin.ofNat 128 (n.natAbs.size + 62) ≠ 127 := fun he => by
      rw [he] at hexp
      change 127 = _ at hexp
      omega
    have hvalue := value_normal (if n < 0 then 1 else 0) hne hne'
      (Fin.ofNat 65536 (fracBits n.natAbs))
    have hfrac : ((Fin.ofNat 65536 (fracBits n.natAbs) : Fin 65536) : ℕ) =
        fracBits n.natAbs % 65536 := rfl
    rw [hexp, hfrac] at hvalue
    rw [and_iff_right hmin, ← magnitude_iff hpos, ← signed_inj (s := if n < 0 then 1 else 0),
      ← truncate17_mul]
    constructor
    · rintro ⟨r, hr, -, hv⟩
      rw [int2sfp_eq h0 h31, Option.some_inj] at hr
      subst hr
      exact Value.fin.inj (hvalue.symm.trans hv)
    · intro h
      refine ⟨_, int2sfp_eq h0 h31, ?_, hvalue.trans (congrArg Value.fin h)⟩
      by_cases hneg : n < 0
      · simp [hneg]
      · simp [hneg]

end FromInt

section ToInt
variable {ms : Mysfp}

theorem tdiv_signed (s : Fin 2) (m d : ℕ) : (signed s m).tdiv d = signed s (m / d) := by
  unfold signed
  split
  · exact (Int.ofNat_tdiv m d).symm
  · rw [Int.neg_tdiv, Int.ofNat_tdiv]

theorem saturate_signed {s : Fin 2} {m : ℕ} (h : m < 2 ^ 31) :
    saturate (signed s m) = signed s m := by
  unfold saturate signed TMin TMax
  split <;> omega

theorem saturate_signed_large {s : Fin 2} {m : ℕ} (h : 2 ^ 31 ≤ m) :
    saturate (signed s m) = if s ≠ 0 then TMin else TMax := by
  unfold saturate signed TMin TMax
  obtain rfl | rfl := sign_cases s
  · rw [if_pos rfl, if_neg (by decide)]
    omega
  · rw [if_neg (by decide), if_pos (by decide)]
    omega

theorem twosComplement_eq (s : Fin 2) {f : ℕ} (h0 : 0 < f) (h : f < 2 ^ 31) :
    ((if s ≠ 0 then (2 ^ 32 - f) % 2 ^ 32 else f) % 2 ^ 31 : ℕ) - ((s : ℕ) : ℤ) * 2 ^ 31 =
      signed s f := by
  obtain rfl | rfl := sign_cases s
  · have hzero : (((0 : Fin 2) : ℕ) : ℤ) = 0 := rfl
    rw [if_neg (by decide), signed, if_pos rfl, hzero, Nat.mod_eq_of_lt h]
    omega
  · have hone : (((1 : Fin 2) : ℕ) : ℤ) = 1 := rfl
    rw [if_pos (by decide), signed, if_neg (by decide), hone]
    omega

/-- The fraction bits that `sfp2int` keeps: none of those left of the point beyond 16. -/
def keptBits (k f : ℕ) : ℕ := if k ≤ 16 then f / 2 ^ (16 - k) else 0

theorem keptBits_lt {k f : ℕ} (hf : f < 65536) : keptBits k f < 2 ^ k := by
  unfold keptBits
  split
  · rw [Nat.div_lt_iff_lt_mul (Nat.two_pow_pos _), ← pow_add]
    have hk : k + (16 - k) = 16 := by omega
    rw [hk]
    exact hf
  · exact Nat.two_pow_pos _

theorem sfp2int_eq {k : ℕ} (hk : (ms.exp : ℕ) = k + 63) (h31 : k < 31) :
    sfp2int ms = signed ms.sign (keptBits k ms.frac + 2 ^ k) := by
  have hne : ms.exp ≠ 0 := fun he => by
    rw [he] at hk
    change 0 = _ at hk
    omega
  have hne' : ms.exp ≠ 127 := fun he => by
    rw [he] at hk
    change 127 = _ at hk
    omega
  have hbits : (if k ≤ 16 then (ms.frac : ℕ) >>> (16 - k) else (ms.frac : ℕ) >>> 16) =
      keptBits k ms.frac := by
    unfold keptBits
    split
    · exact Nat.shiftRight_eq_div_pow _ _
    · rw [Nat.shiftRight_eq_div_pow, Nat.div_eq_of_lt ms.frac.isLt]
  have hlt := keptBits_lt (k := k) ms.frac.isLt
  have hpow : 2 ^ (k + 1) ≤ 2 ^ 31 := Nat.pow_le_pow_right (by decide) h31
  rw [pow_succ] at hpow
  have hpos := Nat.two_pow_pos k
  unfold sfp2int
  rw [if_neg hne, if_neg hne', if_neg (by omega), hk, Nat.add_sub_cancel]
  dsimp only
  rw [if_neg (by omega), hbits, Nat.shiftLeft_eq, one_mul]
  exact twosComplement_eq ms.sign (by omega) (by omega)

/-- Between 2^17 and 2^31 the fraction is lost. -/
theorem sfpRight_iff (hfin : ms.exp ≠ 127) :
    SfpRight ms ↔ (ms.exp : ℕ) < 80 ∨ 94 ≤ (ms.exp : ℕ) ∨ ms.frac = 0 := by
  have hright : SfpRight ms ↔
      sfp2int ms = saturate (signed ms.sign (ms.magnitude / 2 ^ 78)) := by
    have hcast : ((2 ^ 78 : ℕ) : ℤ) = 2 ^ 78 := by norm_num
    unfold SfpRight
    rw [Sfp.value_finite hfin, ← tdiv_signed, hcast]
    exact ⟨fun h => h _ rfl, fun h v hv => by rw [← Value.fin.inj hv, h]⟩
  rw [hright]
  have hlt := exp_lt hfin
  by_cases hexp : (ms.exp : ℕ) < 63
  · refine iff_of_true ?_ (.inl (by omega))
    have hzero : ms.magnitude / 2 ^ 78 = 0 := by
      refine Nat.div_eq_of_lt ?_
      calc ms.magnitude < 2 ^ 17 * 2 ^ ms.place :=
            Nat.mul_lt_mul_of_pos_right (Sfp.signif_lt _) (Nat.two_pow_pos _)
        _ ≤ 2 ^ 17 * 2 ^ 61 :=
            Nat.mul_le_mul_left _ (Nat.pow_le_pow_right (by decide) (by unfold Sfp.place; omega))
        _ = 2 ^ 78 := by rw [← pow_add]
    have hcode : sfp2int ms = 0 := by
      unfold sfp2int
      by_cases h0 : ms.exp = 0
      · rw [if_pos h0]
      · rw [if_neg h0, if_neg hfin, if_pos hexp]
    rw [hcode, hzero, saturate_signed (by decide)]
    unfold signed
    split <;> rfl
  obtain ⟨k, hk⟩ : ∃ k, (ms.exp : ℕ) = k + 63 := ⟨ms.exp - 63, by omega⟩
  have h0 : ms.exp ≠ 0 := fun he => by
    rw [he] at hk
    change 0 = _ at hk
    omega
  have hmag : ms.magnitude / 2 ^ 78 = (65536 + (ms.frac : ℕ)) * 2 ^ k / 2 ^ 16 := by
    have hsignif : ms.signif = 65536 + (ms.frac : ℕ) := if_neg h0
    have hplace : ms.place = k + 62 := by
      unfold Sfp.place
      omega
    have hden : 2 ^ 78 = 2 ^ 62 * 2 ^ 16 := by rw [← pow_add]
    rw [Sfp.magnitude, hsignif, hplace, hden, pow_add, ← mul_assoc, Nat.mul_comm _ (2 ^ 62),
      Nat.mul_div_mul_left _ _ (Nat.two_pow_pos 62)]
  rw [hmag]
  have hfrac := ms.frac.isLt
  by_cases hbig : 31 ≤ k
  · refine iff_of_true ?_ (.inr (.inl (by omega)))
    have hpow : 2 ^ 31 ≤ 2 ^ k := Nat.pow_le_pow_right (by decide) hbig
    have hlarge : 2 ^ 31 ≤ (65536 + (ms.frac : ℕ)) * 2 ^ k / 2 ^ 16 := by
      rw [Nat.le_div_iff_mul_le (by decide), Nat.mul_comm]
      exact Nat.mul_le_mul (by omega) hpow
    rw [saturate_signed_large hlarge]
    unfold sfp2int
    rw [if_neg h0, if_neg hfin, if_neg hexp, hk, Nat.add_sub_cancel]
    exact if_pos hbig
  have hsmall : (65536 + (ms.frac : ℕ)) * 2 ^ k / 2 ^ 16 < 2 ^ 31 := by
    rw [Nat.div_lt_iff_lt_mul (by decide)]
    calc (65536 + (ms.frac : ℕ)) * 2 ^ k < 2 ^ 17 * 2 ^ k :=
          Nat.mul_lt_mul_of_pos_right (by omega) (Nat.two_pow_pos _)
      _ ≤ 2 ^ 17 * 2 ^ 30 :=
          Nat.mul_le_mul_left _ (Nat.pow_le_pow_right (by decide) (by omega))
      _ = 2 ^ 31 * 2 ^ 16 := by rw [← pow_add, ← pow_add]
  have hsplit :
      (65536 + (ms.frac : ℕ)) * 2 ^ k / 2 ^ 16 = (ms.frac : ℕ) * 2 ^ k / 2 ^ 16 + 2 ^ k := by
    have hadd : (65536 + (ms.frac : ℕ)) * 2 ^ k = (ms.frac : ℕ) * 2 ^ k + 2 ^ k * 2 ^ 16 := by ring
    rw [hadd, Nat.add_mul_div_right _ _ (by decide)]
  rw [sfp2int_eq hk (by omega), saturate_signed hsmall, signed_inj, hsplit,
    Nat.add_right_cancel_iff]
  unfold keptBits
  by_cases h16 : k ≤ 16
  · refine iff_of_true ?_ (.inl (by omega))
    have hden : 2 ^ 16 = 2 ^ (16 - k) * 2 ^ k := by
      rw [← pow_add]
      congr 1
      omega
    rw [if_pos h16, hden, Nat.mul_div_mul_right _ _ (Nat.two_pow_pos k)]
  · have hnum : (ms.frac : ℕ) * 2 ^ k / 2 ^ 16 = ms.frac * 2 ^ (k - 16) := by
      have hk16 : k = (k - 16) + 16 := by omega
      conv_lhs => rw [hk16, pow_add, ← mul_assoc]
      exact Nat.mul_div_cancel _ (by decide)
    have hzero : ms.frac = 0 ↔ (ms.frac : ℕ) = 0 := Fin.ext_iff
    have hpos := Nat.two_pow_pos (k - 16)
    rw [if_neg h16, hnum, hzero, eq_comm, Nat.mul_eq_zero]
    omega

end ToInt

section Conversions
variable {n : ℤ}

theorem keptBits_fracBits {m : ℕ} (h0 : 0 < m) (h : m.size ≤ 17) :
    keptBits (m.size - 1) (fracBits m % 65536) + 2 ^ (m.size - 1) = m := by
  have hpos : 0 < m.size := Nat.size_pos.2 h0
  have hk : 16 - (m.size - 1) = 17 - m.size := by omega
  have hpow : 2 ^ (m.size - 1) * 2 ^ (17 - m.size) = 65536 := by
    have hsum : m.size - 1 + (17 - m.size) = 16 := by omega
    rw [← pow_add, hsum]
    rfl
  have hsignif := significand_eq h0 h
  rw [keptBits, if_pos (by omega), hk, ← Nat.add_mul_div_right _ _ (Nat.two_pow_pos _), hpow,
    Nat.add_comm, hsignif, Nat.mul_div_cancel _ (Nat.two_pow_pos _)]

/-- The way through a float and back keeps the leading bit of a number of more than 17 bits. -/
theorem roundTrip_iff (ret : Mysfp) (hn : InRange n) : RoundTrip ret n ↔
    n ≠ TMin ∧ (n.natAbs < 2 ^ 17 ∨ n.natAbs / 2 ^ (n.natAbs.size - 17) = 2 ^ 16) := by
  obtain ⟨hlo, hhi⟩ := hn
  by_cases h0 : n = 0
  · subst h0
    exact iff_of_true ⟨_, rfl, rfl⟩ (by decide)
  by_cases hmin : n = TMin
  · refine iff_of_false ?_ fun h => h.1 hmin
    rintro ⟨r, hr, -⟩
    rw [hmin, int2sfp_min] at hr
    cases hr
  have h31 : n.natAbs < 2 ^ 31 := by
    unfold TMin at hmin
    omega
  have hpos : 0 < n.natAbs := Int.natAbs_pos.2 h0
  have hsize : n.natAbs.size ≤ 31 := Nat.size_le.2 h31
  have hsize0 : 0 < n.natAbs.size := Nat.size_pos.2 hpos
  have hexp : ((Fin.ofNat 128 (n.natAbs.size + 62) : Fin 128) : ℕ) = n.natAbs.size - 1 + 63 := by
    rw [cast_exp h31]
    omega
  have hback : ∀ ms : Mysfp, ms.exp = Fin.ofNat 128 (n.natAbs.size + 62) → sfp2int ms =
      signed ms.sign (keptBits (n.natAbs.size - 1) ms.frac + 2 ^ (n.natAbs.size - 1)) :=
    fun ms hms => sfp2int_eq (by rw [hms, hexp]) (by omega)
  have htrip : RoundTrip ret n ↔ keptBits (n.natAbs.size - 1) (fracBits n.natAbs % 65536) +
      2 ^ (n.natAbs.size - 1) = truncate 17 n.natAbs := by
    rw [← signed_inj (s := if n < 0 then 1 else 0), ← truncate17_eq]
    constructor
    · rintro ⟨r, hr, hint⟩
      rw [int2sfp_eq h0 h31, Option.some_inj] at hr
      subst hr
      exact (hback _ rfl).symm.trans hint
    · intro h
      exact ⟨_, int2sfp_eq h0 h31, (hback _ rfl).trans h⟩
  rw [and_iff_right hmin, htrip]
  by_cases hshort : n.natAbs.size ≤ 17
  · have hlt := Nat.size_le.1 hshort
    refine iff_of_true ?_ (.inl hlt)
    rw [keptBits_fracBits hpos hshort, truncate_of_lt hlt]
  · have hlong : ¬n.natAbs < 2 ^ 17 := fun h => hshort (Nat.size_le.2 h)
    have hpow : 2 ^ (n.natAbs.size - 1) = 2 ^ 16 * 2 ^ (n.natAbs.size - 17) := by
      rw [← pow_add]
      congr 1
      omega
    rw [or_iff_right hlong, keptBits, if_neg (by omega), Nat.zero_add, truncate, hpow,
      Nat.mul_left_inj (Nat.two_pow_pos _).ne', eq_comm]

/-- When each of the conversions is right: `int2sfp` if the last 16 bits are those after the
leading one, `sfp2int` if no fraction is lost, and both together if there is none to lose. -/
theorem conversions_iff (ret ms : Mysfp) (hn : InRange n) (hfin : ms.exp ≠ 127) :
    (IntRight ret n ↔
        n ≠ TMin ∧ n.natAbs / 2 ^ (n.natAbs.size - 17) % 2 ^ 16 = n.natAbs % 2 ^ 16) ∧
      (SfpRight ms ↔ (ms.exp : ℕ) < 80 ∨ 94 ≤ (ms.exp : ℕ) ∨ ms.frac = 0) ∧
        (RoundTrip ret n ↔
          n ≠ TMin ∧ (n.natAbs < 2 ^ 17 ∨ n.natAbs / 2 ^ (n.natAbs.size - 17) = 2 ^ 16)) :=
  ⟨intRight_iff ret hn, sfpRight_iff hfin, roundTrip_iff ret hn⟩

/-- The number 3 and the float 1.5. -/
theorem conversions_three :
    IntRight (Sfp.word ⟨0, 0, 0⟩) 3 ∧ SfpRight (Sfp.word ⟨0, 63, 0x8000⟩) ∧
      RoundTrip (Sfp.word ⟨0, 0, 0⟩) 3 := by
  obtain ⟨hint, hsfp, htrip⟩ := conversions_iff (n := 3) (Sfp.word ⟨0, 0, 0⟩)
    (Sfp.word ⟨0, 63, 0x8000⟩) (by decide) (by decide)
  exact ⟨hint.2 (by decide), hsfp.2 (by decide), htrip.2 (by decide)⟩

/-- 2^17 + 1 gets the last bit in the place of the next to last one, and comes back without it;
2^17 + 2 has 17 bits and comes back as 2^17. -/
theorem int2sfp_seventeen :
    int2sfp (Sfp.word ⟨0, 0, 0⟩) (2 ^ 17 + 1) = some (Sfp.word ⟨0, 80, 1⟩) ∧
      ¬IntRight (Sfp.word ⟨0, 0, 0⟩) (2 ^ 17 + 1) ∧ sfp2int (Sfp.word ⟨0, 80, 1⟩) = 2 ^ 17 ∧
        ¬SfpRight (Sfp.word ⟨0, 80, 1⟩) ∧ ¬RoundTrip (Sfp.word ⟨0, 0, 0⟩) (2 ^ 17 + 2) := by
  have hright := intRight_iff (n := 2 ^ 17 + 1) (Sfp.word ⟨0, 0, 0⟩) (by decide)
  have hsfp := @sfpRight_iff (Sfp.word ⟨0, 80, 1⟩) (by decide)
  have htrip := roundTrip_iff (n := 2 ^ 17 + 2) (Sfp.word ⟨0, 0, 0⟩) (by decide)
  exact ⟨by decide, fun h => absurd (hright.1 h).2 (by decide), by decide,
    fun h => absurd (hsfp.1 h) (by decide), fun h => absurd (htrip.1 h).2 (by decide)⟩

end Conversions

end SoftFloat
