import Coursework.SoftFloat.Products

/-! The operands for which `sfp_mul` gives the exact product rounded to nearest even, in both
orders. -/
namespace SoftFloat
open NearestEven

/-- Operands that are finite and not zero. -/
def ProductExact (x y : Sfp) : Prop :=
  if (x.exp : ℕ) + y.exp < 63 then x.magnitude * y.magnitude ≤ 2 ^ 77
  else if x.exp ≠ 0 ∧ y.exp ≠ 0 then NormalExact (x.exp + y.exp - 63) (x.signif * y.signif)
  else DenormalExact (x.exp + y.exp - 63) (x.signif * y.signif)

/-- An infinity and a finite operand: a negative infinity comes second if the other one is
positive, and then it is taken for a number. -/
def InfExact (x y : Sfp) : Prop := x.sign = 0 ∨ y.sign = 1 ∨ y.exp = 63

/-- The operands whose product is right. -/
def MulExact (a b : Sfp) : Prop :=
  (a.IsInf → b.exp ≠ 127 → ¬b.IsZero → InfExact a b) ∧
    (b.IsInf → a.exp ≠ 127 → ¬a.IsZero → InfExact b a) ∧
    (a.exp ≠ 127 → b.exp ≠ 127 → ¬a.IsZero → ¬b.IsZero → ProductExact a b)

theorem MulExact.comm {a b : Sfp} (h : MulExact a b) : MulExact b a := by
  obtain ⟨ha, hb, hfin⟩ := h
  refine ⟨hb, ha, fun hb' ha' hb0 ha0 => ?_⟩
  have h := hfin ha' hb' ha0 hb0
  unfold ProductExact at h ⊢
  rwa [Nat.add_comm, Nat.mul_comm, Nat.mul_comm b.signif,
    if_congr (and_comm (a := b.exp ≠ 0) (b := a.exp ≠ 0)) rfl rfl]

section IsProduct
variable {u v r : Value}

theorem isProduct_fin {m n : ℤ} :
    IsProduct (.fin m) (.fin n) r ↔ RoundsQuot (2 ^ 78) (m * n) r := by
  refine ⟨fun h => ?_, .fin_fin m n r⟩
  cases h with
  | fin_fin _ _ _ h => exact h

theorem IsProduct.comm (h : IsProduct u v r) : IsProduct v u r := by
  cases h with
  | nan_left => exact .nan_right v
  | nan_right => exact .nan_left u
  | inf_zero s => exact .zero_inf s
  | zero_inf s => exact .inf_zero s
  | inf_inf s t =>
    rw [Bool.xor_comm]
    exact .inf_inf t s
  | inf_fin s v h =>
    rw [Bool.xor_comm]
    exact .fin_inf v s h
  | fin_inf u t h =>
    rw [Bool.xor_comm]
    exact .inf_fin t u h
  | fin_fin m n _ h => exact .fin_fin n m r (by rwa [mul_comm])

end IsProduct

theorem signed_mul_signed (s t : Fin 2) (m n : ℕ) :
    signed s m * signed t n = signed (s ^^^ t) (m * n) := by
  unfold signed
  obtain rfl | rfl := sign_cases s <;> obtain rfl | rfl := sign_cases t
  · rw [if_pos rfl, if_pos rfl, if_pos (by decide), Nat.cast_mul]
  · rw [if_pos rfl, if_neg (by decide), if_neg (by decide), Nat.cast_mul, mul_neg]
  · rw [if_pos rfl, if_neg (by decide), if_neg (by decide), Nat.cast_mul, neg_mul]
  · rw [if_neg (by decide), if_neg (by decide), if_pos (by decide), Nat.cast_mul, neg_mul_neg]

theorem xor_sign_comm (s t : Fin 2) : s ^^^ t = t ^^^ s := by
  revert s t
  decide

theorem decide_xor (s t : Fin 2) :
    decide (s ^^^ t = 1) = (decide (s = 1) ^^ decide (t = 1)) := by
  revert s t
  decide

section Finite
variable {x y : Sfp}

theorem magnitude_mul (x y : Sfp) :
    x.magnitude * y.magnitude = x.signif * y.signif * 2 ^ (x.place + y.place) := by
  unfold Sfp.magnitude
  rw [pow_add]
  ring

theorem isProduct_signed (hx : x.exp ≠ 127) (hy : y.exp ≠ 127) {r : Value} :
    IsProduct x.value y.value r ↔
      r = ofMag (x.sign ^^^ y.sign) (roundQuot 17 (2 ^ 78) (x.magnitude * y.magnitude)) := by
  rw [Sfp.value_finite hx, Sfp.value_finite hy, isProduct_fin, signed_mul_signed,
    roundsQuot_signed (Nat.two_pow_pos 78)]

theorem mulFinite_comm (ret : Mysfp) (x y : Sfp) :
    mulFinite ret x.word y.word = mulFinite ret y.word x.word := by
  unfold mulFinite
  rw [Nat.add_comm]
  dsimp only
  rw [Nat.mul_comm]

/-- A normal float times a denormal one. -/
theorem mulFinite_denormal (hx0 : x.exp = 0) (hx : ¬x.IsZero) (hy : y.exp ≠ 127) (ret : Mysfp)
    (h63 : 63 ≤ (y.exp : ℕ)) (hsign : ret.sign = x.sign ^^^ y.sign) :
    IsProduct x.value y.value (mulFinite ret x.word y.word).toSfp.value ↔
      DenormalExact (x.exp + y.exp - 63) (x.signif * y.signif) := by
  have hlt := exp_lt hy
  have hval : (x.exp : ℕ) = 0 := by
    rw [hx0]
    rfl
  have hy0 : y.exp ≠ 0 := by
    rintro h0
    rw [h0] at h63
    exact absurd h63 (by decide)
  rw [Sfp.isZero_iff] at hx
  have hxlt := Sfp.signif_denormal hx0
  have hge := Nat.mul_le_mul (Nat.one_le_iff_ne_zero.2 hx) (Sfp.signif_normal hy0)
  have hle := Nat.mul_le_mul (Nat.le_sub_one_of_lt hxlt) (Nat.le_sub_one_of_lt y.signif_lt)
  have hplace : x.place + y.place = (x.exp + y.exp - 63 : ℕ) + 62 := by
    unfold Sfp.place
    omega
  rw [isProduct_signed (by rw [hx0]; decide) hy, magnitude_mul, hplace, mulFinite_eq ret (by omega),
    ← hsign]
  exact denormal_product_iff (by omega) (by omega) (by omega)
    (Nat.mod_eq_of_lt (by omega : (x.exp + y.exp - 63 : ℕ) < 128))

theorem mulFinite_normal (hx0 : x.exp ≠ 0) (hx : x.exp ≠ 127) (hy0 : y.exp ≠ 0) (hy : y.exp ≠ 127)
    (ret : Mysfp) (h63 : 63 ≤ (x.exp : ℕ) + y.exp) (hsign : ret.sign = x.sign ^^^ y.sign) :
    IsProduct x.value y.value (mulFinite ret x.word y.word).toSfp.value ↔
      NormalExact (x.exp + y.exp - 63) (x.signif * y.signif) := by
  have hxlt := exp_lt hx
  have hylt := exp_lt hy
  have hge := Nat.mul_le_mul (Sfp.signif_normal hx0) (Sfp.signif_normal hy0)
  have hle := Nat.mul_le_mul (Nat.le_sub_one_of_lt x.signif_lt) (Nat.le_sub_one_of_lt y.signif_lt)
  have hplace : x.place + y.place = (x.exp + y.exp - 63 : ℕ) + 61 := by
    have hxpos := exp_pos hx0
    have hypos := exp_pos hy0
    unfold Sfp.place
    omega
  rw [isProduct_signed hx hy, magnitude_mul, hplace, mulFinite_eq ret h63, ← hsign]
  by_cases h33 : x.signif * y.signif < 2 ^ 33 - 2 ^ 15
  · exact normal_iff_of_lt (by omega) h33 (by omega) rfl
  · exact normal_iff_of_le (Nat.le_of_not_lt h33) hle (by omega) rfl

/-- The computed product of two finite floats is right under the condition on their exponents and
significands. -/
theorem mulFinite_iff (hx : x.exp ≠ 127) (hy : y.exp ≠ 127) (hx0 : ¬x.IsZero) (hy0 : ¬y.IsZero)
    (ret : Mysfp) (hsign : ret.sign = x.sign ^^^ y.sign) :
    IsProduct x.value y.value (mulFinite ret x.word y.word).toSfp.value ↔ ProductExact x y := by
  unfold ProductExact
  by_cases h63 : (x.exp : ℕ) + y.exp < 63
  · have hvalue : (mulFinite ret x.word y.word).toSfp.value =
        .fin (signed (x.sign ^^^ y.sign) 0) := by
      rw [mulFinite_below ret h63, ← hsign]
      exact value_denormal _ 0
    rw [isProduct_signed hx hy, if_pos h63, hvalue, fin_eq_ofMag (by decide), eq_comm,
      roundQuot_eq_zero_iff (by decide) (Nat.two_pow_pos 78), pow_succ' 2 77]
    omega
  · rw [if_neg h63]
    by_cases hx1 : x.exp = 0
    · rw [if_neg fun h => h.1 hx1]
      have hval : (x.exp : ℕ) = 0 := by
        rw [hx1]
        rfl
      exact mulFinite_denormal hx1 hx0 hy ret (by omega) hsign
    by_cases hy1 : y.exp = 0
    · have hval : (y.exp : ℕ) = 0 := by
        rw [hy1]
        rfl
      have hsign' : ret.sign = y.sign ^^^ x.sign := by
        rw [hsign, xor_sign_comm]
      rw [if_neg fun h => h.2 hy1, mulFinite_comm, Nat.add_comm, Nat.mul_comm,
        ← mulFinite_denormal hy1 hy0 hx ret (by omega) hsign']
      exact ⟨IsProduct.comm, IsProduct.comm⟩
    · rw [if_pos ⟨hx1, hy1⟩]
      exact mulFinite_normal hx1 hx hy1 hy ret (Nat.le_of_not_lt h63) hsign

end Finite

section Special
variable {x y : Sfp}

theorem value_nan (s : Fin 2) : (⟨s, 127, 1⟩ : Sfp).value = .nan :=
  Sfp.IsNan.value ⟨rfl, (by decide : (1 : Fin 65536) ≠ 0)⟩

theorem value_inf (s : Fin 2) : (⟨s, 127, 0⟩ : Sfp).value = .inf (decide (s = 1)) :=
  Sfp.IsInf.value ⟨rfl, rfl⟩

theorem value_clear (s : Fin 2) : (⟨s, 0, 0⟩ : Sfp).value = .fin 0 := by
  revert s
  decide

theorem mulOrdered_nan (ret : Mysfp) (h : x.IsNan ∨ y.IsNan) :
    (mulOrdered ret x.word y.word).toSfp = ⟨x.sign ^^^ y.sign, 127, 1⟩ := by
  have hnan : (x.word.exp = 127 ∧ x.word.frac ≠ 0) ∨ (y.word.exp = 127 ∧ y.word.frac ≠ 0) := h
  unfold mulOrdered
  rw [if_pos hnan]
  rfl

theorem mulOrdered_zero_inf (ret : Mysfp) (hzero : x.IsZero ∨ y.IsZero) (hinf : x.IsInf ∨ y.IsInf) :
    (mulOrdered ret x.word y.word).toSfp = ⟨x.sign ^^^ y.sign, 127, 1⟩ := by
  by_cases h : x.IsNan ∨ y.IsNan
  · exact mulOrdered_nan ret h
  · have hnan : ¬((x.word.exp = 127 ∧ x.word.frac ≠ 0) ∨ (y.word.exp = 127 ∧ y.word.frac ≠ 0)) := h
    have hz : (x.word.exp = 0 ∧ x.word.frac = 0) ∨ (y.word.exp = 0 ∧ y.word.frac = 0) := hzero
    have hi : (x.word.exp = 127 ∧ x.word.frac = 0) ∨ (y.word.exp = 127 ∧ y.word.frac = 0) := hinf
    unfold mulOrdered
    rw [if_neg hnan, if_pos hz, if_pos hi]
    rfl

theorem mulOrdered_zero (ret : Mysfp) (hzero : x.IsZero ∨ y.IsZero) (hx : x.exp ≠ 127)
    (hy : y.exp ≠ 127) :
    (mulOrdered ret x.word y.word).toSfp = ⟨x.sign ^^^ y.sign, 0, 0⟩ := by
  simp only [Sfp.IsZero] at hzero
  simp [mulOrdered, hx, hy, hzero]

theorem mulOrdered_inf (ret : Mysfp) (hx : x.IsInf) (hy : ¬y.IsNan) (hy0 : ¬y.IsZero) :
    (mulOrdered ret x.word y.word).toSfp = ⟨x.sign ^^^ y.sign, 127, 0⟩ := by
  have hnan : ¬(y.exp = 127 ∧ y.frac ≠ 0) := hy
  have hzero : ¬(y.exp = 0 ∧ y.frac = 0) := hy0
  simp [mulOrdered, hx.1, hx.2, hnan, hzero]

theorem mulOrdered_finite (ret : Mysfp) (hx : x.exp ≠ 127) (hx0 : ¬x.IsZero) (hy : ¬y.IsNan)
    (hy0 : ¬y.IsZero) : mulOrdered ret x.word y.word =
      mulFinite { ret with sign := x.sign ^^^ y.sign } x.word y.word := by
  have hnan : ¬(y.exp = 127 ∧ y.frac ≠ 0) := hy
  have hxzero : ¬(x.exp = 0 ∧ x.frac = 0) := hx0
  have hyzero : ¬(y.exp = 0 ∧ y.frac = 0) := hy0
  simp [mulOrdered, hx, hnan, hxzero, hyzero]

/-- An infinity that comes second is multiplied as if it were a number. -/
theorem mulFinite_inf (ret : Mysfp) (hx : x.exp ≠ 127) (hy : y.IsInf) :
    (mulFinite ret x.word y.word).toSfp.value = .inf (decide (ret.sign = 1)) ∧ x.exp = 63 ∨
      (∃ v, (mulFinite ret x.word y.word).toSfp.value = .fin v) ∧ x.exp ≠ 63 := by
  have hlt := exp_lt hx
  have hexp : (y.exp : ℕ) = 127 := by
    rw [hy.1]
    rfl
  have hsignif : y.signif = 2 ^ 16 := by
    rw [Sfp.signif, hy.1, hy.2]
    rfl
  have hupper : roundUp (2 ^ 16) (x.signif * y.signif / 2 ^ 16) (x.signif * y.signif % 2 ^ 16) =
      x.signif := by
    rw [hsignif, Nat.mul_div_cancel _ (by decide), Nat.mul_mod_left, roundUp, if_neg (by omega)]
  rw [mulFinite_eq ret (by omega), hupper]
  by_cases h63 : x.exp = 63
  · have h0 : x.exp ≠ 0 := by
      rw [h63]
      decide
    left
    refine ⟨normalizeProduct_inf (Sfp.signif_normal h0) x.signif_lt ?_, h63⟩
    rw [hexp, h63]
    rfl
  · have hne : (x.exp : ℕ) ≠ 63 := fun h => h63 (Fin.ext h)
    right
    refine ⟨⟨_, normalizeProduct_fin x.signif_lt ?_⟩, h63⟩
    intro h
    have hval := congrArg Fin.val h
    change (x.exp + y.exp - 63 : ℕ) % 128 = 127 at hval
    omega

/-- The order of the operands: positive floats, and then the larger magnitude first. -/
def Sfp.rank (x : Sfp) : ℕ := (if x.sign ≠ 0 then 0 else 1) * 2 ^ 23 + x.key

theorem flipped_word_u (x : Sfp) : (flipped x.word).u = x.rank := by
  have hsign : ((if x.sign ≠ 0 then 0 else 1 : Fin 2) : ℕ) = if x.sign ≠ 0 then 0 else 1 := by
    split <;> rfl
  unfold Sfp.rank Sfp.key
  rw [← hsign]
  change 0 * 2 ^ 24 + ((if x.sign ≠ 0 then 0 else 1 : Fin 2) : ℕ) * 2 ^ 23 +
    (x.exp : ℕ) * 2 ^ 16 + x.frac = _
  omega

theorem value_sign (hx0 : ¬x.IsZero) : signed x.sign x.magnitude ≠ 0 ∧
    decide (signed x.sign x.magnitude < 0) = decide (x.sign = 1) := by
  have hpos : 0 < x.magnitude :=
    Nat.mul_pos (Nat.pos_of_ne_zero (mt Sfp.isZero_iff.2 hx0)) (Nat.two_pow_pos _)
  unfold signed
  obtain h0 | h1 := sign_cases x.sign
  · rw [h0, if_pos rfl]
    exact ⟨by omega, decide_eq_false (by omega)⟩
  · rw [h1, if_neg (by decide)]
    exact ⟨by omega, decide_eq_true (by omega)⟩

theorem Sfp.IsZero.exp_ne (h : x.IsZero) : x.exp ≠ 127 := by
  rw [h.1]
  decide

/-- An infinity that comes first. -/
theorem mulOrdered_inf_iff (ret : Mysfp) (h : y.rank ≤ x.rank) (hx : x.IsInf) :
    IsProduct x.value y.value (mulOrdered ret x.word y.word).toSfp.value ↔ MulExact x y := by
  have hexact : (y.exp ≠ 127 → ¬y.IsZero → InfExact x y) → MulExact x y := fun h =>
    ⟨fun _ => h, fun _ h => absurd hx.1 h, fun h => absurd hx.1 h⟩
  obtain hy | hy | hy := y.kinds
  · rw [mulOrdered_nan ret (.inr hy), value_nan, hy.value]
    exact iff_of_true (.nan_right _) (hexact fun h => absurd hy.1 h)
  · have hy0 : ¬y.IsZero := fun h0 => h0.exp_ne hy.1
    rw [mulOrdered_inf ret hx hy.not_isNan hy0, value_inf, decide_xor, hx.value, hy.value]
    exact iff_of_true (.inf_inf _ _) (hexact fun h => absurd hy.1 h)
  by_cases hy0 : y.IsZero
  · rw [mulOrdered_zero_inf ret (.inr hy0) (.inl hx), value_nan, hx.value, Sfp.value_finite hy,
      hy0.signed_magnitude]
    exact iff_of_true (.inf_zero _) (hexact fun _ h => absurd hy0 h)
  · obtain ⟨hne, hneg⟩ := value_sign hy0
    rw [mulOrdered_inf ret hx (fun h => hy h.1) hy0, value_inf, decide_xor, hx.value,
      Sfp.value_finite hy, ← hneg]
    refine iff_of_true (.inf_fin _ _ hne) (hexact fun _ _ => ?_)
    -- a negative infinity does not come before a positive float
    obtain hx0 | hx1 := sign_cases x.sign
    · exact .inl hx0
    obtain hy0 | hy1 := sign_cases y.sign
    · have hfrac : (x.frac : ℕ) = 0 := by
        rw [hx.2]
        rfl
      have hexp : (x.exp : ℕ) = 127 := by
        rw [hx.1]
        rfl
      unfold Sfp.rank Sfp.key at h
      rw [hx1, hy0, if_neg (by decide), if_pos (by decide)] at h
      omega
    · exact .inr (.inl hy1)

theorem isProduct_zero (hzero : x.IsZero ∨ y.IsZero) (hx : x.exp ≠ 127) (hy : y.exp ≠ 127) :
    IsProduct x.value y.value (.fin 0) := by
  have hmag : x.signif * y.signif = 0 := by
    obtain h | h := hzero
    · rw [Sfp.isZero_iff.1 h, Nat.zero_mul]
    · rw [Sfp.isZero_iff.1 h, Nat.mul_zero]
  have hround : roundQuot 17 (2 ^ 78) 0 = 0 :=
    (roundQuot_eq_zero_iff (by decide) (Nat.two_pow_pos 78)).2 (Nat.zero_le _)
  have hsigned : ∀ s, signed s 0 = 0 := by decide
  rw [isProduct_signed hx hy, magnitude_mul, hmag, Nat.zero_mul, hround, ofMag_of_lt (by decide),
    hsigned]

/-- A finite operand that comes first. -/
theorem mulOrdered_finite_iff (ret : Mysfp) (h : y.rank ≤ x.rank) (hx : x.exp ≠ 127) :
    IsProduct x.value y.value (mulOrdered ret x.word y.word).toSfp.value ↔ MulExact x y := by
  have hinf : x.IsInf → y.exp ≠ 127 → ¬y.IsZero → InfExact x y := fun h => absurd h.1 hx
  obtain hy | hy | hy := y.kinds
  · rw [mulOrdered_nan ret (.inr hy), value_nan, hy.value]
    exact iff_of_true (.nan_right _)
      ⟨hinf, fun h => absurd hy h.not_isNan, fun _ h => absurd hy.1 h⟩
  · by_cases hx0 : x.IsZero
    · rw [mulOrdered_zero_inf ret (.inl hx0) (.inr hy), value_nan, hy.value, Sfp.value_finite hx,
        hx0.signed_magnitude]
      exact iff_of_true (.zero_inf _) ⟨hinf, fun _ _ h => absurd hx0 h, fun _ h => absurd hy.1 h⟩
    -- only a negative infinity comes after a finite float, and only after a positive one
    have hsigns : x.sign = 0 ∧ y.sign = 1 := by
      have hlt := exp_lt hx
      have hfrac := x.frac.isLt
      have hexp : (y.exp : ℕ) = 127 := by
        rw [hy.1]
        rfl
      unfold Sfp.rank Sfp.key at h
      obtain hx0 | hx1 := sign_cases x.sign <;> obtain hy0 | hy1 := sign_cases y.sign
      · rw [hx0, hy0] at h
        omega
      · exact ⟨hx0, hy1⟩
      · rw [hx1, hy0, if_neg (by decide), if_pos (by decide)] at h
        omega
      · rw [hx1, hy1] at h
        omega
    have hexact : MulExact x y ↔ x.exp = 63 := by
      constructor
      · intro h
        obtain h0 | h1 | h63 := h.2.1 hy hx hx0
        · rw [hsigns.2] at h0
          cases h0
        · rw [hsigns.1] at h1
          cases h1
        · exact h63
      · intro h63
        exact ⟨hinf, fun _ _ _ => .inr (.inr h63), fun _ h => absurd hy.1 h⟩
    have hy0 : ¬y.IsZero := fun h0 => h0.exp_ne hy.1
    obtain ⟨hne, hneg⟩ := value_sign hx0
    rw [mulOrdered_finite ret hx hx0 hy.not_isNan hy0, hexact, hy.value, Sfp.value_finite hx]
    obtain ⟨hvalue, h63⟩ | ⟨⟨v, hvalue⟩, h63⟩ :=
      mulFinite_inf { ret with sign := x.sign ^^^ y.sign } hx hy <;> rw [hvalue]
    · rw [decide_xor, ← hneg]
      exact iff_of_true (.fin_inf _ _ hne) h63
    · generalize signed x.sign x.magnitude = u
      exact iff_of_false (fun h => by cases h) h63
  by_cases hzero : x.IsZero ∨ y.IsZero
  · rw [mulOrdered_zero ret hzero hx hy, value_clear]
    refine iff_of_true (isProduct_zero hzero hx hy) ⟨hinf, fun h => absurd h.1 hy, ?_⟩
    exact fun _ _ hx0 hy0 => (hzero.elim hx0 hy0).elim
  obtain ⟨hx0, hy0⟩ := not_or.1 hzero
  rw [mulOrdered_finite ret hx hx0 (fun h => hy h.1) hy0, mulFinite_iff hx hy hx0 hy0 _ rfl]
  exact ⟨fun h => ⟨hinf, fun h => absurd h.1 hy, fun _ _ _ _ => h⟩, fun h => h.2.2 hx hy hx0 hy0⟩

theorem mulOrdered_iff (ret : Mysfp) (h : y.rank ≤ x.rank) :
    IsProduct x.value y.value (mulOrdered ret x.word y.word).toSfp.value ↔ MulExact x y := by
  obtain hx | hx | hx := x.kinds
  · rw [mulOrdered_nan ret (.inl hx), value_nan, hx.value]
    exact iff_of_true (.nan_left _)
      ⟨fun h => absurd hx h.not_isNan, fun _ h => absurd hx.1 h, fun h => absurd hx.1 h⟩
  · exact mulOrdered_inf_iff ret h hx
  · exact mulOrdered_finite_iff ret h hx

end Special

section Words
variable {ret ret' ms1 ms1' ms2 ms2' : Mysfp}

theorem normalizeProduct_toSfp (hsign : ret.sign = ret'.sign) (hexp : ret.exp = ret'.exp) (g : ℕ) :
    (normalizeProduct ret g).toSfp = (normalizeProduct ret' g).toSfp := by
  unfold normalizeProduct
  rw [hexp]
  dsimp only
  split
  · exact congrArg (Sfp.mk · 127 0) hsign
  · exact congrArg (Sfp.mk · _ _) hsign

theorem mulFinite_toSfp (hsign : ret.sign = ret'.sign) (h1 : ms1.toSfp = ms1'.toSfp)
    (h2 : ms2.toSfp = ms2'.toSfp) :
    (mulFinite ret ms1 ms2).toSfp = (mulFinite ret' ms1' ms2').toSfp := by
  unfold mulFinite
  rw [h1, h2]
  split
  · exact congrArg (Sfp.mk · 0 0) hsign
  · refine normalizeProduct_toSfp ?_ ?_ _
    · exact hsign
    · rfl

theorem mulOrdered_toSfp (h1 : ms1.toSfp = ms1'.toSfp) (h2 : ms2.toSfp = ms2'.toSfp) :
    (mulOrdered ret ms1 ms2).toSfp = (mulOrdered ret' ms1' ms2').toSfp := by
  unfold mulOrdered
  rw [h1, h2]
  dsimp only
  split_ifs
  · rfl
  · rfl
  · rfl
  · rfl
  · exact mulFinite_toSfp rfl h1 h2

theorem sfpMul_word (ret : Mysfp) (a b : Sfp) : sfpMul ret a.word b.word =
    if b.rank < a.rank then mulOrdered ret a.word b.word else mulOrdered ret b.word a.word := by
  unfold sfpMul
  dsimp only
  rw [flipped_word_u, flipped_word_u]

theorem Sfp.eq_of_rank {a b : Sfp} (h : a.rank = b.rank) : a = b := by
  have ha := a.frac.isLt
  have hb := b.frac.isLt
  obtain ⟨s, e, f⟩ := a
  obtain ⟨t, e', f'⟩ := b
  unfold Sfp.rank Sfp.key at h
  have hexp : (if s ≠ 0 then 0 else 1) = (if t ≠ 0 then 0 else 1) ∧ (e : ℕ) = e' ∧
      (f : ℕ) = f' := by
    dsimp only at *
    omega
  obtain ⟨hsign, he, hf⟩ := hexp
  obtain rfl : s = t := by
    revert hsign
    clear * -
    revert s t
    decide
  rw [Fin.ext he, Fin.ext hf]

theorem sfpMul_comm (ret ret' : Mysfp) (a b : Sfp) :
    (sfpMul ret a.word b.word).toSfp = (sfpMul ret' b.word a.word).toSfp := by
  rw [sfpMul_word, sfpMul_word]
  obtain h | h | h := Nat.lt_trichotomy a.rank b.rank
  · rw [if_neg (by omega), if_pos h]
    exact mulOrdered_toSfp rfl rfl
  · rw [Sfp.eq_of_rank h, if_neg (by omega), if_neg (by omega)]
    exact mulOrdered_toSfp rfl rfl
  · rw [if_pos h, if_neg (by omega)]
    exact mulOrdered_toSfp rfl rfl

end Words

/-- The product is right, and it is the same in both orders, for the exact operands only. -/
theorem sfpMul_exact_iff (ret ret' : Mysfp) (a b : Sfp) :
    IsProduct a.value b.value (sfpMul ret a.word b.word).toSfp.value ∧
        (sfpMul ret a.word b.word).toSfp = (sfpMul ret' b.word a.word).toSfp ↔
      MulExact a b := by
  rw [and_iff_left (sfpMul_comm ret ret' a b), sfpMul_word]
  by_cases h : b.rank < a.rank
  · rw [if_pos h]
    exact mulOrdered_iff ret h.le
  · rw [if_neg h]
    have hiff := mulOrdered_iff ret (Nat.le_of_not_lt h)
    exact ⟨fun h => (hiff.1 h.comm).comm, fun h => (hiff.2 h.comm).comm⟩

/-- The exponent of a product that overflows by far wraps around: 2^63 times 2^63 is 1/4. -/
theorem sfpMul_wraps :
    (sfpMul (Sfp.word ⟨0, 0, 0⟩) (Sfp.word ⟨0, 126, 0⟩) (Sfp.word ⟨0, 126, 0⟩)).toSfp.value =
        .fin (2 ^ 76) ∧
      IsProduct (Sfp.value ⟨0, 126, 0⟩) (Sfp.value ⟨0, 126, 0⟩) (.inf false) ∧
      ¬IsProduct (Sfp.value ⟨0, 126, 0⟩) (Sfp.value ⟨0, 126, 0⟩) (.fin (2 ^ 76)) := by
  have hround : limit ≤ roundQuot 17 (2 ^ 78) (2 ^ 141 * 2 ^ 141) :=
    le_roundQuot (by decide) (Nat.two_pow_pos 78) ⟨1, 142, by decide, (one_mul _).symm⟩ (by decide)
  have hmag : Sfp.magnitude ⟨0, 126, 0⟩ * Sfp.magnitude ⟨0, 126, 0⟩ = 2 ^ 141 * 2 ^ 141 := by decide
  refine ⟨by decide, ?_, ?_⟩
  · rw [isProduct_signed (by decide) (by decide), hmag, ofMag_of_le hround]
    rfl
  · rw [isProduct_signed (by decide) (by decide), hmag, ofMag_of_le hround]
    exact fun h => by cases h

end SoftFloat
