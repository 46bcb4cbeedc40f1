import Coursework.SoftFloat.ExactProduct

/-! `sfp_add` and `sfp_mul` put their operands in order by whole words, with the bits that are not
used in front. -/
namespace SoftFloat
open NearestEven

def BothFinite (x y : Sfp) : Prop := x.exp ≠ 127 ∧ y.exp ≠ 127 ∧ ¬x.IsZero ∧ ¬y.IsZero

/-- The sum of two finite floats is the same in both orders. -/
def SumCommutes (x y : Sfp) : Prop :=
  x.sign = y.sign ∧ x.place = y.place ∧ (x.exp = y.exp ∨ x.signif + y.signif < 2 ^ 17)

/-- The product is the same in both orders. -/
def ProductCommutes (x y : Sfp) : Prop :=
  (x.IsInf → y.exp ≠ 127 → ¬y.IsZero → y.exp = 63) ∧
    (y.IsInf → x.exp ≠ 127 → ¬x.IsZero → x.exp = 63)

/-- The words keep their order under `sfp_add`. -/
def AddPadding (a b a' b' : Mysfp) : Prop :=
  BothFinite a.toSfp b.toSfp →
    ((cleared b).u < (cleared a).u ↔ (cleared b').u < (cleared a').u) ∨
      SumCommutes a.toSfp b.toSfp

/-- The words keep their order under `sfp_mul`. -/
def MulPadding (a b a' b' : Mysfp) : Prop :=
  ((flipped b).u < (flipped a).u ↔ (flipped b').u < (flipped a').u) ∨
    ProductCommutes a.toSfp b.toSfp

section Renormalize
variable {ret ret' : Mysfp} {g : ℕ}

theorem renormalize_toSfp (hsign : ret.sign = ret'.sign) (hexp : ret.exp = ret'.exp) (g : ℕ) :
    (renormalize ret g).toSfp = (renormalize ret' g).toSfp := by
  unfold renormalize
  rw [hexp]
  dsimp only
  split_ifs <;> exact congrArg (Sfp.mk · _ _) hsign

theorem renormalize_sign (ret : Mysfp) (g : ℕ) : (renormalize ret g).sign = ret.sign := by
  unfold renormalize
  dsimp only
  split_ifs <;> rfl

theorem renormalize_exp (h16 : 2 ^ 16 ≤ g) : (renormalize ret g).exp =
    if 2 ^ 17 ≤ g then ret.exp + 1 else if ret.exp = 0 then 1 else ret.exp := by
  have hs16 : (1 <<< 16 : ℕ) = 2 ^ 16 := rfl
  have hs17 : (1 <<< 17 : ℕ) = 2 ^ 17 := rfl
  unfold renormalize
  rw [if_neg (by omega)]
  by_cases h17 : 2 ^ 17 ≤ g
  · rw [if_pos (show 1 <<< 17 ≤ g by omega), if_pos h17]
    dsimp only
    split <;> rfl
  · rw [if_neg (show ¬1 <<< 17 ≤ g by omega), if_neg h17]
    split <;> rfl

theorem renormalize_exp_zero (h16 : g < 2 ^ 16) (h0 : ret.exp = 0) :
    (renormalize ret g).exp = 0 := by
  have hs16 : (1 <<< 16 : ℕ) = 2 ^ 16 := rfl
  have hnorm : normalize (ret.exp : ℕ) g = (0, g) := by
    rw [h0]
    rfl
  have hkeep : (if 1 <<< 16 ≤ g ∧ (0 : ℕ) ≠ 0 then g &&& 0xFFFF else g) = g := if_neg (by omega)
  unfold renormalize
  rw [if_pos (by omega), hnorm]
  dsimp only
  rw [hkeep, if_pos (by omega)]
  rfl

end Renormalize

section Sums
variable {ret ret' : Mysfp} {x y : Sfp}

theorem sumOrdered_toSfp (ret ret' : Mysfp) (x y : Sfp) :
    (sumOrdered ret x y).toSfp = (sumOrdered ret' x y).toSfp := by
  unfold sumOrdered
  refine renormalize_toSfp ?_ ?_ _ <;> rfl

theorem sumOrdered_sign (ret : Mysfp) (x y : Sfp) : (sumOrdered ret x y).sign = x.sign :=
  renormalize_sign _ _

theorem sumOrdered_of_place (h : x.place = y.place) (hsign : x.sign = y.sign) (ret : Mysfp) :
    sumOrdered ret x y =
      renormalize { ret with sign := x.sign, exp := x.exp } (x.signif + y.signif) := by
  have hx := x.signif_lt
  have hy := y.signif_lt
  unfold sumOrdered
  dsimp only
  rw [h, Nat.add_sub_cancel_left, Nat.mod_self, if_pos hsign]
  have hshift : shiftRte 0 y.signif = y.signif := rfl
  rw [hshift, Nat.mod_eq_of_lt (by omega)]

theorem renormalize_normal {g : ℕ} (h16 : 2 ^ 16 ≤ g) (h17 : g < 2 ^ 17) : renormalize ret g =
    { ret with exp := if ret.exp = 0 then 1 else ret.exp, frac := Fin.ofNat 65536 g } := by
  have hs16 : (1 <<< 16 : ℕ) = 2 ^ 16 := rfl
  have hs17 : (1 <<< 17 : ℕ) = 2 ^ 17 := rfl
  have hand : g &&& 0xFFFF = g % 2 ^ 16 := Nat.and_two_pow_sub_one_eq_mod g 16
  have hmod : (Fin.ofNat 65536 (g &&& 0xFFFF) : Fin 65536) = Fin.ofNat 65536 g := by
    rw [hand]
    refine Fin.ext ?_
    change g % 65536 % 65536 = g % 65536
    omega
  unfold renormalize
  rw [if_neg (show ¬g < 1 <<< 16 by omega), if_neg (show ¬1 <<< 17 ≤ g by omega), hmod]
  by_cases h0 : ret.exp = 0
  · rw [if_pos h0, if_pos h0]
  · rw [if_neg h0, if_neg h0]

theorem place_eq_cases (h : x.place = y.place) :
    x.exp = y.exp ∨ x.exp = 0 ∧ y.exp = 1 ∨ x.exp = 1 ∧ y.exp = 0 := by
  unfold Sfp.place at h
  rw [Fin.ext_iff, Fin.ext_iff, Fin.ext_iff, Fin.ext_iff, Fin.ext_iff]
  change (x.exp : ℕ) = y.exp ∨ (x.exp : ℕ) = 0 ∧ (y.exp : ℕ) = 1 ∨ (x.exp : ℕ) = 1 ∧ (y.exp : ℕ) = 0
  omega

/-- Operands in the same place, in both orders. -/
theorem sumOrdered_comm_iff_of_place (ret ret' : Mysfp) (hsign : x.sign = y.sign)
    (h : x.place = y.place) : (sumOrdered ret x y).toSfp = (sumOrdered ret' y x).toSfp ↔
      x.exp = y.exp ∨ x.signif + y.signif < 2 ^ 17 := by
  rw [sumOrdered_of_place h hsign, sumOrdered_of_place h.symm hsign.symm, Nat.add_comm y.signif]
  by_cases hexp : x.exp = y.exp
  · refine iff_of_true (renormalize_toSfp ?_ ?_ _) (.inl hexp)
    · exact hsign
    · exact hexp
  have h01 := (place_eq_cases h).resolve_left hexp
  have h16 : 2 ^ 16 ≤ x.signif + y.signif := by
    obtain ⟨-, hy1⟩ | ⟨hx1, -⟩ := h01
    · have hge := Sfp.signif_normal (x := y) (by rw [hy1]; decide)
      omega
    · have hge := Sfp.signif_normal (x := x) (by rw [hx1]; decide)
      omega
  rw [or_iff_right hexp]
  by_cases h17 : x.signif + y.signif < 2 ^ 17
  · rw [renormalize_normal h16 h17, renormalize_normal h16 h17]
    refine iff_of_true ?_ h17
    rw [Sfp.mk.injEq]
    refine ⟨hsign, ?_, rfl⟩
    obtain ⟨hx0, hy1⟩ | ⟨hx1, hy0⟩ := h01
    · dsimp only
      rw [hx0, hy1]
      rfl
    · dsimp only
      rw [hx1, hy0]
      rfl
  · refine iff_of_false (fun heq => ?_) h17
    have hexps := congrArg Sfp.exp heq
    rw [renormalize_exp h16, renormalize_exp h16, if_pos (Nat.le_of_not_lt h17),
      if_pos (Nat.le_of_not_lt h17)] at hexps
    obtain ⟨hx0, hy1⟩ | ⟨hx1, hy0⟩ := h01
    · rw [hx0, hy1] at hexps
      exact absurd hexps (by decide)
    · rw [hx1, hy0] at hexps
      exact absurd hexps (by decide)

theorem sumOrdered_of_lt (h : y.place < x.place) (hsign : x.sign = y.sign) (ret : Mysfp) :
    sumOrdered ret x y = renormalize { ret with sign := x.sign, exp := x.exp }
      (x.signif + shiftRte (x.place - y.place) y.signif) := by
  have hplace : x.place < 128 := by
    unfold Sfp.place
    omega
  have hx := x.signif_lt
  have hy := y.signif_lt
  have hshift : shiftRte (x.place - y.place) y.signif ≤ 2 ^ 17 := by
    by_cases h18 : x.place - y.place < 18
    · have hle := Nat.div_le_self y.signif (2 ^ (x.place - y.place))
      rw [shiftRte_eq h18]
      split <;> omega
    · rw [shiftRte_far (by omega)]
      omega
  unfold sumOrdered
  dsimp only
  rw [show (x.place + 2 ^ 32 - y.place) % 2 ^ 32 = x.place - y.place by omega, if_pos hsign,
    Nat.mod_eq_of_lt (by omega)]

theorem sumOrdered_of_gt (h : y.place < x.place) (hsign : x.sign = y.sign) (ret : Mysfp) :
    sumOrdered ret y x =
      renormalize { ret with sign := y.sign, exp := y.exp } (y.signif + 1) := by
  have hplace : x.place < 128 := by
    unfold Sfp.place
    omega
  have hx := x.signif_lt
  have hy := y.signif_lt
  have hx16 := Sfp.signif_normal (Sfp.normal_of_place (x := x) (by omega))
  unfold sumOrdered
  dsimp only
  rw [show (y.place + 2 ^ 32 - x.place) % 2 ^ 32 = y.place + 2 ^ 32 - x.place by omega,
    shiftRte_far (by omega), show x.signif / 2 ^ 16 = 1 by omega, if_pos hsign.symm,
    Nat.mod_eq_of_lt (by omega)]

theorem renormalize_exp_val {g : ℕ} (h16 : 2 ^ 16 ≤ g) (h127 : ret.exp ≠ 127) :
    ((renormalize ret g).exp : ℕ) =
      if 2 ^ 17 ≤ g then (ret.exp : ℕ) + 1 else max 1 (ret.exp : ℕ) := by
  have hlt := exp_lt h127
  rw [renormalize_exp h16]
  by_cases h17 : 2 ^ 17 ≤ g
  · rw [if_pos h17, if_pos h17, Fin.val_add]
    exact Nat.mod_eq_of_lt (by change (ret.exp : ℕ) + 1 < 128; omega)
  · rw [if_neg h17, if_neg h17]
    by_cases h0 : ret.exp = 0
    · rw [if_pos h0, h0]
      rfl
    · have hpos := exp_pos h0
      rw [if_neg h0]
      omega

/-- Operands in different places, in both orders: the exponents differ. -/
theorem sumOrdered_ne_of_place (ret ret' : Mysfp) (hx : x.exp ≠ 127) (hy : y.exp ≠ 127)
    (hsign : x.sign = y.sign) (h : y.place < x.place) :
    (sumOrdered ret x y).toSfp ≠ (sumOrdered ret' y x).toSfp := by
  intro heq
  have hexps : ((sumOrdered ret x y).exp : ℕ) = (sumOrdered ret' y x).exp := by rw [heq]
  have hx16 := Sfp.signif_normal (Sfp.normal_of_place (x := x) (by omega))
  have hylt := y.signif_lt
  have hplace : (y.exp : ℕ) - 1 < x.exp - 1 := h
  rw [sumOrdered_of_lt h hsign, sumOrdered_of_gt h hsign,
    renormalize_exp_val (Nat.le_add_right_of_le hx16) hx] at hexps
  by_cases hy16 : 2 ^ 16 ≤ y.signif + 1
  · rw [renormalize_exp_val hy16 hy] at hexps
    dsimp only at hexps
    by_cases h17 : 2 ^ 17 ≤ y.signif + 1
    · -- a carry in the lower place, and then one in the higher place, too
      have hy0 : y.exp ≠ 0 := fun h0 => by
        have hlt := Sfp.signif_denormal h0
        omega
      have hypos := exp_pos hy0
      rw [if_pos h17] at hexps
      by_cases hnext : (x.exp : ℕ) = y.exp + 1
      · have hd : x.place - y.place = 1 := by
          unfold Sfp.place
          omega
        have hshift : shiftRte (x.place - y.place) y.signif = 2 ^ 16 := by
          rw [hd, show y.signif = 2 ^ 17 - 1 by omega]
          rfl
        rw [hshift, if_pos (by omega)] at hexps
        omega
      · split at hexps <;> omega
    · rw [if_neg h17] at hexps
      split at hexps <;> omega
  · have hy0 : y.exp = 0 := Sfp.exp_eq_zero_iff.2 (by omega)
    rw [renormalize_exp_zero (Nat.lt_of_not_le hy16) hy0] at hexps
    change _ = 0 at hexps
    split at hexps <;> omega

theorem sumOrdered_comm_iff (ret ret' : Mysfp) (hx : x.exp ≠ 127) (hy : y.exp ≠ 127) :
    (sumOrdered ret x y).toSfp = (sumOrdered ret' y x).toSfp ↔ SumCommutes x y := by
  unfold SumCommutes
  by_cases hsign : x.sign = y.sign
  · rw [and_iff_right hsign]
    obtain h | h | h := Nat.lt_trichotomy x.place y.place
    · refine iff_of_false (fun heq => ?_) (fun h' => by omega)
      exact sumOrdered_ne_of_place ret' ret hy hx hsign.symm h heq.symm
    · rw [and_iff_right h]
      exact sumOrdered_comm_iff_of_place ret ret' hsign h
    · exact iff_of_false (sumOrdered_ne_of_place ret ret' hx hy hsign h) (fun h' => by omega)
  · refine iff_of_false (fun heq => hsign ?_) (fun h => hsign h.1)
    have hsigns := congrArg Sfp.sign heq
    rwa [sumOrdered_sign, sumOrdered_sign] at hsigns

end Sums

section Products
variable {x y : Sfp}

theorem Sfp.eq_of_value_inf {s : Bool} (hx : x.value = .inf s) (hy : y.value = .inf s) : x = y := by
  have hinf : ∀ {z : Sfp}, z.value = .inf s → z.IsInf := by
    intro z hz
    obtain h | h | h := z.kinds
    · rw [h.value] at hz
      cases hz
    · exact h
    · rw [Sfp.value_finite h] at hz
      cases hz
  have hx' := hinf hx
  have hy' := hinf hy
  rw [hx'.value, Value.inf.injEq] at hx
  rw [hy'.value, Value.inf.injEq] at hy
  have hsign : x.sign = y.sign := by
    have hdecide := hx.trans hy.symm
    generalize x.sign = s at *
    generalize y.sign = t at *
    clear hx hy
    revert s t
    decide
  obtain ⟨s, e, f⟩ := x
  obtain ⟨t, e', f'⟩ := y
  rw [Sfp.mk.injEq]
  exact ⟨hsign, hx'.1.trans hy'.1.symm, hx'.2.trans hy'.2.symm⟩

theorem mulOrdered_inf_comm_iff (ret ret' : Mysfp) (hx : x.IsInf) (hy : y.exp ≠ 127)
    (hy0 : ¬y.IsZero) : (mulOrdered ret x.word y.word).toSfp =
      (mulOrdered ret' y.word x.word).toSfp ↔
      y.exp = 63 := by
  have hx0 : ¬x.IsZero := fun h0 => h0.exp_ne hx.1
  have hvalue : (mulOrdered ret x.word y.word).toSfp.value =
      .inf (decide (x.sign ^^^ y.sign = 1)) := by
    rw [mulOrdered_inf ret hx (fun h => hy h.1) hy0, value_inf]
  rw [mulOrdered_finite ret' hy hy0 hx.not_isNan hx0]
  obtain ⟨hinf, h63⟩ | ⟨⟨v, hfin⟩, h63⟩ :=
    mulFinite_inf { ret' with sign := y.sign ^^^ x.sign } hy hx
  · refine iff_of_true (Sfp.eq_of_value_inf hvalue ?_) h63
    rw [hinf, xor_sign_comm]
  · refine iff_of_false (fun heq => ?_) h63
    rw [heq, hfin] at hvalue
    cases hvalue

/-- The product, in both orders. -/
theorem mulOrdered_comm_iff (ret ret' : Mysfp) (x y : Sfp) :
    (mulOrdered ret x.word y.word).toSfp = (mulOrdered ret' y.word x.word).toSfp ↔
      ProductCommutes x y := by
  by_cases hnan : x.IsNan ∨ y.IsNan
  · rw [mulOrdered_nan ret hnan, mulOrdered_nan ret' hnan.symm, xor_sign_comm]
    refine iff_of_true rfl ⟨fun hx hy => ?_, fun hy hx => ?_⟩
    · exact (hnan.elim hx.not_isNan fun h => hy h.1).elim
    · exact (hnan.elim (fun h => hx h.1) hy.not_isNan).elim
  obtain ⟨hxn, hyn⟩ := not_or.1 hnan
  by_cases hzero : x.IsZero ∨ y.IsZero
  · have hcommutes : ProductCommutes x y := by
      refine ⟨fun hx hy hy0 => ?_, fun hy hx hx0 => ?_⟩
      · exact (hzero.elim (fun h0 => h0.exp_ne hx.1) hy0).elim
      · exact (hzero.elim hx0 fun h0 => h0.exp_ne hy.1).elim
    by_cases hinf : x.IsInf ∨ y.IsInf
    · rw [mulOrdered_zero_inf ret hzero hinf, mulOrdered_zero_inf ret' hzero.symm hinf.symm,
        xor_sign_comm]
      exact iff_of_true rfl hcommutes
    · obtain ⟨hxi, hyi⟩ := not_or.1 hinf
      have hx : x.exp ≠ 127 := fun h => (x.kinds.elim hxn fun h' => h'.elim hxi fun h' => h' h)
      have hy : y.exp ≠ 127 := fun h => (y.kinds.elim hyn fun h' => h'.elim hyi fun h' => h' h)
      rw [mulOrdered_zero ret hzero hx hy, mulOrdered_zero ret' hzero.symm hy hx, xor_sign_comm]
      exact iff_of_true rfl hcommutes
  obtain ⟨hx0, hy0⟩ := not_or.1 hzero
  obtain hx | hx := x.kinds.resolve_left hxn <;> obtain hy | hy := y.kinds.resolve_left hyn
  · rw [mulOrdered_inf ret hx hyn hy0, mulOrdered_inf ret' hy hxn hx0, xor_sign_comm]
    exact iff_of_true rfl ⟨fun _ h => absurd hy.1 h, fun _ h => absurd hx.1 h⟩
  · rw [mulOrdered_inf_comm_iff ret ret' hx hy hy0]
    exact ⟨fun h => ⟨fun _ _ _ => h, fun h' => absurd h'.1 hy⟩, fun h => h.1 hx hy hy0⟩
  · rw [eq_comm, mulOrdered_inf_comm_iff ret' ret hy hx hx0]
    exact ⟨fun h => ⟨fun h' => absurd h'.1 hx, fun _ _ _ => h⟩, fun h => h.2 hy hx hx0⟩
  · rw [mulOrdered_finite ret hx hx0 hyn hy0, mulOrdered_finite ret' hy hy0 hxn hx0,
      mulFinite_comm _ x y, xor_sign_comm]
    refine iff_of_true (mulFinite_toSfp rfl rfl rfl) ?_
    exact ⟨fun h => absurd h.1 hx, fun h => absurd h.1 hy⟩

end Products

section Words
variable {a b a' b' : Mysfp}

theorem sfpAdd_unordered (ret ret' : Mysfp) (ha : a.toSfp = a'.toSfp) (hb : b.toSfp = b'.toSfp)
    (h : ¬BothFinite a.toSfp b.toSfp) : (sfpAdd ret a b).toSfp = (sfpAdd ret' a' b').toSfp := by
  unfold sfpAdd
  rw [ha, hb] at h ⊢
  split_ifs with h1 _ _ _ _ h2 _ ha0 hb0
  · rfl
  · rfl
  · rfl
  · rfl
  · exact ha
  · rfl
  · exact hb
  · exact hb
  · exact ha
  · exact absurd ⟨h1, h2, ha0, hb0⟩ h

theorem sfpAdd_ordered (ret : Mysfp) (h : BothFinite a.toSfp b.toSfp) : sfpAdd ret a b =
    if (cleared b).u < (cleared a).u then sumOrdered ret a.toSfp b.toSfp
    else sumOrdered ret b.toSfp a.toSfp := by
  obtain ⟨h1, h2, ha0, hb0⟩ := h
  rw [← addFinite_ordered]
  unfold sfpAdd
  rw [if_neg h1, if_neg h2]
  exact (if_neg ha0).trans (if_neg hb0)

theorem sfpAdd_padding_iff (ret ret' : Mysfp) (ha : a.toSfp = a'.toSfp) (hb : b.toSfp = b'.toSfp) :
    (sfpAdd ret a b).toSfp = (sfpAdd ret' a' b').toSfp ↔ AddPadding a b a' b' := by
  unfold AddPadding
  by_cases hfin : BothFinite a.toSfp b.toSfp
  · rw [sfpAdd_ordered ret hfin, sfpAdd_ordered ret' (ha ▸ hb ▸ hfin), ← ha, ← hb,
      imp_iff_right hfin]
    by_cases h : (cleared b).u < (cleared a).u <;> by_cases h' : (cleared b').u < (cleared a').u
    · rw [if_pos h, if_pos h']
      exact iff_of_true (sumOrdered_toSfp _ _ _ _) (.inl (iff_of_true h h'))
    · rw [if_pos h, if_neg h', sumOrdered_comm_iff ret ret' hfin.1 hfin.2.1]
      exact (or_iff_right fun hiff => h' (hiff.1 h)).symm
    · rw [if_neg h, if_pos h', eq_comm, sumOrdered_comm_iff ret' ret hfin.1 hfin.2.1]
      exact (or_iff_right fun hiff => h (hiff.2 h')).symm
    · rw [if_neg h, if_neg h']
      exact iff_of_true (sumOrdered_toSfp _ _ _ _) (.inl (iff_of_false h h'))
  · exact iff_of_true (sfpAdd_unordered ret ret' ha hb hfin) fun h => absurd h hfin

theorem sfpMul_ordered (ret a b : Mysfp) : sfpMul ret a b =
    if (flipped b).u < (flipped a).u then mulOrdered ret a b else mulOrdered ret b a := rfl

theorem sfpMul_padding_iff (ret ret' : Mysfp) (ha : a.toSfp = a'.toSfp) (hb : b.toSfp = b'.toSfp) :
    (sfpMul ret a b).toSfp = (sfpMul ret' a' b').toSfp ↔ MulPadding a b a' b' := by
  have hab : (mulOrdered ret a b).toSfp = (mulOrdered ret a.toSfp.word b.toSfp.word).toSfp :=
    mulOrdered_toSfp rfl rfl
  have hba : (mulOrdered ret b a).toSfp = (mulOrdered ret b.toSfp.word a.toSfp.word).toSfp :=
    mulOrdered_toSfp rfl rfl
  have hab' : (mulOrdered ret' a' b').toSfp = (mulOrdered ret' a.toSfp.word b.toSfp.word).toSfp :=
    mulOrdered_toSfp ha.symm hb.symm
  have hba' : (mulOrdered ret' b' a').toSfp = (mulOrdered ret' b.toSfp.word a.toSfp.word).toSfp :=
    mulOrdered_toSfp hb.symm ha.symm
  rw [sfpMul_ordered, sfpMul_ordered, MulPadding]
  by_cases h : (flipped b).u < (flipped a).u <;> by_cases h' : (flipped b').u < (flipped a').u
  · rw [if_pos h, if_pos h', hab, hab']
    exact iff_of_true (mulOrdered_toSfp rfl rfl) (.inl (iff_of_true h h'))
  · rw [if_pos h, if_neg h', hab, hba', mulOrdered_comm_iff]
    exact (or_iff_right fun hiff => h' (hiff.1 h)).symm
  · rw [if_neg h, if_pos h', hba, hab', eq_comm, mulOrdered_comm_iff]
    exact (or_iff_right fun hiff => h (hiff.2 h')).symm
  · rw [if_neg h, if_neg h', hba, hba']
    exact iff_of_true (mulOrdered_toSfp rfl rfl) (.inl (iff_of_false h h'))

end Words

/-- The bits that are not used do not change a result just where they do not change the order of
the operands or the order does not matter. -/
theorem padding_iff (ret ret' a b a' b' : Mysfp) (ha : a.toSfp = a'.toSfp)
    (hb : b.toSfp = b'.toSfp) :
    (sfpAdd ret a b).toSfp = (sfpAdd ret' a' b').toSfp ∧
        (sfpMul ret a b).toSfp = (sfpMul ret' a' b').toSfp ↔
      AddPadding a b a' b' ∧ MulPadding a b a' b' :=
  and_congr (sfpAdd_padding_iff ret ret' ha hb) (sfpMul_padding_iff ret ret' ha hb)

/-- 1 + 1 and 1 · 1 with other upper bits in the second word. -/
theorem padding_one :
    (sfpAdd ⟨⟨0, 0, 0⟩, 0⟩ ⟨⟨0, 63, 0⟩, 0⟩ ⟨⟨0, 63, 0⟩, 0⟩).toSfp =
        (sfpAdd ⟨⟨0, 0, 0⟩, 9⟩ ⟨⟨0, 63, 0⟩, 0⟩ ⟨⟨0, 63, 0⟩, 7⟩).toSfp ∧
      (sfpMul ⟨⟨0, 0, 0⟩, 0⟩ ⟨⟨0, 63, 0⟩, 0⟩ ⟨⟨0, 63, 0⟩, 0⟩).toSfp =
        (sfpMul ⟨⟨0, 0, 0⟩, 9⟩ ⟨⟨0, 63, 0⟩, 0⟩ ⟨⟨0, 63, 0⟩, 7⟩).toSfp :=
  (padding_iff _ _ _ _ _ _ rfl rfl).2 ⟨fun _ => .inl (by decide), .inl (by decide)⟩

/-- 2 - 1 with an upper bit set in the second word: the operands are taken in the other order, and
the difference gets the sign of the second one. -/
theorem sfpAdd_padded :
    (sfpAdd ⟨⟨0, 0, 0⟩, 0⟩ ⟨⟨0, 64, 0⟩, 0⟩ ⟨⟨1, 63, 0⟩, 0⟩).toSfp ≠
      (sfpAdd ⟨⟨0, 0, 0⟩, 0⟩ ⟨⟨0, 64, 0⟩, 0⟩ ⟨⟨1, 63, 0⟩, 1⟩).toSfp := by
  have hfin : BothFinite ⟨0, 64, 0⟩ ⟨1, 63, 0⟩ :=
    ⟨by decide, by decide, fun h => absurd h.1 (by decide), fun h => absurd h.1 (by decide)⟩
  intro h
  have hsign := congrArg Sfp.sign h
  rw [sfpAdd_ordered _ hfin, sfpAdd_ordered _ hfin, if_pos (by decide), if_neg (by decide),
    sumOrdered_sign, sumOrdered_sign] at hsign
  cases hsign

end SoftFloat
