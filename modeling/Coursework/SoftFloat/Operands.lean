import Coursework.SoftFloat.Sums

/-! The operands of an addition in the order of their magnitudes, and the significand that
`sfp_add` computes from them. -/
namespace SoftFloat
open NearestEven

theorem sign_cases (s : Fin 2) : s = 0 ∨ s = 1 := by
  revert s
  decide

theorem natAbs_signed (s : Fin 2) (m : ℕ) : (signed s m).natAbs = m := by
  unfold signed
  split <;> omega

theorem signed_inj {s : Fin 2} {m m' : ℕ} : signed s m = signed s m' ↔ m = m' := by
  refine ⟨fun h => ?_, fun h => by rw [h]⟩
  rw [← natAbs_signed s m, h, natAbs_signed]

theorem ofMag_of_lt {s : Fin 2} {m : ℕ} (h : m < limit) : ofMag s m = .fin (signed s m) :=
  if_neg (Nat.not_le.2 h)

theorem ofMag_of_le {s : Fin 2} {m : ℕ} (h : limit ≤ m) : ofMag s m = .inf (decide (s = 1)) :=
  if_pos h

theorem ofMag_inj {s : Fin 2} {m m' : ℕ} (hm : m ≤ limit) (hm' : m' ≤ limit) :
    ofMag s m = ofMag s m' ↔ m = m' := by
  refine ⟨fun h => ?_, fun h => by rw [h]⟩
  by_cases hlt : m < limit
  · rw [ofMag_of_lt hlt] at h
    by_cases hlt' : m' < limit
    · rw [ofMag_of_lt hlt', Value.fin.injEq, signed_inj] at h
      exact h
    · rw [ofMag_of_le (Nat.le_of_not_lt hlt')] at h
      cases h
  · rw [ofMag_of_le (Nat.le_of_not_lt hlt)] at h
    by_cases hlt' : m' < limit
    · rw [ofMag_of_lt hlt'] at h
      cases h
    · omega

/-- A rounded magnitude with the sign of the number that was rounded. -/
theorem eq_ofMag_iff {s : Fin 2} {m v : ℕ} (hzero : m = 0 → v = 0) {r : Value} :
    r = ofMag s v ↔ v < limit ∧ r = .fin ((signed s m).sign * v) ∨
      limit ≤ v ∧ r = .inf (decide (signed s m < 0)) := by
  have hsign : (signed s m).sign * (v : ℤ) = signed s v := by
    by_cases h0 : m = 0
    · rw [hzero h0, h0]
      obtain rfl | rfl := sign_cases s <;> rfl
    · obtain rfl | rfl := sign_cases s
      · have hpos : signed 0 m = (m : ℤ) := rfl
        rw [hpos, Int.sign_eq_one_of_pos (by omega), one_mul]
        rfl
      · have hneg : signed 1 m = -(m : ℤ) := rfl
        rw [hneg, Int.sign_eq_neg_one_of_neg (by omega), neg_one_mul]
        rfl
  have hneg : limit ≤ v → decide (signed s m < 0) = decide (s = 1) := by
    intro hle
    have hpos : 0 < m := by
      by_contra h0
      rw [hzero (by omega)] at hle
      exact absurd hle (by decide)
    obtain rfl | rfl := sign_cases s
    · exact decide_eq_false (by change ¬ (m : ℤ) < 0; omega)
    · exact decide_eq_true (by change -(m : ℤ) < 0; omega)
  rw [hsign]
  by_cases hlt : v < limit
  · rw [ofMag_of_lt hlt]
    exact ⟨fun h => .inl ⟨hlt, h⟩, fun h => h.elim And.right fun h => absurd hlt (Nat.not_lt.2 h.1)⟩
  · have hle := Nat.le_of_not_lt hlt
    rw [ofMag_of_le hle, hneg hle]
    exact ⟨fun h => .inr ⟨hle, h⟩, fun h => h.elim (fun h => absurd h.1 hlt) And.right⟩

theorem rounds_signed {s : Fin 2} {m : ℕ} {r : Value} :
    Rounds (signed s m) r ↔ r = ofMag s (roundEven 17 m) := by
  rw [eq_ofMag_iff (m := m) fun h => by rw [h]; rfl]
  constructor
  · rintro (⟨m', hm', hlt⟩ | ⟨m', hm', hle⟩)
    · rw [natAbs_signed, nearest_iff (by decide)] at hm'
      rw [hm'] at hlt ⊢
      exact .inl ⟨hlt, rfl⟩
    · rw [natAbs_signed, nearest_iff (by decide)] at hm'
      rw [hm'] at hle
      exact .inr ⟨hle, rfl⟩
  · have hnearest : Nearest 17 (signed s m).natAbs (roundEven 17 m) := by
      rw [natAbs_signed]
      exact nearest_roundEven (by decide) m
    rintro (⟨hlt, rfl⟩ | ⟨hle, rfl⟩)
    · exact .fin _ hnearest hlt
    · exact .inf _ hnearest hle

/-- The exponent and the fraction as one number. -/
def Sfp.key (x : Sfp) : ℕ := x.exp * 2 ^ 16 + x.frac

theorem Sfp.signif_lt (x : Sfp) : x.signif < 2 ^ 17 := by
  have h := x.frac.isLt
  unfold Sfp.signif
  split <;> omega

theorem Sfp.signif_normal {x : Sfp} (h : x.exp ≠ 0) : 2 ^ 16 ≤ x.signif := by
  unfold Sfp.signif
  rw [if_neg h]
  omega

theorem Sfp.signif_denormal {x : Sfp} (h : x.exp = 0) : x.signif < 2 ^ 16 := by
  unfold Sfp.signif
  rw [if_pos h]
  exact x.frac.isLt

/-- What the order of the magnitudes says of the significands. -/
structure Ordered (x y : Sfp) : Prop where
  place_le : y.place ≤ x.place
  signif_le : x.place = y.place → y.signif ≤ x.signif
  denormal : x.exp = 0 → y.exp = 0

theorem ordered_of_key {x y : Sfp} (h : y.key ≤ x.key) : Ordered x y := by
  have hx := x.frac.isLt
  have hy := y.frac.isLt
  unfold Sfp.key at h
  have hexp : (y.exp : ℕ) ≤ x.exp := by omega
  refine ⟨Nat.sub_le_sub_right hexp 1, fun hplace => ?_, fun h0 => ?_⟩
  · unfold Sfp.place at hplace
    by_cases hy0 : y.exp = 0
    · by_cases hx0 : x.exp = 0
      · rw [hx0, hy0] at h
        unfold Sfp.signif
        rw [if_pos hx0, if_pos hy0]
        omega
      · have := Sfp.signif_normal hx0
        have := Sfp.signif_denormal hy0
        omega
    · have hy1 := exp_pos hy0
      have heq : (y.exp : ℕ) = x.exp := by omega
      have hx0 : x.exp ≠ 0 := by
        intro h0
        rw [h0] at heq
        exact hy0 (Fin.ext heq)
      unfold Sfp.signif
      rw [if_neg hx0, if_neg hy0]
      omega
  · rw [h0] at hexp
    exact Fin.ext (Nat.le_zero.1 hexp)

theorem Sfp.normal_of_place {x : Sfp} (h : 0 < x.place) : x.exp ≠ 0 := by
  intro h0
  unfold Sfp.place at h
  rw [h0] at h
  exact absurd h (Nat.not_lt_zero _)

/-- The smaller significand is not larger when it has been shifted. -/
theorem Ordered.shift_le {x y : Sfp} (h : Ordered x y) :
    shiftRte (x.place - y.place) y.signif ≤ x.signif := by
  have hy := y.signif_lt
  by_cases h0 : x.place = y.place
  · have hle := h.signif_le h0
    rw [h0, Nat.sub_self, shiftRte_eq (by decide), if_neg (not_roundsAway_zero _), pow_zero,
      Nat.div_one]
    exact hle
  · have hle := h.place_le
    have hx := Sfp.signif_normal (Sfp.normal_of_place (x := x) (by omega))
    obtain ⟨d, hd⟩ : ∃ d, x.place - y.place = d + 1 := ⟨x.place - y.place - 1, by omega⟩
    rw [hd]
    by_cases h18 : d + 1 < 18
    · have hhalf : y.signif / 2 ^ (d + 1) ≤ y.signif / 2 := by
        rw [pow_succ, Nat.mul_comm, ← Nat.div_div_eq_div_mul]
        exact Nat.div_le_self _ _
      rw [shiftRte_eq h18]
      split <;> omega
    · rw [shiftRte_far (by omega)]
      omega

/-- The significand that is normalized. -/
def signifSum (x y : Sfp) : ℕ :=
  if x.sign = y.sign then x.signif + shiftRte (x.place - y.place) y.signif
  else x.signif - shiftRte (x.place - y.place) y.signif

/-- The operand with the larger magnitude, as `sfp_add` compares them. -/
def larger (a b : Sfp) : Sfp := if b.key < a.key then a else b

def smaller (a b : Sfp) : Sfp := if b.key < a.key then b else a

theorem ordered_larger (a b : Sfp) : Ordered (larger a b) (smaller a b) := by
  unfold larger smaller
  by_cases h : b.key < a.key
  · rw [if_pos h, if_pos h]
    exact ordered_of_key h.le
  · rw [if_neg h, if_neg h]
    exact ordered_of_key (Nat.le_of_not_lt h)

theorem frac_or (f : Fin 65536) : (f : ℕ) ||| 0x10000 = 65536 + f := by
  have h := Nat.two_pow_add_eq_or_of_lt (i := 16) f.isLt 1
  rw [Nat.mul_one] at h
  rw [Nat.or_comm]
  exact h.symm

/-- The sum of two finite floats, the first of which gives the sign and the exponent. -/
def sumOrdered (ret : Mysfp) (x y : Sfp) : Mysfp :=
  let shifted := shiftRte ((x.place + 2 ^ 32 - y.place) % 2 ^ 32) y.signif
  renormalize { ret with sign := x.sign, exp := x.exp }
    (if x.sign = y.sign then (x.signif + shifted) % 2 ^ 64
      else (x.signif + 2 ^ 64 - shifted) % 2 ^ 64)

/-- The word that `sfp_add` compares. -/
def cleared (ms : Mysfp) : Mysfp := { ms with sign := 0 }

theorem addFinite_ordered (ret in1 in2 : Mysfp) : addFinite ret in1 in2 =
    if (cleared in2).u < (cleared in1).u then sumOrdered ret in1.toSfp in2.toSfp
    else sumOrdered ret in2.toSfp in1.toSfp := by
  have hsignif : ∀ c : Mysfp,
      (if c.exp = 0 then (c.frac : ℕ) else c.frac ||| 0x10000) = c.toSfp.signif := by
    intro c
    rw [frac_or]
    rfl
  have hexp : ∀ c : Mysfp, (if c.exp = 0 then 1 else (c.exp : ℕ)) = c.toSfp.place + 1 := by
    intro c
    unfold Sfp.place
    by_cases h0 : c.exp = 0
    · rw [h0]
      rfl
    · have hpos := exp_pos h0
      rw [if_neg h0]
      omega
  have hordered : ∀ ms1 ms2 : Mysfp,
      (if ms1.sign = ms2.sign then
        renormalize { ret with sign := ms1.sign, exp := ms1.exp } ((ms1.toSfp.signif +
          shiftRte ((ms1.toSfp.place + 1 + 2 ^ 32 - (ms2.toSfp.place + 1)) % 2 ^ 32)
            ms2.toSfp.signif) % 2 ^ 64)
      else renormalize { ret with sign := ms1.sign, exp := ms1.exp } ((ms1.toSfp.signif + 2 ^ 64 -
          shiftRte ((ms1.toSfp.place + 1 + 2 ^ 32 - (ms2.toSfp.place + 1)) % 2 ^ 32)
            ms2.toSfp.signif) % 2 ^ 64)) = sumOrdered ret ms1.toSfp ms2.toSfp := by
    intro ms1 ms2
    unfold sumOrdered
    rw [Nat.add_right_comm, Nat.add_sub_add_right]
    dsimp only
    split <;> rfl
  have hu : ∀ c : Mysfp, ({ c with sign := 0 } : Mysfp).u = (cleared c).u := fun _ => rfl
  unfold addFinite
  dsimp only
  rw [hu, hu]
  by_cases h : (cleared in2).u < (cleared in1).u
  · simp only [if_pos h, hsignif, hexp]
    exact hordered in1 in2
  · simp only [if_neg h, hsignif, hexp]
    exact hordered in2 in1

theorem word_u_cleared (c : Sfp) : (cleared c.word).u = c.key := by
  unfold Mysfp.u Sfp.key
  change 0 * 2 ^ 24 + 0 * 2 ^ 23 + (c.exp : ℕ) * 2 ^ 16 + c.frac = _
  omega

theorem Ordered.sumOrdered_eq {x y : Sfp} (h : Ordered x y) (ret : Mysfp) : sumOrdered ret x y =
    renormalize { ret with sign := x.sign, exp := x.exp } (signifSum x y) := by
  have hplace : x.place < 128 := by
    unfold Sfp.place
    omega
  have hle := h.place_le
  have hshift := h.shift_le
  have hlt := x.signif_lt
  have hnum : (x.place + 2 ^ 32 - y.place) % 2 ^ 32 = x.place - y.place := by omega
  unfold sumOrdered signifSum
  dsimp only
  rw [hnum, Nat.mod_eq_of_lt (by omega)]
  have hwrap : (x.signif + 2 ^ 64 - shiftRte (x.place - y.place) y.signif) % 2 ^ 64 =
      x.signif - shiftRte (x.place - y.place) y.signif := by omega
  rw [hwrap]

theorem addFinite_eq (ret : Mysfp) (a b : Sfp) : addFinite ret a.word b.word =
    renormalize { ret with sign := (larger a b).sign, exp := (larger a b).exp }
      (signifSum (larger a b) (smaller a b)) := by
  rw [addFinite_ordered, word_u_cleared, word_u_cleared, ← (ordered_larger a b).sumOrdered_eq]
  unfold larger smaller
  by_cases h : b.key < a.key
  · rw [if_pos h, if_pos h, if_pos h]
    rfl
  · rw [if_neg h, if_neg h, if_neg h]
    rfl

end SoftFloat
