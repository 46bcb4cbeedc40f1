import Mathlib.Tactic.FieldSimp
import Mathlib.Tactic.Positivity
import Mathlib.Tactic.Ring
import Mathlib.Tactic.NormNum
import Mathlib.Tactic.Linarith
import Coursework.BufferedFtl.Aging

/-! When the victim selectors avoid the fully valid blocks. The truncated scores are quotients of
integers; a fully valid block scores `0` in the cost-benefit scan and `INT_MAX` in the other. -/
namespace BufferedFtl
open Nand Sector PageMap Selection

theorem validPages_le (s : Bank Wear) (pblk : ℕ) : validPages s pblk ≤ 16 := validCnt_le _ _ _

theorem validPages_lt {s : Bank Wear} {pblk : ℕ} : validPages s pblk < 16 ↔
    ∃ i < pagesPerBlk, s.isValid (pblk * pagesPerBlk + i) = false :=
  @validCnt_lt geometry _ _ _

section Scores
variable {b : Build} {s : Bank Wear} {c : ℕ}

theorem getU_eq (s : Bank Wear) (pblk : ℕ) : getU s pblk = (validPages s pblk : ℚ) / 16 := by
  unfold getU
  split_ifs with h
  · simp [h]
  · rfl

theorem divInt_eq {overflow a : ℤ} {d : ℕ} {x y : ℚ} (hy : y ≠ 0) (hd : 0 < d) (ha : 0 ≤ a)
    (hfit : a < (intMax + 1) * d) (hxy : x / y = a / d) : divInt overflow x y = a / d := by
  have hq : 0 ≤ a / (d : ℤ) := Int.ediv_nonneg ha (by omega)
  have hlt : a / (d : ℤ) < intMax + 1 := Int.ediv_lt_of_lt_mul (by omega) hfit
  have hfloor : ⌊(a / d : ℚ)⌋ = a / (d : ℤ) := Rat.floor_intCast_div_natCast a d
  have h0 : (0 : ℚ) ≤ a / d := div_nonneg (by exact_mod_cast ha) d.cast_nonneg
  unfold divInt toInt
  rw [if_neg hy, hxy]
  simp only [if_pos h0, hfloor]
  rw [if_pos ⟨by unfold intMax; omega, by omega⟩]

theorem cbScore_eq (hv : 0 < validPages s c) (hage : 0 ≤ s.aux.age c)
    (hfit : (16 - validPages s c : ℤ) * s.aux.age c < (intMax + 1) * (2 * validPages s c)) :
    b.cbScore s c = (16 - validPages s c : ℤ) * s.aux.age c / (2 * validPages s c) := by
  have hle := validPages_le s c
  have hne : (validPages s c : ℚ) ≠ 0 := Nat.cast_ne_zero.mpr hv.ne'
  unfold Build.cbScore
  dsimp only
  rw [getU_eq]
  have h := @divInt_eq b.overflow ((16 - validPages s c : ℤ) * s.aux.age c) (2 * validPages s c)
    ((1 - (validPages s c : ℚ) / 16) * s.aux.age c) (2 * ((validPages s c : ℚ) / 16))
    (by positivity) (by omega) (mul_nonneg (by omega) hage) (by push_cast; exact hfit)
    (by push_cast; field_simp)
  rw [h]
  push_cast
  rfl

theorem cbScore_full (hv : validPages s c = 16) (hage : 0 ≤ s.aux.age c) : b.cbScore s c = 0 := by
  rw [cbScore_eq (by omega) hage (by rw [hv]; simp [intMax]), hv]
  simp

theorem catScore_eq (hv : validPages s c < 16) (hage : 0 < s.aux.age c)
    (hfit : (validPages s c * s.aux.eraseCount c : ℤ) <
      (intMax + 1) * ((16 - validPages s c) * s.aux.age c)) :
    b.catScore s c = (validPages s c * s.aux.eraseCount c : ℤ) /
      ((16 - validPages s c) * s.aux.age c) := by
  obtain ⟨n, hn⟩ : ∃ n : ℕ, s.aux.age c = n := ⟨(s.aux.age c).toNat, by omega⟩
  obtain ⟨m, hm⟩ : ∃ m : ℕ, validPages s c + m = 16 := ⟨16 - validPages s c, by omega⟩
  have hm0 : 0 < m := by omega
  have hn0 : 0 < n := by omega
  have hmz : (16 - validPages s c : ℤ) = m := by omega
  have hmq : (1 - (validPages s c : ℚ) / 16) = m / 16 := by
    have : (validPages s c : ℚ) + m = 16 := by exact_mod_cast hm
    linarith
  have hu : ¬(validPages s c : ℚ) / 16 = 1 := by
    intro he
    have : (validPages s c : ℚ) = 16 := by linarith
    exact hv.ne (by exact_mod_cast this)
  unfold Build.catScore
  dsimp only
  rw [hmz, hn] at hfit ⊢
  rw [getU_eq, if_neg hu, hmq]
  have hmq0 : (m : ℚ) ≠ 0 := Nat.cast_ne_zero.mpr hm0.ne'
  have hnq0 : (n : ℚ) ≠ 0 := Nat.cast_ne_zero.mpr hn0.ne'
  have h := @divInt_eq b.overflow (validPages s c * s.aux.eraseCount c : ℕ) (m * n)
    ((validPages s c : ℚ) / 16 * s.aux.eraseCount c) ((m : ℚ) / 16 * (n : ℤ))
    (by positivity) (Nat.mul_pos hm0 hn0) (by omega) (by push_cast; exact hfit)
    (by push_cast; field_simp)
  rw [h]
  push_cast
  rfl

theorem catScore_full (hv : validPages s c = 16) : b.catScore s c = intMax := by
  unfold Build.catScore
  dsimp only
  rw [getU_eq, hv, if_pos (by norm_num)]

end Scores

section Progress
variable {b : Build} {s : Bank Wear}

/-- A block scores better than the fully valid ones do, or none of these is examined after it. -/
def Leads (s : Bank Wear) (c : ℕ) (better : Prop) : Prop :=
  better ∨ ∀ d < c, ¬Skipped s d → validPages s d ≠ 16

/-- When the selector of a build avoids the fully valid blocks: some block that is not passed over
and not fully valid has a score that fits an `int` and leads. -/
def Progress (b : Build) (s : Bank Wear) : Prop :=
  match b.policy with
  | .gcGreedy => True
  | .gcCb => ∃ c < blksPerBank, ¬Skipped s c ∧ 0 < validPages s c ∧ validPages s c < 16 ∧
      (16 - validPages s c : ℤ) * s.aux.age c < (intMax + 1) * (2 * validPages s c) ∧
      Leads s c ((2 * validPages s c : ℤ) ≤ (16 - validPages s c) * s.aux.age c)
  | .gcCat => ∃ c < blksPerBank, ¬Skipped s c ∧ validPages s c < 16 ∧
      (validPages s c * s.aux.eraseCount c : ℤ) <
        (intMax + 1) * ((16 - validPages s c) * s.aux.age c) ∧
      Leads s c ((validPages s c * s.aux.eraseCount c : ℤ) <
        intMax * ((16 - validPages s c) * s.aux.age c))

/-- A scan in which the fully valid blocks are no better than block `c`, and as good only before
it, picks a block that is not fully valid. -/
theorem scan_progress (le : ℚ → ℚ → Prop) [DecidableRel le]
    (htrans : ∀ x y z, le x y → le y z → le x z) (htotal : ∀ x y, le x y ∨ le y x)
    {score : ℕ → ℚ} {acc : ℚ × ℕ} {c : ℕ} (hc : c < blksPerBank) (hskip : ¬Skipped s c)
    (hinit : le acc.1 (score c)) (hfull : ∀ d < blksPerBank, ¬Skipped s d → validPages s d = 16 →
      le (score d) (score c) ∧ (le (score c) (score d) → c < d)) :
    (scanDown le (Skipped s) score blksPerBank acc).2 < blksPerBank ∧
      ¬Skipped s (scanDown le (Skipped s) score blksPerBank acc).2 ∧
      validPages s (scanDown le (Skipped s) score blksPerBank acc).2 < 16 := by
  obtain ⟨d, hd, hds, hscan⟩ := @scanDown_mem _ le _ _ _ _ _ _ acc hc hskip hinit
  have hbest : le (score c) (scanDown le (Skipped s) score blksPerBank acc).1 ∧
      (le (scanDown le (Skipped s) score blksPerBank acc).1 (score c) →
        (scanDown le (Skipped s) score blksPerBank acc).2 ≤ c) :=
    scanDown_best htrans htotal acc hc hskip
  rw [hscan] at hbest ⊢
  refine ⟨hd, hds, lt_of_le_of_ne (validPages_le s d) fun h16 => ?_⟩
  obtain ⟨hno, hafter⟩ := hfull d hd hds h16
  exact absurd (hbest.2 hno) (not_le.mpr (hafter hbest.1))

theorem Leads.before {c d : ℕ} {better : Prop} (h : Leads s c better) (hb : ¬better)
    (hv : validPages s c < 16) (hd : ¬Skipped s d) (h16 : validPages s d = 16) : c < d := by
  rcases lt_trichotomy c d with hlt | rfl | hlt
  · exact hlt
  · omega
  · exact absurd h16 (h.resolve_left hb d hlt hd)

theorem getVictimPblkCb_spec (hages : ∀ d < blksPerBank, ¬Skipped s d → 1 ≤ s.aux.age d)
    (hb : b.policy = .gcCb) (hp : Progress b s) :
    b.getVictimPblkCb s < blksPerBank ∧ ¬Skipped s (b.getVictimPblkCb s) ∧
      validPages s (b.getVictimPblkCb s) < 16 := by
  unfold Progress at hp
  rw [hb] at hp
  obtain ⟨c, hc, hskip, hv0, hv, hfit, hleads⟩ := hp
  have hage := hages c hc hskip
  have hscore := @cbScore_eq b s c hv0 (by omega) hfit
  have hnonneg : 0 ≤ b.cbScore s c := by
    rw [hscore]
    exact Int.ediv_nonneg (mul_nonneg (by omega) (by omega)) (by omega)
  have hinit : (0 : ℚ) ≤ b.cbScore s c := by exact_mod_cast hnonneg
  refine scan_progress (fun maxScore score => maxScore ≤ score) (fun _ _ _ => le_trans) le_total
    hc hskip hinit fun d hd hds h16 => ?_
  have hfull : b.cbScore s d = 0 := cbScore_full h16 (by have := hages d hd hds; omega)
  rw [hfull]
  refine ⟨by exact_mod_cast hnonneg, fun hle => hleads.before ?_ hv hds h16⟩
  intro hbetter
  have hpos : 1 ≤ b.cbScore s c := by
    rw [hscore, Int.le_ediv_iff_mul_le (by omega), one_mul]
    exact hbetter
  have : b.cbScore s c ≤ 0 := by exact_mod_cast hle
  omega

theorem getVictimPblkCat_spec (hages : ∀ d < blksPerBank, ¬Skipped s d → 1 ≤ s.aux.age d)
    (hb : b.policy = .gcCat) (hp : Progress b s) :
    b.getVictimPblkCat s < blksPerBank ∧ ¬Skipped s (b.getVictimPblkCat s) ∧
      validPages s (b.getVictimPblkCat s) < 16 := by
  unfold Progress at hp
  rw [hb] at hp
  obtain ⟨c, hc, hskip, hv, hfit, hleads⟩ := hp
  have hage := hages c hc hskip
  have hden : 0 < (16 - validPages s c : ℤ) * s.aux.age c := mul_pos (by omega) (by omega)
  have hscore := @catScore_eq b s c hv (by omega) hfit
  have hle : b.catScore s c ≤ intMax := by
    have : b.catScore s c < intMax + 1 := by
      rw [hscore]
      exact Int.ediv_lt_of_lt_mul hden hfit
    omega
  refine scan_progress (fun minScore score => score ≤ minScore)
    (fun _ _ _ h1 h2 => le_trans h2 h1) (fun x y => le_total y x) hc hskip ?_
    fun d hd hds h16 => ?_
  · have hle' : (b.catScore s c : ℚ) ≤ intMax := by exact_mod_cast hle
    calc (b.catScore s c : ℚ) ≤ intMax := hle'
      _ ≤ 10 ^ 10 := by norm_num [intMax]
      _ ≤ 10 ^ 303 := pow_le_pow_right₀ (by norm_num) (by norm_num)
      _ ≤ 179769 * 10 ^ 303 := le_mul_of_one_le_left (by positivity) (by norm_num)
  · have hfull : b.catScore s d = intMax := catScore_full h16
    rw [hfull]
    refine ⟨by exact_mod_cast hle, fun hge => hleads.before ?_ hv hds h16⟩
    intro hbetter
    have hlt : b.catScore s c < intMax := by
      rw [hscore]
      exact Int.ediv_lt_of_lt_mul hden hbetter
    have : intMax ≤ b.catScore s c := by exact_mod_cast hge
    omega

/-- At a collection that meets the condition, the victim is not the free block and has an invalid
page. -/
theorem victimPblk_spec {bank : ℕ} (hs : s.Ok geometry bank) (hages : AgesFit s.toRow)
    (he : s.nextPpn = s.gcTriggerPpn) (hp : Progress b s) :
    b.victimPblk s < blksPerBank ∧ b.victimPblk s ≠ s.freePblk ∧
      ∃ i < pagesPerBlk, s.isValid (b.victimPblk s * pagesPerBlk + i) = false := by
  have haged : ∀ d < blksPerBank, ¬Skipped s d → 1 ≤ s.aux.age d := fun d hd hds =>
    hages.aged d ((opened_of_full he hd).mpr fun hf => hds (.inr hf))
  unfold Build.victimPblk
  cases hb : b.policy with
  | gcGreedy => exact hs.inv.victim he
  | gcCb =>
    obtain ⟨h1, h2, h3⟩ := getVictimPblkCb_spec haged hb hp
    exact ⟨h1, fun hf => h2 (.inr hf), validPages_lt.mp h3⟩
  | gcCat =>
    obtain ⟨h1, h2, h3⟩ := getVictimPblkCat_spec haged hb hp
    exact ⟨h1, fun hf => h2 (.inr hf), validPages_lt.mp h3⟩

end Progress

end BufferedFtl
