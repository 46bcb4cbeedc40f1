import Mathlib.Data.Nat.Bitwise
import Coursework.BigFile.Core
import Coursework.Lib.BlockTree

/-! What `balloc` does to the bitmap: it takes the first free block. -/
namespace BigFile
open BlockTree

theorem bitFree_iff (d : ℕ → ℕ) (bi : ℕ) :
    bitFree d bi ↔ (d (bi / 8)).testBit (bi % 8) = false := by
  unfold bitFree
  rw [Nat.one_shiftLeft, Nat.and_two_pow]
  cases (d (bi / 8)).testBit (bi % 8) <;> simp

theorem testBit_markBit (d : ℕ → ℕ) (bi bj : ℕ) :
    (markBit d bi (bj / 8)).testBit (bj % 8) =
      (decide (bj = bi) || (d (bj / 8)).testBit (bj % 8)) := by
  unfold markBit
  by_cases hbyte : bj / 8 = bi / 8
  · rw [hbyte, Function.update_self, Nat.testBit_or, Nat.one_shiftLeft, Nat.testBit_two_pow]
    have e : (bi % 8 = bj % 8) ↔ bj = bi := by omega
    simp only [e, Bool.or_comm]
  · have e : bj ≠ bi := by
      intro e
      exact hbyte (by rw [e])
    rw [Function.update_of_ne hbyte]
    simp [e]

/-- The bit of block `b`; what lies beyond the disk counts as in use. -/
def Fs.used (s : Fs) (b : ℕ) : Bool :=
  if b < s.sb.size then (s.disk (s.bblock b) (b % bpb / 8)).testBit (b % bpb % 8) else true

theorem used_of_le {s : Fs} {b : ℕ} (h : s.sb.size ≤ b) : s.used b = true := by
  have : ¬ b < s.sb.size := by omega
  simp [Fs.used, this]

/-- The first block after the metadata. -/
def Fs.dataStart (s : Fs) : ℕ := s.sb.size - s.sb.nblocks

/-- The order of the regions of the disk: inode blocks, bitmap, data. -/
structure Layout (s : Fs) : Prop where
  size_lt : s.sb.size < 4294967296
  inodes : ∀ {i}, i < s.sb.ninodes → s.iblock i < s.sb.bmapstart
  bitmap : ∀ {b}, b < s.sb.size → s.bblock b < s.dataStart

theorem Layout.inode_lt {s : Fs} (h : Layout s) {i : ℕ} (hi : i < s.sb.ninodes)
    (hsz : 0 < s.sb.size) : s.iblock i < s.dataStart := by
  have h1 := h.inodes hi
  have h2 := h.bitmap hsz
  have h3 : s.bblock 0 = s.sb.bmapstart := by simp [Fs.bblock]
  omega

theorem used_congr {s s' : Fs} (hsb : s'.sb = s.sb)
    (hd : ∀ b < s.sb.size, s'.disk (s.bblock b) = s.disk (s.bblock b)) : s'.used = s.used := by
  funext b
  unfold Fs.used Fs.bblock
  rw [hsb]
  by_cases hb : b < s.sb.size
  · rw [if_pos hb, if_pos hb]
    exact congrArg (fun d : ℕ → ℕ => (d (b % bpb / 8)).testBit (b % bpb % 8)) (hd b hb)
  · rw [if_neg hb, if_neg hb]

/-- The state after `balloc` has chosen block `x`. -/
def allocate (s : Fs) (x : ℕ) : Fs :=
  bzero ((s.setBlock (s.bblock x) (markBit (s.disk (s.bblock x)) (x % bpb))).logWrite
    (s.bblock x)) x

theorem scanBlock_some {d : ℕ → ℕ} {b size n bi j : ℕ} (h : scanBlock d b size n bi = some j) :
    bi ≤ j ∧ j < bi + n ∧ b + j < size ∧ bitFree d j ∧ ∀ k, bi ≤ k → k < j → ¬ bitFree d k := by
  induction n generalizing bi with
  | zero => simp [scanBlock] at h
  | succ n ih =>
    unfold scanBlock at h
    by_cases hs : b + bi < size
    · by_cases hf : bitFree d bi
      · rw [if_pos hs, if_pos hf, Option.some.injEq] at h
        subst h
        exact ⟨le_refl _, by omega, hs, hf, fun k h1 h2 => by omega⟩
      · rw [if_pos hs, if_neg hf] at h
        obtain ⟨h1, h2, h3, h4, h5⟩ := ih h
        refine ⟨by omega, by omega, h3, h4, ?_⟩
        intro k hk hkj
        by_cases e : k = bi
        · rwa [e]
        · exact h5 k (by omega) hkj
    · rw [if_neg hs] at h
      cases h

theorem scanBlock_none {d : ℕ → ℕ} {b size n bi : ℕ} (h : scanBlock d b size n bi = none) :
    ∀ k, bi ≤ k → k < bi + n → b + k < size → ¬ bitFree d k := by
  induction n generalizing bi with
  | zero =>
    intro k h1 h2
    omega
  | succ n ih =>
    intro k h1 h2 h3
    unfold scanBlock at h
    have hs : b + bi < size := by omega
    by_cases hf : bitFree d bi
    · rw [if_pos hs, if_pos hf] at h
      cases h
    · rw [if_pos hs, if_neg hf] at h
      by_cases e : k = bi
      · rwa [e]
      · exact ih h k (by omega) (by omega) h3

theorem bitFree_iff_used {s : Fs} {b bi : ℕ} (hb : b % bpb = 0) (hbi : bi < bpb)
    (hs : b + bi < s.sb.size) :
    bitFree (s.disk (s.bblock b)) bi ↔ s.used (b + bi) = false := by
  replace hb : b % 4096 = 0 := hb
  replace hbi : bi < 4096 := hbi
  have e1 : (b + bi) / bpb = b / bpb := by
    show (b + bi) / 4096 = b / 4096
    omega
  have e2 : (b + bi) % bpb = bi := by
    show (b + bi) % 4096 = bi
    omega
  rw [bitFree_iff, Fs.used, if_pos hs, Fs.bblock, Fs.bblock, e1, e2]

/-- `balloc` chooses the first free block from `b` on. -/
theorem ballocFrom_first {s : Fs} {n b x : ℕ} (hb : b % bpb = 0) (hn : s.sb.size < b + n * bpb)
    (hx : b ≤ x) (hxs : x < s.sb.size) (hfree : s.used x = false)
    (hfirst : ∀ y, b ≤ y → y < x → s.used y = true) :
    ballocFrom s n b = some (allocate s x, x) := by
  induction n generalizing b with
  | zero => omega
  | succ n ih =>
    unfold ballocFrom
    rw [if_pos (by omega)]
    cases hscan : scanBlock (s.disk (s.bblock b)) b s.sb.size bpb 0 with
    | some bi =>
      obtain ⟨-, hlt, hsz, hbit, hless⟩ := scanBlock_some hscan
      rw [Nat.zero_add] at hlt
      have hu := (bitFree_iff_used hb hlt hsz).1 hbit
      have hle : x ≤ b + bi := by
        by_contra hlt'
        rw [hfirst (b + bi) (by omega) (by omega)] at hu
        cases hu
      have hge : b + bi ≤ x := by
        by_contra hlt'
        have hk : x = b + (x - b) := by omega
        refine hless (x - b) (by omega) (by omega) ?_
        rw [bitFree_iff_used hb (by omega) (by omega), ← hk]
        exact hfree
      have e : b + bi = x := by omega
      replace hb : b % 4096 = 0 := hb
      replace hlt : bi < 4096 := hlt
      have e1 : s.bblock b = s.bblock x := by
        show b / 4096 + _ = x / 4096 + _
        omega
      have e2 : bi = x % bpb := by
        show bi = x % 4096
        omega
      simp only [e, e1, ← e2, allocate]
    | none =>
      have hge : b + bpb ≤ x := by
        by_contra hlt
        have hk : x = b + (x - b) := by omega
        refine scanBlock_none hscan (x - b) (by omega) (by omega) (by omega) ?_
        rw [bitFree_iff_used hb (by omega) (by omega), ← hk]
        exact hfree
      apply ih
      · rw [Nat.add_mod_right]
        exact hb
      · rw [Nat.succ_mul] at hn
        omega
      · exact hge
      · intro y hy
        exact hfirst y (by omega)

theorem ballocFrom_full {s : Fs} {n b : ℕ} (hb : b % bpb = 0)
    (hfull : ∀ y, b ≤ y → y < s.sb.size → s.used y = true) : ballocFrom s n b = none := by
  induction n generalizing b with
  | zero => rfl
  | succ n ih =>
    unfold ballocFrom
    by_cases hs : b < s.sb.size
    · rw [if_pos hs]
      cases hscan : scanBlock (s.disk (s.bblock b)) b s.sb.size bpb 0 with
      | some bi =>
        obtain ⟨-, hlt, hsz, hbit, -⟩ := scanBlock_some hscan
        rw [Nat.zero_add] at hlt
        have hu := (bitFree_iff_used hb hlt hsz).1 hbit
        rw [hfull (b + bi) (by omega) hsz] at hu
        cases hu
      | none =>
        apply ih
        · rw [Nat.add_mod_right]
          exact hb
        · intro y hy
          exact hfull y (by omega)
    · rw [if_neg hs]

/-- The free blocks, in the order in which `balloc` hands them out. -/
def Fs.freeBlocks (s : Fs) : List ℕ := freeList s.used s.sb.size

theorem balloc_nil {s : Fs} (h : s.freeBlocks = []) : balloc s = none := by
  apply ballocFrom_full rfl
  intro y _ hy
  by_contra hu
  have : y ∈ s.freeBlocks := mem_freeList.2 ⟨hy, by simpa using hu⟩
  simp [h] at this

theorem balloc_cons {s : Fs} {x : ℕ} {rest : List ℕ} (h : s.freeBlocks = x :: rest) :
    balloc s = some (allocate s x, x) := by
  have hhead : (freeList s.used s.sb.size).head? = some x := by
    rw [show freeList s.used s.sb.size = x :: rest from h]
    rfl
  rw [freeList, List.head?_filter, List.find?_range_eq_some] at hhead
  obtain ⟨hfree, hlt, hfirst⟩ := hhead
  apply ballocFrom_first rfl
  · show s.sb.size < 0 + (s.sb.size / 4096 + 1) * 4096
    omega
  · omega
  · simpa using hlt
  · simpa using hfree
  · intro y _ hy
    simpa using hfirst y hy

theorem used_setBlock {s : Fs} {c : ℕ} (d : ℕ → ℕ)
    (hc : ∀ b < s.sb.size, s.bblock b ≠ c) : (s.setBlock c d).used = s.used := by
  apply used_congr (by rfl)
  intro b hb
  exact Function.update_of_ne (hc b hb) _ _

theorem used_allocate {s : Fs} (h : Layout s) {x : ℕ} (hx : s.dataStart ≤ x)
    (hxs : x < s.sb.size) : (allocate s x).used = Function.update s.used x true := by
  funext b
  by_cases hb : b < s.sb.size
  · have hne : s.bblock b ≠ x := by
      have := h.bitmap hb
      omega
    have hdisk : (allocate s x).disk (s.bblock b) =
        Function.update s.disk (s.bblock x) (markBit (s.disk (s.bblock x)) (x % bpb))
          (s.bblock b) := Function.update_of_ne hne _ _
    have hused : (allocate s x).used b =
        ((allocate s x).disk (s.bblock b) (b % bpb / 8)).testBit (b % bpb % 8) := if_pos hb
    rw [hused, hdisk]
    by_cases hblk : s.bblock b = s.bblock x
    · rw [hblk, Function.update_self, testBit_markBit]
      have e : (b % bpb = x % bpb) ↔ b = x := by
        have hq : b / bpb = x / bpb := by
          unfold Fs.bblock at hblk
          omega
        constructor
        · intro hm
          rw [← Nat.div_add_mod b bpb, ← Nat.div_add_mod x bpb, hq, hm]
        · rintro rfl
          rfl
      by_cases hbx : b = x
      · simp [hbx]
      · rw [Function.update_of_ne hbx, Fs.used, if_pos hb, hblk]
        simp [e, hbx]
    · have hbx : b ≠ x := fun e => hblk (by rw [e])
      rw [Function.update_of_ne hblk, Function.update_of_ne hbx, Fs.used, if_pos hb]
  · have hbx : b ≠ x := by omega
    have hle : s.sb.size ≤ b := by omega
    have hused : (allocate s x).used b = true := if_neg hb
    rw [Function.update_of_ne hbx, used_of_le hle, hused]

end BigFile
