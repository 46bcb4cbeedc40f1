import Coursework.Mmap.Frame
import Mathlib.Data.Set.Insert

/-! The table of regions over whole histories of `mmap`, `munmap` and `growproc`. -/
namespace Mmap

/-- A page-aligned region of positive length between a heap of `sz` bytes and the kernel. -/
structure Region.Fine (r : Region) (sz : ℕ) : Prop where
  aligned : r.startVa % pgSize = 0
  positive : r.startVa < r.endVa
  aboveHeap : sz ≤ r.startVa
  belowKernel : r.endVa ≤ kernBase

/-- Every recorded region is fine and no two of them meet. -/
structure Proc.RegionsOk (p : Proc) : Prop where
  fine : ∀ i < nRegion, (p.mmArr i).fd ≠ 0 → (p.mmArr i).Fine p.sz
  disjoint : ∀ i < nRegion, ∀ j < nRegion, i ≠ j → (p.mmArr i).fd ≠ 0 →
    (p.mmArr j).fd ≠ 0 → (p.mmArr i).endVa ≤ (p.mmArr j).startVa ∨
      (p.mmArr j).endVa ≤ (p.mmArr i).startVa

/-- Some recorded region holds the address. -/
def Proc.Holds (p : Proc) (x : ℕ) : Prop :=
  ∃ i < nRegion, (p.mmArr i).fd ≠ 0 ∧ (p.mmArr i).startVa ≤ x ∧ x < (p.mmArr i).endVa

theorem Proc.holds_iff (p : Proc) (x : ℕ) : p.Holds x ↔ faultRegion p x ≠ none := by
  simp [Proc.Holds, faultRegion, List.find?_eq_none]

inductive Call where
  | mmap (fd offset length : ℤ) (flags : ℕ)
  | munmap (addr : ℕ) (length : ℤ)
  | growproc (n : ℤ)

/-- A successful call: its result and the state after it. -/
def Call.exec (s : Sys) : Call → Option (ℤ × Sys)
  | .mmap fd offset length flags =>
    match Mmap.mmap s fd offset length flags with
    | some (some a, s') => some (a, s')
    | _ => none
  | .munmap addr length =>
    match Mmap.munmap s addr length with
    | some (0, s') => some (0, s')
    | _ => none
  | .growproc n =>
    match Mmap.growproc s n with
    | some (0, s') => some (0, s')
    | _ => none

/-- The addresses in use after a call that returned `a`. -/
def Call.live (live : Set ℕ) (a : ℤ) : Call → Set ℕ
  | .mmap _ _ length _ => live ∪ {x : ℕ | a ≤ x ∧ (x : ℤ) < a + length}
  | .munmap addr length => live \ {x : ℕ | addr ≤ x ∧ (x : ℤ) < addr + length}
  | .growproc _ => live

/-- The states of a process together with the addresses it has mapped and not unmapped.
Between the calls everything but the heap size and the regions may change: memory, page
tables, files, dirty bits. Each call meets `P`. -/
inductive Reached (P : Sys → Call → Prop) : Sys → Set ℕ → Prop
  | start {s : Sys} (sz : s.proc.sz < kernBase) (mmSz : s.proc.mmSz = 0)
      (free : ∀ i < nRegion, (s.proc.mmArr i).fd = 0) : Reached P s ∅
  | call {s s' : Sys} {live : Set ℕ} {c : Call} {a : ℤ} (h : Reached P s live) (hp : P s c)
      (he : c.exec s = some (a, s')) : Reached P s' (c.live live a)
  | quiet {s s' : Sys} {live : Set ℕ} (h : Reached P s live) (hq : Quiet s s') :
      Reached P s' live

/-- What the calls do not check. `mmap`: a descriptor that marks the slot as used, a positive
length, a page-aligned heap end, room below the kernel, and a range that no region meets.
`munmap`: a range that does not run backwards. `growproc`: room up to the regions. -/
def Checked (s : Sys) : Call → Prop
  | .mmap fd _ length _ => fd ≠ 0 ∧ 0 < length ∧ s.proc.sz % pgSize = 0 ∧
      s.proc.sz + s.proc.mmSz + margin + length ≤ kernBase ∧
      ∀ i < nRegion, (s.proc.mmArr i).fd ≠ 0 →
        (s.proc.mmArr i).endVa ≤ s.proc.sz + s.proc.mmSz + margin ∨
          s.proc.sz + s.proc.mmSz + margin + length ≤ (s.proc.mmArr i).startVa
  | .munmap addr length =>
      coveringRegion s.proc (pgRoundDown addr) (pgRoundDown (uint (addr + length))) ≠ none →
        0 ≤ length ∧ addr + length < 4294967296
  | .growproc n => ∀ i < nRegion, (s.proc.mmArr i).fd ≠ 0 →
      s.proc.sz + n ≤ (s.proc.mmArr i).startVa

/-- `Checked`, and no `munmap` cuts a proper part off one end of a region. -/
def Whole (s : Sys) (c : Call) : Prop :=
  Checked s c ∧
    match c with
    | .munmap addr length => ∀ i, coveringRegion s.proc (pgRoundDown addr)
        (pgRoundDown (uint (addr + length))) = some i →
        length = 0 ∨
          ((s.proc.mmArr i).startVa = addr ↔ addr + length = ((s.proc.mmArr i).endVa : ℤ))
    | _ => True

theorem uint_of_lt {x : ℤ} (h : 0 ≤ x) (h' : x < 4294967296) : (uint x : ℤ) = x := by
  have e : x % 4294967296 = x := Int.emod_eq_of_lt h h'
  simp [uint, e, h]

theorem uint_dvd {x : ℤ} (h : x % 4096 = 0) : uint x % pgSize = 0 := by
  show (x % 4294967296).toNat % 4096 = 0
  omega

theorem getValidMmarr_eq_some {p : Proc} {i : ℕ} (h : getValidMmarr p = some i) :
    i < nRegion ∧ (p.mmArr i).fd = 0 := by
  have hf := List.find?_some h
  have hm := List.mem_of_find?_eq_some h
  exact ⟨List.mem_range.1 hm, by simpa using hf⟩

theorem coveringRegion_eq_some {p : Proc} {i a b : ℕ} (h : coveringRegion p a b = some i) :
    i < nRegion ∧ (p.mmArr i).fd ≠ 0 ∧ (p.mmArr i).startVa ≤ a ∧ b ≤ (p.mmArr i).endVa := by
  have hf := List.find?_some h
  have hm := List.mem_of_find?_eq_some h
  exact ⟨List.mem_range.1 hm, by simpa using hf⟩

namespace Proc

variable {p : Proc}

@[simp] theorem setRegion_same (i : ℕ) (r : Region) : (p.setRegion i r).mmArr i = r := by
  simp [setRegion]

@[simp] theorem setRegion_other {i j : ℕ} (h : j ≠ i) (r : Region) :
    (p.setRegion i r).mmArr j = p.mmArr j := by
  simp [setRegion, h]

@[simp] theorem setRegion_sz (i : ℕ) (r : Region) : (p.setRegion i r).sz = p.sz := rfl

@[simp] theorem setRegion_mmSz (i : ℕ) (r : Region) : (p.setRegion i r).mmSz = p.mmSz := rfl

/-- A write to slot `i` keeps an address unless it was the region there that held it. -/
theorem Holds.setRegion {i x : ℕ} {r : Region} (h : p.Holds x)
    (hr : (p.mmArr i).fd ≠ 0 → (p.mmArr i).startVa ≤ x → x < (p.mmArr i).endVa →
      r.fd ≠ 0 ∧ r.startVa ≤ x ∧ x < r.endVa) : (p.setRegion i r).Holds x := by
  obtain ⟨k, hk, hf, h1, h2⟩ := h
  refine ⟨k, hk, ?_⟩
  by_cases e : k = i
  · subst e
    rw [setRegion_same]
    exact hr hf h1 h2
  · rw [setRegion_other e]
    exact ⟨hf, h1, h2⟩

theorem RegionsOk.congr {q : Proc} (h : p.RegionsOk) (hs : q.sz ≤ p.sz)
    (hr : q.mmArr = p.mmArr) : q.RegionsOk := by
  obtain ⟨h1, h2⟩ := h
  rw [← hr] at h1 h2
  exact ⟨fun i hi hf => ⟨(h1 i hi hf).aligned, (h1 i hi hf).positive,
    hs.trans (h1 i hi hf).aboveHeap, (h1 i hi hf).belowKernel⟩, h2⟩

/-- A slot may take any fine range that meets no other region. -/
theorem RegionsOk.set (h : p.RegionsOk) {i : ℕ} {r : Region} (hr : r.fd ≠ 0 → r.Fine p.sz)
    (hd : r.fd ≠ 0 → ∀ j < nRegion, j ≠ i → (p.mmArr j).fd ≠ 0 →
      (p.mmArr j).endVa ≤ r.startVa ∨ r.endVa ≤ (p.mmArr j).startVa) :
    (p.setRegion i r).RegionsOk := by
  constructor
  · intro j hj hfj
    by_cases e : j = i
    · subst e
      rw [setRegion_same] at hfj ⊢
      exact hr hfj
    · rw [setRegion_other e] at hfj ⊢
      exact h.fine j hj hfj
  · intro j hj k hk hjk hfj hfk
    by_cases ej : j = i
    · subst ej
      rw [setRegion_same] at hfj ⊢
      rw [setRegion_other (Ne.symm hjk)] at hfk ⊢
      exact (hd hfj k hk (Ne.symm hjk) hfk).symm
    · rw [setRegion_other ej] at hfj ⊢
      by_cases ek : k = i
      · subst ek
        rw [setRegion_same] at hfk ⊢
        exact hd hfk j hj hjk hfj
      · rw [setRegion_other ek] at hfk ⊢
        exact h.disjoint j hj k hk hjk hfj hfk

end Proc

/-- The invariant of the checked histories. -/
structure Inv (s : Sys) : Prop where
  ok : s.proc.RegionsOk
  ends : ∀ i < nRegion, (s.proc.mmArr i).fd ≠ 0 → (s.proc.mmArr i).endVa % pgSize = 0
  mmSz : s.proc.mmSz % pgSize = 0
  sz : s.proc.sz < kernBase

/-- The invariant is about the heap size, the regions and their total size. -/
theorem Inv.of_table {s s' : Sys} (h : Inv s) (hs : s'.proc.sz = s.proc.sz)
    (hr : s'.proc.mmArr = s.proc.mmArr) (hm : s'.proc.mmSz % pgSize = 0) : Inv s' where
  ok := h.ok.congr hs.le hr
  ends := hr ▸ h.ends
  mmSz := hm
  sz := hs ▸ h.sz

theorem Inv.quiet {s s' : Sys} (h : Inv s) (hq : Quiet s s') : Inv s' :=
  h.of_table hq.sz hq.mmArr (hq.mmSz ▸ h.mmSz)

/-- A slot may take any fine range of whole pages that meets no other region. -/
theorem Inv.setRegion {s : Sys} (h : Inv s) {i : ℕ} {r : Region}
    (hr : r.fd ≠ 0 → r.Fine s.proc.sz ∧ r.endVa % pgSize = 0)
    (hd : r.fd ≠ 0 → ∀ j < nRegion, j ≠ i → (s.proc.mmArr j).fd ≠ 0 →
      (s.proc.mmArr j).endVa ≤ r.startVa ∨ r.endVa ≤ (s.proc.mmArr j).startVa) :
    Inv (s.setProc (s.proc.setRegion i r)) := by
  refine ⟨h.ok.set (fun hf => (hr hf).1) hd, fun j hj hfj => ?_, h.mmSz, h.sz⟩
  change ((s.proc.setRegion i r).mmArr j).fd ≠ 0 at hfj
  change ((s.proc.setRegion i r).mmArr j).endVa % pgSize = 0
  by_cases e : j = i
  · subst e
    rw [Proc.setRegion_same] at hfj ⊢
    exact (hr hfj).2
  · rw [Proc.setRegion_other e] at hfj ⊢
    exact h.ends j hj hfj

/-- A region may shrink to a part of itself. -/
theorem Inv.shrink {s : Sys} (h : Inv s) {i : ℕ} {r : Region} (hi : i < nRegion)
    (hf : (s.proc.mmArr i).fd ≠ 0)
    (hr : r.fd ≠ 0 → (r.startVa % pgSize = 0 ∧ r.endVa % pgSize = 0) ∧ r.startVa < r.endVa ∧
      (s.proc.mmArr i).startVa ≤ r.startVa ∧ r.endVa ≤ (s.proc.mmArr i).endVa) :
    Inv (s.setProc (s.proc.setRegion i r)) := by
  have old := h.ok.fine i hi hf
  apply h.setRegion
  · intro hfr
    obtain ⟨⟨ha, hend⟩, hp, hs, he⟩ := hr hfr
    exact ⟨⟨ha, hp, old.aboveHeap.trans hs, he.trans old.belowKernel⟩, hend⟩
  · intro hfr j hj hji hfj
    have := h.ok.disjoint j hj i hi hji hfj hf
    have := hr hfr
    omega

theorem emod_of_tmod {x : ℤ} (h : x.tmod 4096 = 0) : x % 4096 = 0 :=
  Int.emod_eq_zero_of_dvd (Int.dvd_of_tmod_eq_zero h)

theorem mmapEager_eq_some {s s' : Sys} {fd length : ℤ} {offset flags a : ℕ} {f : Option ℕ}
    (h : mmapEager s fd offset length flags f = some (some a, s')) :
    a = s.proc.mapStart ∧ ∃ (t : Sys) (i : ℕ), Quiet s t ∧ getValidMmarr t.proc = some i ∧
      s' = t.setProc (t.proc.record i fd offset length flags f) := by
  simp only [mmapEager] at h
  cases hv : getValidMmarr s.proc with
  | none => simp [hv] at h
  | some i =>
    simp only [hv] at h
    obtain ⟨saved, -, h⟩ := Option.bind_eq_some_iff.1 h
    obtain ⟨s₁, h1, h⟩ := Option.bind_eq_some_iff.1 h
    split_ifs at h
    obtain ⟨⟨done, s₂⟩, h2, h⟩ := Option.bind_eq_some_iff.1 h
    simp only at h
    split_ifs at h
    · obtain ⟨t, h3, h⟩ := Option.bind_eq_some_iff.1 h
      simp only [Option.some.injEq, Prod.mk.injEq] at h
      have hq : Quiet s t := (setFileOff_quiet h1).trans
        ((eagerPages_quiet h2).trans (setFileOff_quiet h3))
      refine ⟨h.1.symm, t, i, hq, ?_, h.2.symm⟩
      rw [← hv]
      simp only [getValidMmarr, hq.mmArr]
    · simp at h

theorem mmapLazy_eq_some {s s' : Sys} {fd length : ℤ} {offset flags a : ℕ} {f : Option ℕ}
    (h : mmapLazy s fd offset length flags f = (some a, s')) :
    a = s.proc.mapStart ∧ ∃ i, getValidMmarr s.proc = some i ∧
      s' = s.setProc (s.proc.record i fd offset length flags f) := by
  simp only [mmapLazy] at h
  cases hv : getValidMmarr s.proc with
  | none => simp [hv] at h
  | some i =>
    simp only [hv, Option.some.injEq, Prod.mk.injEq] at h
    exact ⟨h.1.symm, i, rfl, h.2.symm⟩

theorem mmap_eq_some {s s' : Sys} {fd offset length : ℤ} {flags a : ℕ}
    (h : mmap s fd offset length flags = some (some a, s')) :
    length % 4096 = 0 ∧ a = s.proc.mapStart ∧ ∃ (t : Sys) (i : ℕ) (off : ℕ) (f : Option ℕ),
      Quiet s t ∧ getValidMmarr t.proc = some i ∧
      s' = t.setProc (t.proc.record i fd off length flags f) := by
  simp only [mmap] at h
  generalize uint (if fd = -1 then 0 else offset) = off at h
  by_cases hl : length.tmod 4096 = 0
  · rw [if_neg (not_not.2 hl)] at h
    obtain ⟨ok, -, h⟩ := Option.bind_eq_some_iff.1 h
    refine ⟨emod_of_tmod hl, ?_⟩
    split_ifs at h
    · simp at h
    · obtain ⟨ha, t, i, hq, hv, hs⟩ := mmapEager_eq_some h
      exact ⟨ha, t, i, off, _, hq, hv, hs⟩
    · obtain ⟨ha, i, hv, hs⟩ := mmapLazy_eq_some (Option.some.inj h)
      exact ⟨ha, s, i, off, _, Quiet.refl s, hv, hs⟩
  · rw [if_pos hl] at h
    simp at h

/-- A successful `munmap` finds nothing to do, or cuts the region it found. -/
theorem munmap_eq_some {s s' : Sys} {addr : ℕ} {length : ℤ}
    (h : munmap s addr length = some (0, s')) :
    addr % 4096 = 0 ∧ length % 4096 = 0 ∧
      (coveringRegion s.proc (pgRoundDown addr) (pgRoundDown (uint (addr + length))) = none ∧
          s' = s ∨
        ∃ (t : Sys) (i : ℕ) (p : Proc), Quiet s t ∧
          coveringRegion t.proc (pgRoundDown addr) (pgRoundDown (uint (addr + length))) = some i ∧
          cutRegion t.proc i (pgRoundDown addr) (pgRoundDown (uint (addr + length))) length
            = some p ∧ s' = t.setProc p) := by
  simp only [munmap] at h
  split_ifs at h with ha hl
  · simp at h
  · simp at h
  · refine ⟨not_not.1 ha, emod_of_tmod (not_not.1 hl), ?_⟩
    cases hc : coveringRegion s.proc (pgRoundDown addr) (pgRoundDown (uint (addr + length))) with
    | none =>
      simp only [hc, Option.some.injEq, Prod.mk.injEq] at h
      exact Or.inl ⟨rfl, h.2.symm⟩
    | some i =>
      simp only [hc] at h
      obtain ⟨saved, -, h⟩ := Option.bind_eq_some_iff.1 h
      obtain ⟨s₁, h1, h⟩ := Option.bind_eq_some_iff.1 h
      obtain ⟨⟨done, s₂⟩, h2, h⟩ := Option.bind_eq_some_iff.1 h
      simp only at h
      split_ifs at h
      · obtain ⟨t, h3, h⟩ := Option.bind_eq_some_iff.1 h
        obtain ⟨p, hp, h⟩ := Option.bind_eq_some_iff.1 h
        simp only [Option.some.injEq, Prod.mk.injEq] at h
        have hq : Quiet s t := (setFileOff_quiet h1).trans
          ((unmapPages_quiet h2).trans (setFileOff_quiet h3))
        refine Or.inr ⟨t, i, p, hq, ?_, hp, h.2.symm⟩
        rw [← hc]
        simp only [coveringRegion, hq.mmArr]
      · simp at h

/-- A successful `growproc` sets the heap size and nothing else of the invariant's. -/
theorem growproc_eq_some {s s' : Sys} {n : ℤ} (h : growproc s n = some (0, s'))
    (hs : s.proc.sz < kernBase) :
    ∃ (t : Sys) (sz : ℕ), Quiet s t ∧ s' = t.setProc { t.proc with sz := sz } ∧
      sz < kernBase ∧ (sz ≤ s.proc.sz ∨ (sz : ℤ) ≤ s.proc.sz + n) := by
  have hk : kernBase = 2147483648 := rfl
  simp only [growproc] at h
  split_ifs at h with hp hn
  · obtain ⟨⟨sz, t⟩, ha, h⟩ := Option.bind_eq_some_iff.1 h
    simp only at h
    split_ifs at h with hz
    · simp at h
    · simp only [Option.some.injEq, Prod.mk.injEq, true_and] at h
      refine ⟨t, sz, allocuvm_quiet ha, h.symm, ?_⟩
      simp only [allocuvm] at ha
      split_ifs at ha with h1 h2
      · simp only [Option.some.injEq, Prod.mk.injEq] at ha
        omega
      · simp only [Option.some.injEq, Prod.mk.injEq] at ha
        omega
      · obtain ⟨⟨ok, s₁⟩, -, ha⟩ := Option.bind_eq_some_iff.1 ha
        simp only [Option.some.injEq, Prod.mk.injEq] at ha
        cases ok with
        | false =>
          simp only [Bool.false_eq_true, if_false] at ha
          omega
        | true =>
          simp only [if_true] at ha
          have e : (uint (s.proc.sz + n) : ℤ) = (s.proc.sz + n) % 4294967296 := by
            simp only [uint]
            omega
          omega
  · obtain ⟨⟨sz, t⟩, ha, h⟩ := Option.bind_eq_some_iff.1 h
    simp only at h
    split_ifs at h with hz
    · simp at h
    · simp only [Option.some.injEq, Prod.mk.injEq, true_and] at h
      refine ⟨t, sz, deallocuvm_quiet ha, h.symm, ?_⟩
      simp only [deallocuvm] at ha
      split_ifs at ha with h1
      · simp only [Option.some.injEq, Prod.mk.injEq] at ha
        omega
      · obtain ⟨s₁, -, ha⟩ := Option.bind_eq_some_iff.1 ha
        simp only [Option.some.injEq, Prod.mk.injEq] at ha
        omega
  · simp only [Option.some.injEq, Prod.mk.injEq, true_and] at h
    exact ⟨s, s.proc.sz, Quiet.refl s, h.symm, hs, Or.inl le_rfl⟩

end Mmap
