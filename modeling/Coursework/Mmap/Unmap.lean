import Coursework.Mmap.Lazy
import Coursework.Mmap.History
import Mathlib.Data.List.Perm.Basic

/-! What one `munmap` of a range inside a region does to the page table, the free list and the
open file. -/
namespace Mmap

/-- The outcome `munmap` reports with 0: the pages of the range are gone, their frames are free
once more, and every other page keeps its frame. -/
structure Unmapped (s s' : Sys) (addr length : ℕ) : Prop where
  cleared : ∀ v ∈ pageRange addr (addr + length), s'.proc.page v = none
  freed : s'.freelist.Perm
    ((pageRange addr (addr + length)).filterMap (fun v => (s.proc.page v).map Prod.fst) ++
      s.freelist)
  kept : ∀ v ∉ pageRange addr (addr + length), s'.proc.page v = s.proc.page v

theorem pageRange_empty (a : ℕ) : pageRange a a = [] := by
  simp [pageRange, pgSize]

theorem pageRange_cons {a n : ℕ} (hn : 0 < n) :
    ∃ vs, pageRange a (a + n) = a / pgSize :: vs := by
  obtain ⟨k, hk⟩ : ∃ k, (a + n - a + pgSize - 1) / pgSize = k + 1 := by
    refine ⟨(a + n - a + pgSize - 1) / pgSize - 1, ?_⟩
    change (a + n - a + 4096 - 1) / 4096 = (a + n - a + 4096 - 1) / 4096 - 1 + 1
    omega
  rw [pageRange, hk, List.range_succ_eq_map]
  exact ⟨_, rfl⟩

theorem vpn_mul (v : ℕ) : vpn (v * pgSize) = v := Nat.mul_div_cancel v (by decide)

theorem unmapPages_absent {s : Sys} {v : ℕ} (vs : List ℕ) (h : s.proc.page v = none) :
    unmapPages (v :: vs) s = some (false, s) := by
  rw [unmapPages]
  cases hw : s.proc.walkpgdir (v * pgSize) with
  | none => rfl
  | some e =>
    have he : ¬ e.p = true := by
      intro he
      have hp := walkpgdir_present hw he
      rw [vpn_mul, h] at hp
      cases hp
    exact if_neg he

theorem unmapPages_present {s : Sys} {v : ℕ} {b : ℕ × Bool} (vs : List ℕ)
    (h : s.proc.page v = some b) :
    unmapPages (v :: vs) s = (kfree s b.1).bind (unmapPages vs) := by
  rw [unmapPages]
  cases hw : s.proc.walkpgdir (v * pgSize) with
  | none =>
    have hno := @walkpgdir_absent s.proc (v * pgSize) fun e he => by simp [hw] at he
    rw [vpn_mul, h] at hno
    cases hno
  | some e =>
    by_cases he : e.p = true
    · have hp := walkpgdir_present hw he
      rw [vpn_mul, h] at hp
      obtain rfl := Option.some.inj hp
      exact if_pos he
    · have hno := @walkpgdir_absent s.proc (v * pgSize) fun e' he' => by
        obtain rfl := Option.some.inj (hw.symm.trans he')
        simpa using he
      rw [vpn_mul, h] at hno
      cases hno

theorem kfree_freelist {s s' : Sys} {f : ℕ} (h : kfree s f = some s') :
    s'.freelist = f :: s.freelist := by
  simp only [kfree] at h
  split_ifs at h
  exact Option.some.inj h ▸ rfl

/-- The loop frees frames and leaves the process as it was; it ends well if and only if every
page was present. -/
theorem unmapPages_spec {vs : List ℕ} {s s' : Sys} {ok : Bool}
    (h : unmapPages vs s = some (ok, s')) :
    s'.proc = s.proc ∧ s.freelist <:+ s'.freelist ∧
      (ok = true ↔ ∀ v ∈ vs, s.proc.page v ≠ none) := by
  induction vs generalizing s with
  | nil =>
    simp only [unmapPages, Option.some.injEq, Prod.mk.injEq] at h
    obtain ⟨rfl, rfl⟩ := h
    exact ⟨rfl, List.suffix_rfl, by simp⟩
  | cons v vs ih =>
    cases hp : s.proc.page v with
    | none =>
      rw [unmapPages_absent vs hp] at h
      simp only [Option.some.injEq, Prod.mk.injEq] at h
      obtain ⟨rfl, rfl⟩ := h
      exact ⟨rfl, List.suffix_rfl, by simp [hp]⟩
    | some b =>
      rw [unmapPages_present vs hp] at h
      obtain ⟨s₁, hk, h⟩ := Option.bind_eq_some_iff.1 h
      obtain ⟨hproc, hfree, hok⟩ := ih h
      rw [kfree_proc hk] at hproc hok
      refine ⟨hproc, List.IsSuffix.trans ?_ hfree, hok.trans ?_⟩
      · rw [kfree_freelist hk]
        exact List.suffix_cons _ _
      · simp [hp]

theorem unmapPages_grows {vs : List ℕ} {v : ℕ} {s s' : Sys} {ok : Bool}
    (h : unmapPages (v :: vs) s = some (ok, s')) (hp : s.proc.page v ≠ none) :
    s.freelist.length < s'.freelist.length := by
  obtain ⟨b, hb⟩ := Option.ne_none_iff_exists'.1 hp
  rw [unmapPages_present vs hb] at h
  obtain ⟨s₁, hk, h⟩ := Option.bind_eq_some_iff.1 h
  have hle := (unmapPages_spec h).2.1.length_le
  rw [kfree_freelist hk, List.length_cons] at hle
  exact hle

theorem setFileOff_same {s : Sys} {f v : ℕ} :
    s.setFileOff v (some f) = some s ↔ (s.file f).off = v := by
  constructor
  · intro h
    have hf := congrArg (fun t : Sys => (t.file f).off) (Option.some.inj h)
    simpa [Sys.setFile] using hf.symm
  · rintro rfl
    simp [Sys.setFileOff, Sys.setFile]

theorem cutRegion_page {p q : Proc} {i startVa endVa : ℕ} {length : ℤ}
    (h : cutRegion p i startVa endVa length = some q) : q.page = p.page := by
  simp only [cutRegion] at h
  split_ifs at h
  · exact Option.some.inj h ▸ rfl
  · exact Option.some.inj h ▸ rfl
  · exact Option.some.inj h ▸ rfl
  · cases hv : getValidMmarr p with
    | none => simp [hv] at h
    | some j =>
      simp only [hv] at h
      exact Option.some.inj h ▸ rfl

section Munmap

variable {s s' : Sys} {addr length i : ℕ} {r : ℤ}

/-- `munmap` of an aligned range that a region covers. -/
theorem munmap_covered (ha : addr % 4096 = 0) (hl : length % 4096 = 0)
    (hb : addr + length < 4294967296)
    (hc : coveringRegion s.proc addr (addr + length) = some i)
    (h : munmap s addr length = some (r, s')) :
    ∃ s₁ s₂ ok, s.setFileOff (s.proc.mmArr i).offset (s.proc.mmArr i).f = some s₁ ∧
      unmapPages (pageRange addr (addr + length)) s₁ = some (ok, s₂) ∧
      (ok = false ∧ r = -1 ∧ s' = s₂ ∨ ok = true ∧ r = 0 ∧ s'.freelist = s₂.freelist ∧
        s'.proc.page = s₂.proc.page) := by
  have hend : pgRoundDown (uint (addr + length)) = addr + length := by
    rw [uint_add hb, pgRoundDown_of_dvd (by omega)]
  have htmod : (length : ℤ).tmod 4096 = 0 := Int.tmod_eq_zero_of_dvd (by omega)
  simp only [munmap] at h
  rw [if_neg (not_not.2 ha), if_neg (not_not.2 htmod), hend, pgRoundDown_of_dvd ha] at h
  simp only [hc] at h
  obtain ⟨saved, -, h⟩ := Option.bind_eq_some_iff.1 h
  obtain ⟨s₁, h1, h⟩ := Option.bind_eq_some_iff.1 h
  obtain ⟨⟨ok, s₂⟩, h2, h⟩ := Option.bind_eq_some_iff.1 h
  refine ⟨s₁, s₂, ok, h1, h2, ?_⟩
  cases ok with
  | false =>
    simp only [Bool.false_eq_true, if_false, Option.some.injEq, Prod.mk.injEq] at h
    exact .inl ⟨rfl, h.1.symm, h.2.symm⟩
  | true =>
    simp only [if_true] at h
    obtain ⟨t, h3, h⟩ := Option.bind_eq_some_iff.1 h
    obtain ⟨p, hp, h⟩ := Option.bind_eq_some_iff.1 h
    simp only [Option.some.injEq, Prod.mk.injEq] at h
    obtain ⟨rfl, rfl⟩ := h
    have hpage : p.page = s₂.proc.page := by rw [cutRegion_page hp, setFileOff_proc h3]
    have hfree : t.freelist = s₂.freelist := setFileOff_freelist h3
    exact .inr ⟨rfl, rfl, hfree, hpage⟩

/-- On an aligned range that a region covers, `munmap` unmaps exactly the range when it returns 0
and changes nothing when it returns -1 if and only if the range is empty, or its first page is
not present and the open file is at the offset of the region. -/
theorem munmap_exact (ha : addr % 4096 = 0) (hl : length % 4096 = 0)
    (hb : addr + length < 4294967296)
    (hc : coveringRegion s.proc addr (addr + length) = some i)
    (h : munmap s addr length = some (r, s')) :
    ((r = 0 → Unmapped s s' addr length) ∧ (r = -1 → s' = s)) ↔
      (length = 0 ∨ s.proc.page (addr / pgSize) = none ∧
        s.setFileOff (s.proc.mmArr i).offset (s.proc.mmArr i).f = some s) := by
  obtain ⟨s₁, s₂, ok, h1, h2, hcase⟩ := munmap_covered ha hl hb hc h
  have hproc : s₁.proc = s.proc := setFileOff_proc h1
  have hfree : s₁.freelist = s.freelist := setFileOff_freelist h1
  obtain ⟨hproc₂, hsuf, hok⟩ := unmapPages_spec h2
  rw [hproc] at hproc₂ hok
  rcases Nat.eq_zero_or_pos length with rfl | hpos
  · -- Nothing to free: the loop makes no round.
    refine iff_of_true ?_ (.inl rfl)
    rw [Nat.add_zero, pageRange_empty] at h2 hok
    have hs : s₂ = s₁ := by
      simp only [unmapPages, Option.some.injEq, Prod.mk.injEq] at h2
      exact h2.2.symm
    obtain ⟨hf, -, -⟩ | ⟨-, hr, hfr, hpg⟩ := hcase
    · simp [hok.2 (by simp)] at hf
    · refine ⟨fun _ => ?_, fun hr' => by omega⟩
      have hpage : s'.proc.page = s.proc.page := by rw [hpg, hproc₂]
      refine ⟨?_, ?_, fun v _ => by rw [hpage]⟩
      · rw [Nat.add_zero, pageRange_empty]
        exact fun v hv => absurd hv (List.not_mem_nil)
      · rw [Nat.add_zero, pageRange_empty, hfr, hs, hfree]
        exact List.Perm.refl _
  · obtain ⟨vs, hvs⟩ := pageRange_cons (a := addr) hpos
    rw [hvs] at h2 hok
    cases hp : s.proc.page (addr / pgSize) with
    | none =>
      -- The first page is absent: the loop stops at once and only the offset is stored.
      rw [unmapPages_absent vs (by rw [hproc, hp])] at h2
      simp only [Option.some.injEq, Prod.mk.injEq] at h2
      obtain ⟨rfl, rfl⟩ := h2
      obtain ⟨-, rfl, rfl⟩ | ⟨hf, -, -, -⟩ := hcase
      · rw [h1]
        simp [hpos.ne']
      · cases hf
    | some b =>
      -- The first frame has been freed while its page stays in the table.
      refine iff_of_false ?_ (by simp [hpos.ne'])
      rintro ⟨hzero, hminus⟩
      obtain ⟨-, hr, rfl⟩ | ⟨-, hr, -, hpg⟩ := hcase
      · have hgrow := unmapPages_grows h2 (by rw [hproc, hp]; simp)
        rw [hfree, hminus hr] at hgrow
        exact lt_irrefl _ hgrow
      · have hgone := (hzero hr).cleared (addr / pgSize) (by rw [hvs]; exact List.mem_cons_self)
        rw [hpg, hproc₂, hp] at hgone
        cases hgone

end Munmap

/-- A process with a region of two file pages from 0x1005000 on, of which the first is present
or not. -/
def twoPages (first : Bool) : Sys :=
  { fileSys 8192 0 with
    proc := { (fileSys 8192 0).proc with
      mmArr := fun i => if i = 0 then ⟨3, 0x1005000, 0x1007000, some 0, 0, 3⟩ else
        ⟨0, 0, 0, none, 0, 0⟩
      table := fun i => if i = 0 then some 300 else if i = 4 then some 301 else none
      pte := fun v => if v = 0x1005 then ⟨320, first, true, true, false⟩ else
        fivePages.proc.pte v } }

/-- An untouched region is left as it was. -/
theorem munmap_exact_untouched : ∃ s', munmap (twoPages false) 0x1005000 0x2000 = some (-1, s') ∧
    s' = twoPages false := by
  have hfst : (munmap (twoPages false) 0x1005000 0x2000).map Prod.fst = some (-1) := by
    decide +kernel
  have h := eq_of_fst (twoPages false) hfst
  refine ⟨_, h, ((munmap_exact (i := 0) (by decide) (by decide) (by decide) (by decide) h).2
    (.inr ⟨by decide, setFileOff_same.2 rfl⟩)).2 rfl⟩

/-- One page unmapped with 0 stays in the page table while its frame is on the free list; two
pages refused with -1 leave the first frame on the free list. -/
theorem munmap_keeps_pages :
    (∃ s', munmap (twoPages true) 0x1005000 0x1000 = some (0, s') ∧
      s'.proc.page 0x1005 = some (320, false) ∧ 320 ∈ s'.freelist ∧
      ¬ Unmapped (twoPages true) s' 0x1005000 0x1000) ∧
    ∃ s', munmap (twoPages true) 0x1005000 0x2000 = some (-1, s') ∧
      320 ∈ s'.freelist ∧ s' ≠ twoPages true := by
  have h0 : (munmap (twoPages true) 0x1005000 0x1000).map Prod.fst = some 0 := by decide +kernel
  have h1 : (munmap (twoPages true) 0x1005000 0x2000).map Prod.fst = some (-1) := by
    decide +kernel
  constructor
  · refine ⟨_, eq_of_fst (twoPages true) h0, by decide +kernel, by decide +kernel, fun hu => ?_⟩
    have hgone := hu.cleared 0x1005 (by decide)
    revert hgone
    decide +kernel
  · have hmem : 320 ∈ (((munmap (twoPages true) 0x1005000 0x2000).map Prod.snd).getD
        (twoPages true)).freelist := by decide +kernel
    refine ⟨_, eq_of_fst (twoPages true) h1, hmem, fun he => ?_⟩
    rw [he] at hmem
    revert hmem
    decide

end Mmap
