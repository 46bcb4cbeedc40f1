import Coursework.Mmap.Exit

/-! How a page of a file-backed region is filled and mapped, and what it then holds. -/
namespace Mmap

/-- The byte of a file at an offset, 0 past the end of the file. -/
def fileByte (s : Sys) (f x : ℕ) : ℕ :=
  if x < (s.inode (s.file f).ip).size then (s.inode (s.file f).ip).data x else 0

/-- What reads of the file deliver: nothing when it is not readable. -/
def seen (s : Sys) (f x : ℕ) : ℕ := if (s.file f).readable then fileByte s f x else 0

/-- The length of a one-page read at an offset. -/
def got (s : Sys) (f off : ℕ) : ℕ :=
  if (s.file f).readable ∧ off ≤ (s.inode (s.file f).ip).size then
    min pgSize ((s.inode (s.file f).ip).size - off)
  else 0

/-- An open file on a disk inode of admitted size. -/
structure Regular (s : Sys) (f : ℕ) : Prop where
  type : (s.file f).type = .inode
  disk : (s.inode (s.file f).ip).dev = false
  size : (s.inode (s.file f).ip).size ≤ maxFileBytes

/-- The second state differs from the first in the offset of `f` at most, as far as files
are concerned. -/
structure SameFiles (f : ℕ) (s s' : Sys) : Prop where
  inode : s'.inode = s.inode
  file : ∀ g ≠ f, s'.file g = s.file g
  self : s'.file f = { s.file f with off := (s'.file f).off }

namespace SameFiles

variable {f : ℕ} {s t u : Sys}

theorem refl (f : ℕ) (s : Sys) : SameFiles f s s := ⟨rfl, fun _ _ => rfl, rfl⟩

theorem trans (h : SameFiles f s t) (h' : SameFiles f t u) : SameFiles f s u := by
  refine ⟨h'.inode.trans h.inode, fun g hg => (h'.file g hg).trans (h.file g hg), ?_⟩
  rw [h'.self, h.self]

theorem of_eq (hi : t.inode = s.inode) (hf : t.file = s.file) : SameFiles f s t :=
  ⟨hi, fun _ _ => by rw [hf], by rw [hf]⟩

theorem readable (h : SameFiles f s t) : (t.file f).readable = (s.file f).readable := by
  rw [h.self]

theorem ip (h : SameFiles f s t) : (t.file f).ip = (s.file f).ip := by
  rw [h.self]

theorem seen (h : SameFiles f s t) : seen t f = seen s f := by
  funext x
  simp only [Mmap.seen, fileByte, h.readable, h.ip, h.inode]

theorem got (h : SameFiles f s t) : got t f = got s f := by
  funext x
  simp only [Mmap.got, h.readable, h.ip, h.inode]

theorem regular (h : SameFiles f s t) (hr : Regular s f) : Regular t f := by
  refine ⟨?_, ?_, ?_⟩
  · rw [h.self]
    exact hr.type
  · rw [h.ip, h.inode]
    exact hr.disk
  · rw [h.ip, h.inode]
    exact hr.size

end SameFiles

theorem got_le (s : Sys) (f off : ℕ) : got s f off ≤ pgSize := by
  unfold got
  split_ifs
  · exact min_le_left _ _
  · exact Nat.zero_le _

theorem seen_eq {s : Sys} {f off i : ℕ} (hi : i < pgSize) :
    seen s f (off + i) =
      if i < got s f off then (s.inode (s.file f).ip).data (off + i) else 0 := by
  by_cases hr : (s.file f).readable = true
  · by_cases hle : off ≤ (s.inode (s.file f).ip).size
    · have e : off + i < (s.inode (s.file f).ip).size ↔ i < got s f off := by
        rw [got, if_pos ⟨hr, hle⟩]
        omega
      simp only [seen, hr, if_true, fileByte, e]
    · have e : ¬ off + i < (s.inode (s.file f).ip).size := by omega
      simp [seen, fileByte, got, hr, hle, e]
  · simp [seen, got, hr]

/-- A one-page read of a regular file into a zeroed frame. -/
theorem fileread_spec {s s' : Sys} {f m : ℕ} {r : ℤ} (hr : Regular s f)
    (hoff : (s.file f).off < 4294967296) (hz : s.mem m = fun _ => 0)
    (h : fileread s f m pgSize = some (r, s')) :
    s'.file = Function.update s.file f
        { s.file f with off := (s.file f).off + got s f (s.file f).off } ∧
      s'.inode = s.inode ∧ s'.proc = s.proc ∧ s'.freelist = s.freelist ∧
      (∀ g ≠ m, s'.mem g = s.mem g) ∧
      ∀ i < pgSize, s'.mem m i = seen s f ((s.file f).off + i) := by
  have hsize : maxFileBytes = 71680 := rfl
  have hpg : pgSize = 4096 := rfl
  have hmax := hr.size
  have hle := got_le s f (s.file f).off
  -- a read of nothing leaves file and frame alone
  have nothing : got s f (s.file f).off = 0 → s' = s →
      s'.file = Function.update s.file f
        { s.file f with off := (s.file f).off + got s f (s.file f).off } ∧
      s'.inode = s.inode ∧ s'.proc = s.proc ∧ s'.freelist = s.freelist ∧
      (∀ g ≠ m, s'.mem g = s.mem g) ∧
      ∀ i < pgSize, s'.mem m i = seen s f ((s.file f).off + i) := by
    rintro h0 rfl
    refine ⟨by simp [h0], rfl, rfl, rfl, fun _ _ => rfl, ?_⟩
    intro i hi
    rw [seen_eq hi, h0, hz]
    simp
  unfold fileread at h
  by_cases hread : (s.file f).readable = true
  · simp only [hread, Bool.true_eq_false, if_false, hr.type, readi, hr.disk,
      Bool.false_eq_true] at h
    by_cases hin : (s.file f).off ≤ (s.inode (s.file f).ip).size
    · have e : uint (((s.file f).off : ℤ) + pgSize) = (s.file f).off + pgSize :=
        uint_add (by omega)
      have hcond : ¬ ((s.inode (s.file f).ip).size < (s.file f).off ∨
          (s.file f).off + pgSize < (s.file f).off) := by omega
      have hlen : (if (s.inode (s.file f).ip).size < (s.file f).off + pgSize then
          (s.inode (s.file f).ip).size - (s.file f).off else pgSize) =
          got s f (s.file f).off := by
        have eg : got s f (s.file f).off =
            min pgSize ((s.inode (s.file f).ip).size - (s.file f).off) := if_pos ⟨hread, hin⟩
        rw [eg]
        split_ifs <;> omega
      simp only [e, if_neg hcond, hlen] at h
      by_cases h0 : got s f (s.file f).off = 0
      · have hneg : ¬ (0 : ℤ) < (got s f (s.file f).off : ℕ) := by omega
        simp only [if_neg hneg, Option.some.injEq, Prod.mk.injEq] at h
        apply nothing h0
        have same : (fun i => if i < got s f (s.file f).off then
            (s.inode (s.file f).ip).data ((s.file f).off + i) else s.mem m i) = s.mem m := by
          funext i
          simp [h0]
        rw [← h.2, same, Function.update_eq_self]
      · have hpos : (0 : ℤ) < (got s f (s.file f).off : ℕ) := by omega
        simp only [if_pos hpos, Option.some.injEq, Prod.mk.injEq] at h
        obtain ⟨-, rfl⟩ := h
        have eoff : uint (((s.file f).off : ℤ) + got s f (s.file f).off) =
            (s.file f).off + got s f (s.file f).off := uint_add (by omega)
        refine ⟨?_, rfl, rfl, rfl, fun g hg => Function.update_of_ne hg _ _, ?_⟩
        · show Function.update s.file f _ = _
          rw [eoff, ← hread, ← hr.type]
        · intro i hi
          show Function.update s.mem m _ m i = _
          rw [Function.update_self, seen_eq hi, hz]
    · have hcond : (s.inode (s.file f).ip).size < (s.file f).off ∨
          uint (((s.file f).off : ℤ) + pgSize) < (s.file f).off := Or.inl (by omega)
      simp only [if_pos hcond] at h
      have h0 : got s f (s.file f).off = 0 := by simp [got, hin]
      have hneg : ¬ (0 : ℤ) < -1 := by omega
      simp only [if_neg hneg, Option.some.injEq, Prod.mk.injEq] at h
      exact nothing h0 h.2.symm
  · have hread' : (s.file f).readable = false := by simpa using hread
    simp only [hread', if_true, Option.some.injEq, Prod.mk.injEq] at h
    exact nothing (by simp [got, hread']) h.2.symm

/-- A page filled from a regular file holds what the file delivers from its offset on, and
the offset moves by the length of the read. -/
theorem fillPage_spec {s s' : Sys} {fd : ℤ} {f m : ℕ} (hr : Regular s f) (hfd : fd ≠ -1)
    (hoff : (s.file f).off < 4294967296) (h : fillPage s fd (some f) m = some s') :
    SameFiles f s s' ∧ (s'.file f).off = (s.file f).off + got s f (s.file f).off ∧
      s'.proc = s.proc ∧ s'.freelist = s.freelist ∧ (∀ g ≠ m, s'.mem g = s.mem g) ∧
      ∀ i < pgSize, s'.mem m i = seen s f ((s.file f).off + i) := by
  simp only [fillPage, if_neg hfd] at h
  obtain ⟨⟨r, t⟩, ht, rfl⟩ := Option.map_eq_some_iff.1 h
  have hz : (s.memset m 0).mem m = fun _ => 0 := Function.update_self _ _ _
  obtain ⟨hfile, hino, hproc, hfree, hother, hm⟩ :=
    fileread_spec (s := s.memset m 0) ⟨hr.type, hr.disk, hr.size⟩ hoff hz ht
  refine ⟨⟨hino, ?_, ?_⟩, ?_, hproc, hfree, ?_, hm⟩
  · intro g hg
    show t.file g = _
    rw [hfile, Function.update_of_ne hg]
    rfl
  · show t.file f = _
    rw [hfile, Function.update_self]
    rfl
  · show (t.file f).off = _
    rw [hfile, Function.update_self]
    rfl
  · intro g hg
    show t.mem g = _
    rw [hother g hg]
    exact Function.update_of_ne hg _ _

/-- The second state comes from the first by taking frames off the free list, without
touching other frames or files. -/
structure Taken (s s' : Sys) : Prop where
  free : s'.freelist <:+ s.freelist
  mem : ∀ g ∉ s.freelist, s'.mem g = s.mem g
  file : s'.file = s.file
  inode : s'.inode = s.inode

theorem Taken.refl (s : Sys) : Taken s s := ⟨List.suffix_rfl, fun _ _ => rfl, rfl, rfl⟩

theorem ensureTable_spec {s s' : Sys} {va : ℕ} {ok : Bool} (h : ensureTable s va = (ok, s')) :
    Taken s s' ∧ s'.proc.page = s.proc.page ∧
      (ok = true → (s'.proc.table (vpn va / 1024)).isSome) := by
  unfold ensureTable at h
  cases ht : s.proc.table (pdx va) with
  | some t =>
    simp only [ht, Prod.mk.injEq] at h
    obtain ⟨-, rfl⟩ := h
    exact ⟨Taken.refl s, rfl, fun _ => by rw [← pdx_eq, ht]; rfl⟩
  | none =>
    simp only [ht, kalloc] at h
    cases hl : s.freelist with
    | nil =>
      simp only [hl, Prod.mk.injEq] at h
      obtain ⟨rfl, rfl⟩ := h
      exact ⟨Taken.refl s, rfl, fun h => Bool.noConfusion h⟩
    | cons t rest =>
      simp only [hl, Prod.mk.injEq] at h
      obtain ⟨-, rfl⟩ := h
      refine ⟨⟨?_, ?_, rfl, rfl⟩, ?_, fun _ => ?_⟩
      · rw [hl]
        exact List.suffix_cons t rest
      · intro g hg
        rw [hl] at hg
        have hne : g ≠ t := by
          rintro rfl
          exact hg List.mem_cons_self
        exact Function.update_of_ne hne _ _
      · -- the new page-table page is empty, as were the entries it stands for
        funext v
        rw [pdx_eq] at ht
        by_cases e : v / 1024 = vpn va / 1024
        · have h1 : s.proc.page v = none := by simp [Proc.page, e, ht]
          rw [h1]
          simp [Proc.page, Sys.setProc, pdx_eq, e, Pte.zero]
        · simp [Proc.page, Sys.setProc, Sys.memset, pdx_eq, e]
      · simp [Sys.setProc, pdx_eq]

/-- `mappages` enters the frame, or fails for want of a page-table page. -/
theorem mappages_spec {s s' : Sys} {va m : ℕ} {w : Bool} {r : ℤ}
    (h : mappages s va m w = some (r, s')) :
    Taken s s' ∧ (s'.proc.page = Function.update s.proc.page (vpn va) (some (m, false)) ∨
      s'.proc.page = s.proc.page) := by
  unfold mappages at h
  cases he : ensureTable s va with
  | mk ok t =>
    obtain ⟨htk, hpage, htable⟩ := ensureTable_spec he
    cases ok with
    | false =>
      simp only [he, Option.some.injEq, Prod.mk.injEq] at h
      obtain ⟨-, rfl⟩ := h
      exact ⟨htk, Or.inr hpage⟩
    | true =>
      simp only [he] at h
      split_ifs at h
      simp only [Option.some.injEq, Prod.mk.injEq] at h
      obtain ⟨-, rfl⟩ := h
      refine ⟨⟨htk.free, htk.mem, htk.file, htk.inode⟩, Or.inl ?_⟩
      rw [← hpage]
      funext v
      by_cases e : v = vpn va
      · subst e
        have := htable rfl
        simp [Proc.page, Sys.setProc, Proc.setPte, this]
      · simp [Proc.page, Sys.setProc, Proc.setPte, e]

/-- A mapped page holds the bytes `w`, in a frame that is not free. -/
def Holding (s : Sys) (v : ℕ) (w : ℕ → ℕ) : Prop :=
  ∀ frame d, s.proc.page v = some (frame, d) →
    frame ∉ s.freelist ∧ ∀ i < pgSize, s.mem frame i = w i

/-- What filling and mapping a page does. -/
structure Filled (s s' : Sys) (f v : ℕ) : Prop where
  files : SameFiles f s s'
  off : (s'.file f).off = (s.file f).off + got s f (s.file f).off
  free : s'.freelist <:+ s.freelist
  quiet : Quiet s s'
  pages : ∀ v' ≠ v, s'.proc.page v' = s.proc.page v'
  others : ∀ v' ≠ v, ∀ w, Holding s v' w → Holding s' v' w
  page : s.proc.page v = none → Holding s' v fun i => seen s f ((s.file f).off + i)

theorem filled {s s₁ s₂ s₃ : Sys} {fd : ℤ} {f m va : ℕ} {w : Bool} {r : ℤ}
    (hr : Regular s f) (hfd : fd ≠ -1) (hoff : (s.file f).off < 4294967296)
    (hnd : s.freelist.Nodup) (h1 : kalloc s = (some m, s₁))
    (h2 : fillPage s₁ fd (some f) m = some s₂) (h3 : mappages s₂ va m w = some (r, s₃)) :
    Filled s s₃ f (vpn va) := by
  obtain ⟨rest, hl, rfl⟩ : ∃ rest, s.freelist = m :: rest ∧ s₁ = { s with freelist := rest } := by
    unfold kalloc at h1
    cases hl : s.freelist with
    | nil => simp [hl] at h1
    | cons a rest =>
      simp only [hl, Prod.mk.injEq, Option.some.injEq] at h1
      obtain ⟨rfl, rfl⟩ := h1
      exact ⟨rest, rfl, rfl⟩
  rw [hl, List.nodup_cons] at hnd
  obtain ⟨hsf, ho, hproc, hfree, hmem, hm⟩ :=
    fillPage_spec (s := { s with freelist := rest }) ⟨hr.type, hr.disk, hr.size⟩ hfd hoff h2
  obtain ⟨htk, hpage⟩ := mappages_spec h3
  have hproc : s₂.proc = s.proc := hproc
  have hfree : s₂.freelist = rest := hfree
  rw [hproc] at hpage
  have hsub : s₃.freelist <:+ rest := hfree ▸ htk.free
  have keep : ∀ g ∉ s.freelist, s₃.mem g = s.mem g := by
    intro g hg
    rw [hl, List.mem_cons, not_or] at hg
    rw [htk.mem g (by rw [hfree]; exact hg.2)]
    exact hmem g hg.1
  have hq : Quiet s s₃ := by
    have hq₁ := kalloc_eq_some h1
    exact hq₁.trans ((fillPage_quiet h2).trans (mappages_quiet h3))
  have hpages : ∀ v' ≠ vpn va, s₃.proc.page v' = s.proc.page v' := by
    intro v' hv'
    obtain hp | hp := hpage
    · rw [hp, Function.update_of_ne hv']
    · rw [hp]
  refine ⟨?_, ?_, ?_, hq, hpages, ?_, ?_⟩
  · have hsf' : SameFiles f s s₂ := ⟨hsf.inode, hsf.file, hsf.self⟩
    exact hsf'.trans (SameFiles.of_eq htk.inode htk.file)
  · rw [htk.file]
    exact ho
  · rw [hl]
    exact hsub.trans (List.suffix_cons m rest)
  · intro v' hv' w' hw frame d hp
    rw [hpages v' hv'] at hp
    obtain ⟨hnot, hbytes⟩ := hw frame d hp
    refine ⟨?_, fun i hi => by rw [keep frame hnot]; exact hbytes i hi⟩
    intro hin
    apply hnot
    rw [hl]
    exact List.mem_cons_of_mem m (hsub.subset hin)
  · intro hnone frame d hp
    obtain hp' | hp' := hpage
    · rw [hp', Function.update_self, Option.some.injEq, Prod.mk.injEq] at hp
      obtain ⟨rfl, -⟩ := hp
      refine ⟨fun hin => hnd.1 (hsub.subset hin), fun i hi => ?_⟩
      rw [htk.mem m (by rw [hfree]; exact hnd.1)]
      exact hm i hi
    · rw [hp', hnone] at hp
      simp at hp

end Mmap
