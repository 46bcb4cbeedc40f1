import Coursework.BigFile.Tree
import Mathlib.Data.Finset.Card
import Mathlib.Data.Finset.Image

/-! What filling a slot changes, and the slots that a sequence of calls of `bmap` has
filled since some earlier state. -/
namespace BigFile
open BlockTree

theorem mem_logWrite {s : Fs} {b c : ℕ} : c ∈ (s.logWrite b).log ↔ c ∈ s.log ∨ c = b := by
  unfold Fs.logWrite
  by_cases h : b ∈ s.log
  · simp only [if_pos h]
    constructor
    · exact Or.inl
    · rintro (hc | rfl)
      · exact hc
      · exact h
  · simp [if_neg h]

theorem nodup_logWrite {s : Fs} {b : ℕ} (h : s.log.Nodup) : (s.logWrite b).log.Nodup := by
  unfold Fs.logWrite
  by_cases hb : b ∈ s.log
  · simpa only [if_pos hb] using h
  · simp only [if_neg hb]
    exact List.nodup_append'.2 ⟨h, by simp, by simpa using hb⟩

theorem Layout.congr {s s' : Fs} (h : Layout s) (hsb : s'.sb = s.sb) : Layout s' := by
  constructor
  · rw [hsb]
    exact h.size_lt
  · intro i hi
    rw [hsb] at hi
    have := h.inodes hi
    rwa [Fs.iblock, hsb]
  · intro b hb
    rw [hsb] at hb
    have := h.bitmap hb
    rwa [Fs.bblock, Fs.dataStart, hsb]

theorem allocate_disk_self (s : Fs) (x : ℕ) : (allocate s x).disk x = fun _ => 0 :=
  Function.update_self _ _ _

theorem allocate_disk_of_ne (s : Fs) {x c : ℕ} (hx : c ≠ x) (hb : c ≠ s.bblock x) :
    (allocate s x).disk c = s.disk c :=
  (Function.update_of_ne hx _ _).trans (Function.update_of_ne hb _ _)

theorem mem_allocate_log {s : Fs} {x c : ℕ} :
    c ∈ (allocate s x).log ↔ c ∈ s.log ∨ c = s.bblock x ∨ c = x := by
  unfold allocate bzero
  rw [mem_logWrite]
  show (c ∈ (Fs.logWrite _ _).log ∨ c = x) ↔ _
  rw [mem_logWrite, or_assoc]
  rfl

theorem nodup_allocate {s : Fs} (h : s.log.Nodup) (x : ℕ) : (allocate s x).log.Nodup := by
  apply nodup_logWrite
  exact nodup_logWrite (s := s.setBlock _ _) h

namespace WellFormed

variable {s : Fs} (h : WellFormed s)
include h

theorem bblock_ne_ptr {v : Node} (hv : s.ptr v ≠ 0) {b : ℕ} (hb : b < s.sb.size) :
    s.bblock b ≠ s.ptr v := by
  have h1 := h.layout.bitmap hb
  have h2 := (h.owned.range hv).1
  omega

theorem ptr_ne {v w : Node} (hv : s.ptr v ≠ 0) (hne : v ≠ w) : s.ptr v ≠ s.ptr w :=
  fun e => hne (h.owned.inj hv e)

end WellFormed

/-- The effect of filling slot `τ` of inode `i` with the first free block `x`. -/
structure Filled (s s' : Fs) (i : ℕ) (τ : Slot) (x : ℕ) (rest : List ℕ) : Prop where
  wf : WellFormed s'
  sb : s'.sb = s.sb
  ptr : s'.ptr = Function.update s.ptr (i, τ) x
  free : s'.freeBlocks = rest
  log : ∀ {c}, c ∈ s'.log ↔
    c ∈ s.log ∨ c = s.bblock x ∨ c = x ∨ ∃ p, τ.parent = some p ∧ c = s.ptr (i, p)
  nodup : s.log.Nodup → s'.log.Nodup
  disk : ∀ {j bn}, s.ptr (j, .data bn) ≠ 0 →
    s'.disk (s.ptr (j, .data bn)) = s.disk (s.ptr (j, .data bn))
  type : ∀ j, (s'.inode j).type = (s.inode j).type
  size : ∀ j, (s'.inode j).size = (s.inode j).size
  commits : s'.commits = s.commits

section
variable {s : Fs} {i x : ℕ} {τ p : Slot} {rest : List ℕ}

theorem head_mem_freeList (hf : s.freeBlocks = x :: rest) : x ∈ freeList s.used s.sb.size := by
  rw [show freeList s.used s.sb.size = x :: rest from hf]
  exact List.mem_cons_self

theorem allocate_disk_ptr (h : WellFormed s) (hf : s.freeBlocks = x :: rest) {v : Node}
    (hv : s.ptr v ≠ 0) : (allocate s x).disk (s.ptr v) = s.disk (s.ptr v) := by
  have hx := head_mem_freeList hf
  apply allocate_disk_of_ne
  · exact h.owned.ne_free hx v
  · exact (h.bblock_ne_ptr hv (mem_freeList.1 hx).1).symm

theorem assign_root_filled (h : WellFormed s) (hr : τ.Root) (h0 : s.ptr (i, τ) = 0)
    (hf : s.freeBlocks = x :: rest) : Filled s (assign s i τ x) i τ x rest := by
  have hx := head_mem_freeList hf
  have hlo := h.owned.lo_le_free hx
  have hpos := h.owned.lo_pos
  have hlt := (mem_freeList.1 hx).1
  have e : assign s i τ x =
      (allocate s x).setInode i (((allocate s x).inode i).setAddr τ.idx x) := by
    unfold assign
    rw [hr.parent_eq]
  rw [e]
  generalize hs' : (allocate s x).setInode i (((allocate s x).inode i).setAddr τ.idx x) = s'
  have hsb : s'.sb = s.sb := by rw [← hs']; rfl
  have hused : s'.used = Function.update s.used x true := by
    rw [← used_allocate h.layout hlo hlt, ← hs']
    rfl
  have hroot : s'.root = Function.update s.root (i, τ) x := by
    funext ⟨j, τ'⟩
    have hin : ∀ j, (s'.inode j).addrs =
        if j = i then Function.update (s.inode i).addrs τ.idx x else (s.inode j).addrs := by
      intro j
      rw [← hs']
      show (Function.update s.inode i ((s.inode i).setAddr τ.idx x) j).addrs = _
      by_cases hj : j = i
      · rw [hj, Function.update_self, if_pos rfl]
        rfl
      · rw [Function.update_of_ne hj, if_neg hj]
    by_cases hv : (j, τ') = (i, τ)
    · rw [hv, Function.update_self, Fs.root, if_pos hr, hin, if_pos rfl, Function.update_self]
    · rw [Function.update_of_ne hv]
      unfold Fs.root
      by_cases hr' : τ'.Root
      · rw [if_pos hr', if_pos hr', hin]
        by_cases hj : j = i
        · have hk : τ'.idx ≠ τ.idx := fun hk => hv (by rw [hj, hr'.idx_inj hr hk])
          rw [if_pos hj, Function.update_of_ne hk, hj]
        · rw [if_neg hj]
      · rw [if_neg hr', if_neg hr']
  have hdisk : s'.disk = (allocate s x).disk := by rw [← hs']; rfl
  have hptr : s'.ptr = Function.update s.ptr (i, τ) x := by
    apply (resolves s).assign_root (resolves s') (Option.map_eq_none_iff.2 hr.parent_eq) h0
    · omega
    · exact hroot
    · intro k
      rw [hdisk, allocate_disk_self]
      rfl
    · intro q hq
      rw [hdisk, allocate_disk_ptr h hf hq]
  constructor
  · constructor
    · exact h.layout.congr hsb
    · rw [hused, hptr, Fs.dataStart, hsb]
      exact h.owned.assign hf (i, τ)
  · exact hsb
  · exact hptr
  · rw [Fs.freeBlocks, hused, hsb]
    exact freeList_mark hf
  · intro c
    have hl : s'.log = (allocate s x).log := by rw [← hs']; rfl
    rw [hl, mem_allocate_log, hr.parent_eq]
    simp
  · intro hnd
    rw [← hs']
    exact nodup_allocate hnd x
  · intro j bn hv
    rw [hdisk, allocate_disk_ptr h hf hv]
  · intro j
    rw [← hs']
    show (Function.update s.inode i _ j).type = _
    by_cases hj : j = i
    · rw [hj, Function.update_self]
      rfl
    · rw [Function.update_of_ne hj]
  · intro j
    rw [← hs']
    show (Function.update s.inode i _ j).size = _
    by_cases hj : j = i
    · rw [hj, Function.update_self]
      rfl
    · rw [Function.update_of_ne hj]
  · rw [← hs']
    rfl

theorem assign_entry_filled (h : WellFormed s) (hp : τ.parent = some p)
    (hp0 : s.ptr (i, p) ≠ 0) (h0 : s.ptr (i, τ) = 0) (hf : s.freeBlocks = x :: rest) :
    Filled s (assign s i τ x) i τ x rest := by
  have hx := head_mem_freeList hf
  have hlo := h.owned.lo_le_free hx
  have hpos := h.owned.lo_pos
  have hlt := (mem_freeList.1 hx).1
  have h32 := h.layout.size_lt
  have hpx : s.ptr (i, p) ≠ x := h.owned.ne_free hx _
  have hpd : p ≠ τ := fun e => hp0 (e ▸ h0)
  have e : assign s i τ x = ((allocate s x).setBlock (s.ptr (i, p))
      (putWord ((allocate s x).disk (s.ptr (i, p))) τ.idx x)).logWrite (s.ptr (i, p)) := by
    unfold assign
    rw [hp]
  rw [e]
  generalize hs' : ((allocate s x).setBlock (s.ptr (i, p))
    (putWord ((allocate s x).disk (s.ptr (i, p))) τ.idx x)).logWrite (s.ptr (i, p)) = s'
  have hsb : s'.sb = s.sb := by rw [← hs']; rfl
  have hdisk : s'.disk = Function.update (allocate s x).disk (s.ptr (i, p))
      (putWord (s.disk (s.ptr (i, p))) τ.idx x) := by
    rw [← hs', allocate_disk_ptr h hf hp0]
    rfl
  have hother : ∀ {v : Node}, s.ptr v ≠ 0 → v ≠ (i, p) → s'.disk (s.ptr v) = s.disk (s.ptr v) := by
    intro v hv hne
    rw [hdisk, Function.update_of_ne (h.ptr_ne hv hne), allocate_disk_ptr h hf hv]
  have hused : s'.used = Function.update s.used x true := by
    rw [← used_allocate h.layout hlo hlt]
    apply used_congr (by rw [hsb]; rfl)
    intro b hb
    rw [hdisk]
    exact Function.update_of_ne (h.bblock_ne_ptr hp0 hb) _ _
  have hptr : s'.ptr = Function.update s.ptr (i, τ) x := by
    have hr' : Resolves shape s.root (fun c => getWord (s'.disk c)) s'.ptr := by
      have hroot : s'.root = s.root := by rw [← hs']; rfl
      exact hroot ▸ resolves s'
    apply (resolves s).assign_entry hr' (shape_parent hp) hp0 h0
    · omega
    · rw [hdisk, Function.update_self]
      exact getWord_putWord_self _ _ (by omega)
    · intro k hk
      rw [hdisk, Function.update_self]
      exact getWord_putWord_of_ne _ _ hk
    · intro k
      rw [hdisk, Function.update_of_ne hpx.symm, allocate_disk_self]
      rfl
    · intro q hq hne
      rw [hother hq hne]
  constructor
  · constructor
    · exact h.layout.congr hsb
    · rw [hused, hptr, Fs.dataStart, hsb]
      exact h.owned.assign hf (i, τ)
  · exact hsb
  · exact hptr
  · rw [Fs.freeBlocks, hused, hsb]
    exact freeList_mark hf
  · intro c
    rw [← hs', mem_logWrite]
    show (c ∈ (allocate s x).log ∨ _) ↔ _
    rw [mem_allocate_log, hp]
    simp [or_assoc]
  · intro hnd
    rw [← hs']
    exact nodup_logWrite (s := Fs.setBlock _ _ _) (nodup_allocate hnd x)
  · intro j bn hv
    apply hother hv
    intro e
    rw [Prod.mk.injEq] at e
    exact Slot.parent_ne_data τ bn (e.2 ▸ hp)
  · intro j
    rw [← hs']
    rfl
  · intro j
    rw [← hs']
    rfl
  · rw [← hs']
    rfl

theorem assign_filled (h : WellFormed s) (hr : Ready s i τ) (h0 : s.ptr (i, τ) = 0)
    (hf : s.freeBlocks = x :: rest) : Filled s (assign s i τ x) i τ x rest := by
  rcases hr with hr | ⟨p, hp, hp0⟩
  · exact assign_root_filled h hr h0 hf
  · exact assign_entry_filled h hp hp0 h0 hf

end

end BigFile
