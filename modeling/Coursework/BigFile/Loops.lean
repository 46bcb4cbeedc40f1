import Coursework.BigFile.Mapping
import Mathlib.Order.Interval.Finset.Nat

/-! The loops of `readi` and `writei`: which slots and blocks they fill, and the update of
the inode at the end. -/
namespace BigFile
open BlockTree

/-- The file blocks of bytes `off` to `off + n`. -/
def touched (off n : ℕ) : Finset ℕ :=
  if n = 0 then ∅ else Finset.Ico (off / 512) ((off + n - 1) / 512 + 1)

/-- The empty slots on the paths to the file blocks `B`. -/
def missing (s : Fs) (i : ℕ) (B : Finset ℕ) : Finset Slot :=
  (B.biUnion fun bn => (path bn).toFinset).filter fun τ => s.ptr (i, τ) = 0

theorem touched_zero (off : ℕ) : touched off 0 = ∅ := rfl

theorem mem_touched {off n bn : ℕ} :
    bn ∈ touched off n ↔ 0 < n ∧ off / 512 ≤ bn ∧ bn ≤ (off + n - 1) / 512 := by
  unfold touched
  by_cases h : n = 0
  · simp [h]
  · rw [if_neg h, Finset.mem_Ico]
    omega

theorem touched_step {off n : ℕ} (hn : n ≠ 0) :
    touched off n = insert (off / 512)
      (touched (off + min n (512 - off % 512)) (n - min n (512 - off % 512))) := by
  ext bn
  rw [Finset.mem_insert, mem_touched, mem_touched]
  omega

theorem card_touched (off : ℕ) {n : ℕ} (hn : 0 < n) :
    (touched off n).card = (off + n - 1) / 512 + 1 - off / 512 := by
  rw [touched, if_neg (by omega), Nat.card_Ico]

theorem mem_missing {s : Fs} {i : ℕ} {B : Finset ℕ} {τ : Slot} :
    τ ∈ missing s i B ↔ (∃ bn ∈ B, τ ∈ path bn) ∧ s.ptr (i, τ) = 0 := by
  simp [missing]

theorem missing_mono {s : Fs} {i : ℕ} {B B' : Finset ℕ} (h : B ⊆ B') :
    missing s i B ⊆ missing s i B' := by
  intro τ hτ
  rw [mem_missing] at hτ ⊢
  obtain ⟨⟨bn, hbn, hp⟩, h0⟩ := hτ
  exact ⟨⟨bn, h hbn, hp⟩, h0⟩

theorem mem_foldl_fill {s : Fs} {i : ℕ} {l : List Slot} {M : Finset Slot} {τ : Slot} :
    τ ∈ l.foldl (fill s i) M ↔ τ ∈ M ∨ (τ ∈ l ∧ s.ptr (i, τ) = 0) := by
  induction l generalizing M with
  | nil => simp
  | cons σ l ih =>
    rw [List.foldl_cons, ih, List.mem_cons]
    unfold fill
    by_cases h0 : s.ptr (i, σ) = 0
    · rw [if_pos h0, Finset.mem_insert]
      constructor
      · rintro ((rfl | h) | h)
        · exact .inr ⟨.inl rfl, h0⟩
        · exact .inl h
        · exact .inr ⟨.inr h.1, h.2⟩
      · rintro (h | ⟨rfl | h, h'⟩)
        · exact .inl (.inr h)
        · exact .inl (.inl rfl)
        · exact .inr ⟨h, h'⟩
    · rw [if_neg h0]
      constructor
      · rintro (h | h)
        · exact .inl h
        · exact .inr ⟨.inr h.1, h.2⟩
      · rintro (h | ⟨rfl | h, h'⟩)
        · exact .inl h
        · exact absurd h' h0
        · exact .inr ⟨h, h'⟩

theorem foldl_fill_union {s : Fs} {i bn : ℕ} {M : Finset Slot} {B : Finset ℕ} :
    (path bn).foldl (fill s i) M ∪ missing s i B = M ∪ missing s i (insert bn B) := by
  ext τ
  simp only [Finset.mem_union, mem_foldl_fill, mem_missing, Finset.mem_insert]
  constructor
  · rintro ((h | ⟨hp, h0⟩) | ⟨⟨bn', hbn', hp⟩, h0⟩)
    · exact .inl h
    · exact .inr ⟨⟨bn, .inl rfl, hp⟩, h0⟩
    · exact .inr ⟨⟨bn', .inr hbn', hp⟩, h0⟩
  · rintro (h | ⟨⟨bn', rfl | hbn', hp⟩, h0⟩)
    · exact .inl (.inl h)
    · exact .inl (.inr ⟨hp, h0⟩)
    · exact .inr ⟨⟨bn', hbn', hp⟩, h0⟩

theorem block_lt {off n : ℕ} (hn : n ≠ 0) (h : off + n ≤ 8459776) : off / 512 < 16523 := by
  omega

namespace Trace

variable {s s' t : Fs} {i : ℕ} {M : Finset Slot} {W : Finset ℕ} {src : ℕ → ℕ} {fuel off n : ℕ}

/-- The loop of `writei` fills the empty slots on the paths to the blocks it touches, and
writes these blocks. -/
theorem writeLoop (h : Trace s s' i M W) (hn : n ≤ fuel) (hend : off + n ≤ 8459776)
    (he : writeLoop fuel s' i src off n = some t) :
    Trace s t i (M ∪ missing s i (touched off n)) (W ∪ touched off n) := by
  induction fuel generalizing s' M W src off n with
  | zero =>
    rw [BigFile.writeLoop, Option.some.injEq] at he
    rw [← he, show n = 0 by omega, touched_zero]
    simpa [missing] using h
  | succ fuel ih =>
    rw [BigFile.writeLoop] at he
    by_cases h0 : n = 0
    · rw [if_pos h0, Option.some.injEq] at he
      rw [← he, h0, touched_zero]
      simpa [missing] using h
    · rw [if_neg h0] at he
      obtain ⟨⟨s₁, b⟩, hb, he⟩ := Option.bind_eq_some_iff.1 he
      obtain ⟨h₁, hptr, hne⟩ := h.bmap_step (block_lt h0 hend) hb
      have hp : s₁.ptr (i, .data (off / 512)) ≠ 0 := by rwa [hptr]
      have h₂ := h₁.write_step hp
        (putBytes (s₁.disk b) (off % 512) (min n (512 - off % 512)) src)
      rw [hptr] at h₂
      replace he : BigFile.writeLoop fuel _ i _ (off + min n (512 - off % 512))
        (n - min n (512 - off % 512)) = some t := he
      have h₃ := ih h₂ (by omega) (by omega) he
      rw [touched_step h0]
      show Trace s t i (M ∪ missing s i (insert (off / 512) _)) (W ∪ insert (off / 512) _)
      rw [← foldl_fill_union, Finset.union_insert, ← Finset.insert_union]
      exact h₃

theorem writeLoop_exists (h : Trace s s' i M W) (hn : n ≤ fuel) (hend : off + n ≤ 8459776)
    (hfree : (M ∪ missing s i (touched off n)).card ≤ s.freeBlocks.length) :
    ∃ t, BigFile.writeLoop fuel s' i src off n = some t := by
  induction fuel generalizing s' M W src off n with
  | zero => exact ⟨_, rfl⟩
  | succ fuel ih =>
    rw [BigFile.writeLoop]
    by_cases h0 : n = 0
    · exact ⟨_, if_pos h0⟩
    · rw [if_neg h0]
      rw [touched_step h0, ← foldl_fill_union] at hfree
      have hle : ((path (off / 512)).foldl (fill s i) M).card ≤
          ((path (off / 512)).foldl (fill s i) M ∪ missing s i (touched
            (off + min n (512 - off % 512)) (n - min n (512 - off % 512)))).card :=
        Finset.card_le_card Finset.subset_union_left
      obtain ⟨s₁, b, hb⟩ := h.bmap_exists (block_lt h0 hend) (hle.trans hfree)
      obtain ⟨h₁, hptr, hne⟩ := h.bmap_step (block_lt h0 hend) hb
      have hp : s₁.ptr (i, .data (off / 512)) ≠ 0 := by rwa [hptr]
      have h₂ := h₁.write_step hp
        (putBytes (s₁.disk b) (off % 512) (min n (512 - off % 512)) src)
      rw [hptr] at h₂
      have hfuel : n - min n (512 - off % 512) ≤ fuel := by omega
      have hend' : off + min n (512 - off % 512) + (n - min n (512 - off % 512)) ≤
          8459776 := by omega
      have h₃ : ∃ t, BigFile.writeLoop fuel _ i (fun k => src (min n (512 - off % 512) + k))
          (off + min n (512 - off % 512)) (n - min n (512 - off % 512)) = some t :=
        ih h₂ hfuel hend' hfree
      obtain ⟨t, ht⟩ := h₃
      refine ⟨t, ?_⟩
      rw [show off / bsize = off / 512 from rfl, hb]
      exact ht

end Trace

/-- `bmap` of an assigned block changes nothing. -/
theorem bmap_of_ne {s : Fs} {i bn : ℕ} (h : s.ptr (i, .data bn) ≠ 0) :
    bmap s i bn = some (s, s.ptr (i, .data bn)) := by
  have hbn : bn < 16523 := by
    by_contra hge
    apply h
    simp only [Fs.ptr]
    rw [if_neg (by omega), if_neg (by omega), if_neg hge]
  rw [bmap_eq s i hbn]
  by_cases h1 : bn < 11
  · rw [if_pos h1]
    exact ensure_of_ne (.inl h1) h
  · rw [if_neg h1]
    by_cases h2 : bn < 139
    · have hp := Trace.ind_parent h1 h2
      have hp0 := ptr_parent_ne hp h
      rw [if_pos h2, ensure_of_ne (.inl Slot.root_ind) hp0, Option.bind_some,
        bmapEntry_eq hp rfl]
      exact ensure_of_ne (.inr ⟨_, hp, hp0⟩) h
    · have hp := Trace.dblE_parent h2 hbn
      have hp0 := ptr_parent_ne hp h
      have hq := Trace.dbl_parent hbn
      have hq0 := ptr_parent_ne hq hp0
      rw [if_neg h2, ensure_of_ne (.inl Slot.root_dbl) hq0, Option.bind_some,
        bmapEntry_eq hq rfl, ensure_of_ne (.inr ⟨_, hq, hq0⟩) hp0, Option.bind_some,
        bmapEntry_eq hp rfl]
      exact ensure_of_ne (.inr ⟨_, hp, hp0⟩) h

/-- What the end of `writei` changes. -/
structure Grown (s s' : Fs) (i size : ℕ) : Prop where
  wf : WellFormed s'
  sb : s'.sb = s.sb
  ptr : s'.ptr = s.ptr
  free : s'.freeBlocks = s.freeBlocks
  disk : ∀ {v}, s.ptr v ≠ 0 → s'.disk (s.ptr v) = s.disk (s.ptr v)
  type : ∀ j, (s'.inode j).type = (s.inode j).type
  size_self : (s'.inode i).size = size
  size_of_ne : ∀ {j}, j ≠ i → (s'.inode j).size = (s.inode j).size
  log : ∀ {c}, c ∈ s'.log ↔ c ∈ s.log ∨ c = s.iblock i
  nodup : s.log.Nodup → s'.log.Nodup
  commits : s'.commits = s.commits

theorem iupdate_grown {s : Fs} {i : ℕ} (h : WellFormed s) (hi : i < s.sb.ninodes) (n : ℕ) :
    Grown s (iupdate (s.setInode i ((s.inode i).setSize n)) i) i n := by
  generalize hs' : iupdate (s.setInode i ((s.inode i).setSize n)) i = s'
  have hpos := h.owned.lo_pos
  have hsz : 0 < s.sb.size := by
    unfold Fs.dataStart at hpos
    omega
  have hblk := h.layout.inode_lt hi hsz
  have hdisk : ∀ {c}, c ≠ s.iblock i → s'.disk c = s.disk c := by
    intro c hc
    rw [← hs']
    exact Function.update_of_ne hc _ _
  have hinode : s'.inode = Function.update s.inode i ((s.inode i).setSize n) := by
    rw [← hs']
    rfl
  have hptrdisk : ∀ {v}, s.ptr v ≠ 0 → s'.disk (s.ptr v) = s.disk (s.ptr v) := by
    intro v hv
    apply hdisk
    have := (h.owned.range hv).1
    omega
  have hsb : s'.sb = s.sb := by rw [← hs']; rfl
  have hused : s'.used = s.used := by
    apply used_congr hsb
    intro b hb
    apply hdisk
    have h1 := h.layout.inodes hi
    have h2 : s.sb.bmapstart ≤ s.bblock b := Nat.le_add_left _ _
    omega
  have hroot : s'.root = s.root := by
    funext ⟨j, τ⟩
    unfold Fs.root
    rw [hinode]
    by_cases hj : j = i
    · rw [hj, Function.update_self]
      rfl
    · rw [Function.update_of_ne hj]
  have hptr : s'.ptr = s.ptr := by
    have hr := resolves s'
    rw [hroot] at hr
    apply (resolves s).frame hr
    intro τ q _ hq
    rw [hptrdisk hq]
  constructor
  · constructor
    · exact h.layout.congr hsb
    · rw [hused, hptr, Fs.dataStart, hsb]
      exact h.owned
  · exact hsb
  · exact hptr
  · rw [Fs.freeBlocks, hused, hsb]
    rfl
  · exact hptrdisk
  · intro j
    rw [hinode]
    by_cases hj : j = i
    · rw [hj, Function.update_self]
      rfl
    · rw [Function.update_of_ne hj]
  · rw [hinode, Function.update_self]
    rfl
  · intro j hj
    rw [hinode, Function.update_of_ne hj]
  · intro c
    rw [← hs']
    exact mem_logWrite
  · intro hnd
    rw [← hs']
    exact nodup_logWrite (s := Fs.setBlock _ _ _) hnd
  · rw [← hs']
    rfl

end BigFile
