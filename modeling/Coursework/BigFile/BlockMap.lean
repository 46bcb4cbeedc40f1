import Coursework.BigFile.Files

/-! The block map of the inodes as `bmap` computes it, and the file system over whole
histories of reads and writes. -/
namespace BigFile
open BlockTree

/-- Block `bn` of inode `i` is disk block `b`: `bmap` returns it without a change. -/
def Maps (s : Fs) (i bn b : ℕ) : Prop := bmap s i bn = some (s, b)

/-- Mapped blocks are no block 0, belong to one block of one inode, and are no index
block of any inode. -/
structure BlockMap (s : Fs) : Prop where
  nonzero : ∀ {i bn b}, Maps s i bn b → b ≠ 0
  injective : ∀ {i j bn bn' b}, Maps s i bn b → Maps s j bn' b → i = j ∧ bn = bn'
  not_index : ∀ {i bn b}, Maps s i bn b → ∀ j,
    s.ptr (j, .ind) ≠ b ∧ s.ptr (j, .dbl) ≠ b ∧ ∀ e, s.ptr (j, .dblE e) ≠ b

theorem bmap_out_of_range (s : Fs) (i : ℕ) {bn : ℕ} (h : 16523 ≤ bn) : bmap s i bn = none := by
  have c1 : ndirect = 11 := rfl
  have c2 : nindirect = 128 := rfl
  have c3 : dindirect = 16384 := rfl
  unfold bmap
  rw [c1, c2, c3, if_neg (by omega)]
  simp only []
  rw [if_neg (by omega), if_neg (by omega)]

theorem bmap_spec {s t : Fs} {i bn b : ℕ} (h : WellFormed s) (he : bmap s i bn = some (t, b)) :
    Trace s t i ((path bn).foldl (fill s i) ∅) ∅ ∧ t.ptr (i, .data bn) = b ∧ b ≠ 0 := by
  have hbn : bn < 16523 := by
    by_contra hge
    rw [bmap_out_of_range s i (by omega)] at he
    cases he
  exact (Trace.refl h i).bmap_step hbn he

theorem maps_iff {s : Fs} {i bn b : ℕ} (h : WellFormed s) :
    Maps s i bn b ↔ s.ptr (i, .data bn) = b ∧ b ≠ 0 := by
  constructor
  · intro hm
    exact (bmap_spec h hm).2
  · rintro ⟨rfl, hne⟩
    exact bmap_of_ne hne

theorem WellFormed.blockMap {s : Fs} (h : WellFormed s) : BlockMap s := by
  constructor
  · intro i bn b hm
    exact ((maps_iff h).1 hm).2
  · intro i j bn bn' b hm hm'
    obtain ⟨rfl, hne⟩ := (maps_iff h).1 hm
    obtain ⟨he, -⟩ := (maps_iff h).1 hm'
    have hv := h.owned.inj hne he.symm
    simpa using hv
  · intro i bn b hm j
    obtain ⟨rfl, hne⟩ := (maps_iff h).1 hm
    have hτ : ∀ τ : Slot, τ ≠ .data bn → s.ptr (j, τ) ≠ s.ptr (i, .data bn) := by
      intro τ hτ
      apply (h.ptr_ne hne _).symm
      intro e
      exact hτ (congrArg Prod.snd e).symm
    exact ⟨hτ _ (by simp), hτ _ (by simp), fun e => hτ _ (by simp)⟩

theorem Maps.trace {s t : Fs} {i j bn b : ℕ} {M : Finset Slot} {W : Finset ℕ}
    (hm : Maps s j bn b) (h : WellFormed s) (ht : Trace s t i M W) : Maps t j bn b := by
  obtain ⟨rfl, hne⟩ := (maps_iff h).1 hm
  rw [maps_iff ht.wf, ht.keeps hne]
  exact ⟨rfl, hne⟩

theorem ptr_of_addrs {s : Fs} {i : ℕ} (h : ∀ k, (s.inode i).addrs k = 0) (τ : Slot) :
    s.ptr (i, τ) = 0 := by
  cases τ <;> simp [Fs.ptr, Fs.entry, h]

/-- An empty file: no byte and no block. -/
structure Fresh (s : Fs) (i : ℕ) : Prop where
  inum : i < s.sb.ninodes
  type : (s.inode i).type ≠ tDev
  size : (s.inode i).size = 0
  addrs : ∀ k, (s.inode i).addrs k = 0

def noBytes : Contents := ⟨0, fun _ => 0⟩

/-- From empty files on, every admitted history of reads and writes runs and reads back
what was written last, and at every point of it the block map shares no block and keeps
every block it has assigned. -/
theorem history_reads_back {s : Fs} {I : Finset ℕ} {ops₁ ops₂ : List Op} (hs : WellFormed s)
    (hI : ∀ i ∈ I, Fresh s i) (hops : ∀ op ∈ ops₁ ++ ops₂, op.inum ∈ I)
    (hadm : AdmittedAll (fun _ => noBytes) (ops₁ ++ ops₂))
    (hfree : ∑ i ∈ I, need (((filesAll (fun _ => noBytes) (ops₁ ++ ops₂) i).size + 511) / 512) ≤
      s.freeBlocks.length) :
    ∃ s₁ s₂, execAll s ops₁ = some (s₁, outAll (fun _ => noBytes) ops₁) ∧
      execAll s₁ ops₂ = some (s₂, outAll (filesAll (fun _ => noBytes) ops₁) ops₂) ∧
      BlockMap s₁ ∧ (∀ i bn b, Maps s₁ i bn b → Maps s₂ i bn b) ∧
      ∀ i bn t b, bmap s₁ i bn = some (t, b) →
        BlockMap t ∧ Maps t i bn b ∧ ∀ j bn' b', Maps s₁ j bn' b' → Maps t j bn' b' := by
  have hsim : Sim I (fun i => ((filesAll (fun _ => noBytes) (ops₁ ++ ops₂) i).size + 511) / 512) s
      (fun _ => noBytes) := by
    constructor
    · exact hs
    · intro i p hp
      exact absurd hp (Nat.not_lt_zero p)
    · exact fun i hi => (hI i hi).inum
    · exact fun i hi => (hI i hi).type
    · exact fun i hi => (hI i hi).size
    · refine le_trans (Finset.sum_le_sum ?_) hfree
      intro i _
      exact card_missing_le s i _
  have happ : filesAll (fun _ => noBytes) (ops₁ ++ ops₂) =
      filesAll (filesAll (fun _ => noBytes) ops₁) ops₂ := List.foldl_append
  have hD : ∀ j, (filesAll (fun _ => noBytes) (ops₁ ++ ops₂) j).size ≤
      ((filesAll (fun _ => noBytes) (ops₁ ++ ops₂) j).size + 511) / 512 * 512 := by
    intro j
    omega
  have hD₁ : ∀ j, (filesAll (fun _ => noBytes) ops₁ j).size ≤
      ((filesAll (fun _ => noBytes) (ops₁ ++ ops₂) j).size + 511) / 512 * 512 := by
    intro j
    refine le_trans ?_ (hD j)
    rw [happ]
    exact size_le_filesAll _ _ _
  rw [admittedAll_append] at hadm
  obtain ⟨s₁, he₁, hsim₁, -⟩ :=
    hsim.run (fun op ho => hops op (List.mem_append_left _ ho)) hadm.1 hD₁
  obtain ⟨s₂, he₂, hsim₂, hkeep⟩ :=
    hsim₁.run (fun op ho => hops op (List.mem_append_right _ ho)) hadm.2 (by rwa [← happ])
  refine ⟨s₁, s₂, he₁, he₂, hsim₁.wf.blockMap, ?_, ?_⟩
  · intro i bn b hm
    obtain ⟨rfl, hne⟩ := (maps_iff hsim₁.wf).1 hm
    rw [maps_iff hsim₂.wf, hkeep _ hne]
    exact ⟨rfl, hne⟩
  · intro i bn t b hb
    obtain ⟨ht, hptr, hne⟩ := bmap_spec hsim₁.wf hb
    exact ⟨ht.wf.blockMap, (maps_iff ht.wf).2 ⟨hptr, hne⟩,
      fun j bn' b' hm => hm.trace hsim₁.wf ht⟩

/-- The superblock that `mkfs` writes. -/
def mkfsSb : Superblock where
  size := 20000
  nblocks := 19937
  ninodes := 200
  inodestart := 32
  bmapstart := 58

/-- A disk with the metadata blocks in use and no block in any file. -/
def emptyDisk : Fs where
  sb := mkfsSb
  disk b j := if b = 58 then if j < 7 then 255 else if j = 7 then 127 else 0 else 0
  inode _ := ⟨2, 0, 0, 1, 0, fun _ => 0⟩
  log := []
  commits := []
  devsw _ := false
  input := []
  pipewrite _ := -1

theorem emptyDisk_ptr (v : Node) : emptyDisk.ptr v = 0 := ptr_of_addrs (fun _ => rfl) v.2

theorem emptyDisk_wellFormed : WellFormed emptyDisk := by
  constructor
  · constructor
    · decide
    · intro i hi
      change i < 200 at hi
      show i / 8 + 32 < 58
      omega
    · intro b hb
      change b < 20000 at hb
      show b / 4096 + 58 < 63
      omega
  · constructor
    · decide
    · decide +kernel
    · intro v hv
      exact absurd (emptyDisk_ptr v) hv
    · intro v hv
      exact absurd (emptyDisk_ptr v) hv
    · intro v w hv
      exact absurd (emptyDisk_ptr v) hv

theorem history_reads_back_emptyDisk :
    ∃ s₁ s₂, execAll emptyDisk [.write 1 0 600 fun k => k % 256] =
        some (s₁, outAll (fun _ => noBytes) [.write 1 0 600 fun k => k % 256]) ∧
      execAll s₁ [.read 1 500 200] = some (s₂, outAll (filesAll (fun _ => noBytes)
        [.write 1 0 600 fun k => k % 256]) [.read 1 500 200]) ∧
      BlockMap s₁ ∧ (∀ i bn b, Maps s₁ i bn b → Maps s₂ i bn b) ∧
      ∀ i bn t b, bmap s₁ i bn = some (t, b) →
        BlockMap t ∧ Maps t i bn b ∧ ∀ j bn' b', Maps s₁ j bn' b' → Maps t j bn' b' := by
  apply history_reads_back (I := {1}) emptyDisk_wellFormed
  · intro i hi
    rw [Finset.mem_singleton.1 hi]
    exact ⟨by decide, by decide, rfl, fun _ => rfl⟩
  · simp [Op.inum]
  · refine ⟨⟨le_rfl, by decide⟩, ⟨?_, by decide⟩, trivial⟩
    show 500 ≤ max 0 (0 + 600)
    decide
  · rw [Finset.sum_singleton]
    have hsub : [63, 64] ⊆ emptyDisk.freeBlocks := by
      intro b hb
      simp only [List.mem_cons, List.not_mem_nil, or_false] at hb
      rcases hb with rfl | rfl
      · exact mem_freeList.2 (by decide +kernel)
      · exact mem_freeList.2 (by decide +kernel)
    exact (List.subperm_of_subset (by decide) hsub).length_le

end BigFile
