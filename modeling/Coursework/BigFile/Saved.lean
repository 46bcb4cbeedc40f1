import Coursework.BigFile.Append

/-! Images between two operations of `mkfs`, with all inodes on the disk: allocations of
inodes and appends keep them well formed, and how far `mkfs` gets depends on the sizes only. -/
namespace BigFile.MkFs
open BlockTree

section Tree
variable {s s' : Fs} {F : ℕ → Contents}

/-- What lies below the bitmap has no part in the block trees, apart from `addrs`. -/
theorem tree_congr (hs : WellFormed s) (hsb : s.sb = mkfsSb) (hsb' : s'.sb = mkfsSb)
    (hroot : s'.root = s.root) (hdisk : ∀ b, 58 ≤ b → s'.disk b = s.disk b) :
    s'.ptr = s.ptr ∧ WellFormed s' := by
  have hstart : s.dataStart = 63 := by
    rw [Fs.dataStart, hsb]
    rfl
  have hlo : ∀ {v : Node}, s.ptr v ≠ 0 → 58 ≤ s.ptr v := by
    intro v hv
    have := (hs.owned.range hv).1
    omega
  have hptr : s'.ptr = s.ptr := by
    have hr := resolves s'
    rw [hroot] at hr
    apply (resolves s).frame hr
    intro τ q _ hq
    rw [hdisk _ (hlo hq)]
  have hused : s'.used = s.used := by
    apply used_congr (hsb'.trans hsb.symm)
    intro b _
    apply hdisk
    rw [Fs.bblock, hsb]
    exact Nat.le_add_left 58 _
  refine ⟨hptr, hs.layout.congr (hsb'.trans hsb.symm), ?_⟩
  rw [hused, hptr, Fs.dataStart, hsb', ← hsb]
  exact hs.owned

theorem stored_congr (h : Stored s F) (hs : WellFormed s) (hsb : s.sb = mkfsSb)
    (hptr : s'.ptr = s.ptr) (hdisk : ∀ b, 58 ≤ b → s'.disk b = s.disk b) : Stored s' F := by
  intro i p hp
  obtain ⟨hne, hbyte⟩ := h i p hp
  have hlo := (hs.owned.range hne).1
  rw [Fs.dataStart, hsb] at hlo
  change 63 ≤ s.ptr (i, .data (p / 512)) at hlo
  rw [hptr, hdisk _ (by omega)]
  exact ⟨hne, hbyte⟩

end Tree

/-- An image with all inodes on the disk. -/
structure Saved (m : Img) (s : Fs) (F : ℕ → Contents) : Prop where
  built : ∀ j < 200, Built m j (s.inode j) s (fileBlocks F) F
  entry : ∀ j, Entry (s.inode j) (F j)
  fresh : ∀ j, m.freeinode ≤ j → (F j).size = 0

/-- The number of blocks that the files take. -/
def total (F : ℕ → Contents) : ℕ := ∑ j ∈ Finset.range 200, cost (F j).size

/-- The files are as large as `mkfs` can build them. -/
def Small (F : ℕ → Contents) : Prop := (∀ j, (F j).size ≤ 71168) ∧ 63 + total F < 4096

section Save
variable {m : Img} {i : ℕ} {din din' : Inode} {s : Fs} {F : ℕ → Contents}

/-- The inode in memory goes to the disk. -/
theorem Built.save (h : Built m i din s (fileBlocks F) F) (hd : Entry din' (F i))
    (haddrs : din'.addrs = din.addrs) (hfresh : ∀ j, m.freeinode ≤ j → (F j).size = 0) :
    ∃ m' s', winode m i din' = some m' ∧ m'.freeinode = m.freeinode ∧
      m'.freeblock = m.freeblock ∧ Saved m' s' F := by
  have hview : View m i din' (s.setInode i din') := by
    refine ⟨h.view.sb, h.view.disk, ?_⟩
    change Function.update s.inode i din' = _
    rw [h.view.inode, Function.update_idem]
  obtain ⟨m', he, hblock, hfree, hclean, hinode, hdisk⟩ :=
    hview.winode h.clean h.inum hd.packed
  have hentry : ∀ j, Entry (inodesOf mkfsSb m'.disk j) (F j) := by
    intro j
    rw [← hinode, hview.inode]
    obtain rfl | hj := eq_or_ne j i
    · rw [Function.update_self]
      exact hd
    · rw [Function.update_of_ne hj]
      exact h.others j hj
  generalize hs' : ({ s.setInode i din' with
    disk := Function.update m'.disk 58 (bitmap m'.freeblock) } : Fs) = s'
  have hinode' : s'.inode = inodesOf mkfsSb m'.disk := by
    rw [← hs', ← hinode]
  have hsb' : s'.sb = mkfsSb := by
    rw [← hs']
    exact h.view.sb
  have hdisk' : ∀ b, 58 ≤ b → s'.disk b = s.disk b := by
    intro b hb
    rw [← hs', h.view.disk]
    change Function.update m'.disk 58 (bitmap m'.freeblock) b = _
    obtain rfl | hne := eq_or_ne b 58
    · rw [Function.update_self, Function.update_self, hblock]
    · rw [Function.update_of_ne hne, Function.update_of_ne hne, hdisk b hb]
  have hroot : s'.root = s.root := by
    funext ⟨j, τ⟩
    unfold Fs.root
    have hsame : (s'.inode j).addrs = (s.inode j).addrs := by
      rw [← hs']
      change (Function.update s.inode i din' j).addrs = _
      obtain rfl | hj := eq_or_ne j i
      · rw [Function.update_self, haddrs, h.view.inode_self]
      · rw [Function.update_of_ne hj]
    rw [hsame]
  obtain ⟨hptr, hwf⟩ := tree_congr h.wf h.view.sb hsb' hroot hdisk'
  have hdense : Dense s' (fileBlocks F) := by
    refine ⟨?_, ?_, ?_⟩ <;> rw [hptr]
    · exact h.dense.data
    · exact h.dense.ind
    · exact h.dense.dbl
  refine ⟨m', s', he, hfree, hblock, fun j hj => ?_, fun j => ?_, fun j hj => ?_⟩
  · have hview' : View m' j (s'.inode j) s' := by
      refine ⟨hsb', by rw [← hs'], ?_⟩
      rw [← hinode', Function.update_eq_self]
    have hpacked := hentry j
    rw [← hinode'] at hpacked
    exact ⟨⟨hclean, hblock ▸ h.hi, hview', hwf, stored_congr h.stored h.wf h.view.sb hptr hdisk',
      hpacked.packed, hpacked.type, fun k _ => hentry k, hj⟩, hdense, hblock ▸ h.count⟩
  · rw [hinode']
    exact hentry j
  · exact hfresh j (hfree ▸ hj)

/-- An unused inode has no blocks. -/
theorem Built.addrs_eq (h : Built m i din s (fileBlocks F) F) (h0 : (F i).size = 0) :
    din.addrs = fun _ => 0 := by
  have hblocks : fileBlocks F i = 0 := by rw [fileBlocks, h0]
  funext k
  by_cases h1 : k < 11
  · rw [← h.ptr_data h1]
    by_contra hne
    have := (h.dense.data i k).1 hne
    omega
  · by_cases h2 : k = 11
    · rw [h2, ← h.ptr_ind]
      by_contra hne
      have := (h.dense.ind i).1 hne
      omega
    · by_cases h3 : k = 12
      · have hdbl := h.dense.dbl i
        rw [ptr_of_root s (show Slot.dbl.Root from trivial), h.view.inode_self] at hdbl
        rw [h3]
        exact hdbl
      · exact h.packed.out k (by omega)

theorem Built.freeinode (h : Built m i din s (fileBlocks F) F) (k : ℕ) :
    Built { m with freeinode := k } i din s (fileBlocks F) F :=
  ⟨⟨⟨h.clean.sb, h.clean.zero, h.clean.lo⟩, h.hi, ⟨h.view.sb, h.view.disk, h.view.inode⟩, h.wf,
    h.stored, h.packed, h.type, h.others, h.inum⟩, h.dense, h.count⟩

theorem Saved.ialloc (h : Saved m s F) (hlt : m.freeinode < 200) {type : ℤ}
    (htype : type = tDir ∨ type = tFile) :
    ∃ m' s', ialloc m type = some m' ∧ m'.freeinode = m.freeinode + 1 ∧
      m'.freeblock = m.freeblock ∧ Saved m' s' F := by
  have h0 := h.fresh m.freeinode le_rfl
  have hbuilt := h.built m.freeinode hlt
  have hrange : type = 1 ∨ type = 2 := htype
  have hentry : Entry ⟨type, 0, 0, 1, 0, fun _ => 0⟩ (F m.freeinode) := by
    have htype3 : type ≠ tDev := by
      change type ≠ 3
      omega
    refine ⟨⟨?_, ?_, ?_, ?_, ?_, ?_, fun _ _ => rfl⟩, htype3, h0.symm⟩ <;> dsimp only
    all_goals omega
  exact (hbuilt.freeinode (m.freeinode + 1)).save hentry (hbuilt.addrs_eq h0).symm
    fun j hj => h.fresh j ((Nat.le_succ _).trans hj)

theorem Saved.rinode (h : Saved m s F) (hi : i < 200) : rinode m i = some (s.inode i) := by
  have hread : m.rsect (i / ipb + inodestart) = some (m.disk (i / ipb + inodestart)) := by
    apply if_pos
    change i / 8 + 32 < 20000
    omega
  -- The inode in memory is the one on the disk, as another one shows.
  have hinode : s.inode i = inodesOf mkfsSb m.disk i := by
    obtain ⟨j, hj, hne⟩ : ∃ j < 200, i ≠ j := by
      obtain rfl | h0 := eq_or_ne i 0
      · exact ⟨1, by decide, by decide⟩
      · exact ⟨0, by decide, h0⟩
    rw [(h.built j hj).view.inode, Function.update_of_ne hne]
  unfold MkFs.rinode
  rw [hread, hinode, inodesOf, if_pos (show i < mkfsSb.ninodes from hi)]
  rfl

theorem total_update {c : Contents} (hi : i < 200) :
    total (Function.update F i c) + cost (F i).size = total F + cost c.size :=
  sum_update (fun c : Contents => cost c.size) F hi c

theorem Saved.count (h : Saved m s F) : m.freeblock = 63 + total F :=
  (h.built 0 (by decide)).count

theorem Saved.size_le (h : Saved m s F) (j : ℕ) : (F j).size ≤ 71168 := by
  have := (h.built 0 (by decide)).size_le j
  unfold fileBlocks at this
  omega

theorem Saved.small (h : Saved m s F) : Small F :=
  ⟨h.size_le, h.count ▸ (h.built 0 (by decide)).hi⟩

/-- `iappend` succeeds as long as the files stay small, and else leaves no room in the
bitmap. -/
theorem Saved.iappend (h : Saved m s F) (hi : i < 200) (hi' : i < m.freeinode) {p : ℕ → ℕ}
    {n : ℕ} {F' : ℕ → Contents} (hF' : F' = Function.update F i ((F i).put (F i).size n p)) :
    (Small F' → ∃ m' s', iappend m i p n = some m' ∧ m'.freeinode = m.freeinode ∧
      Saved m' s' F') ∧
    ∀ m', iappend m i p n = some m' → m.freeblock ≤ m'.freeblock ∧
      (m'.freeblock < 4096 → Small F') := by
  have hbuilt := h.built i hi
  have hsize : (s.inode i).size = (F i).size := (h.entry i).size
  have hput : ((F i).put (F i).size n p).size = (F i).size + n := by
    change max (F i).size ((F i).size + n) = _
    omega
  have htotal := total_update (F := F) (c := (F i).put (F i).size n p) hi
  have hcount := h.count
  have hself : F' i = (F i).put (F i).size n p := by rw [hF', Function.update_self]
  rw [← hF', hput] at htotal
  have hrun : MkFs.iappend m i p n = (appendLoop n m (s.inode i) p (F i).size n).bind
      fun r => winode r.1 i (r.2.1.setSize r.2.2) := by
    unfold MkFs.iappend
    rw [h.rinode hi, Option.bind_eq_bind, Option.bind_some, hsize]
    rfl
  rw [hrun]
  constructor
  · intro hsmall
    have hend : (F i).size + n ≤ 71168 := by
      rw [← hput, ← hself]
      exact hsmall.1 i
    have hroom := hsmall.2
    obtain ⟨m₁, din₁, s₁, he, hnew⟩ := hbuilt.loop (p := p) le_rfl rfl hend (by omega)
    rw [← hF'] at hnew
    have hlo := hbuilt.clean.lo
    have hino := (appendLoop_mono (show m.freeblock ≠ 0 by omega) he).2
    have hentry : Entry (din₁.setSize ((F i).size + n)) (F' i) := by
      have hp := hnew.packed
      refine ⟨⟨hp.type, hp.major, hp.minor, hp.nlink, ?_, hp.addrs, hp.out⟩, hnew.type, ?_⟩
      · change (F i).size + n < 4294967296
        omega
      · rw [hself, hput]
        rfl
    have hfresh : ∀ j, m₁.freeinode ≤ j → (F' j).size = 0 := by
      intro j hj
      rw [hino] at hj
      rw [hF', Function.update_of_ne (by omega)]
      exact h.fresh j hj
    obtain ⟨m', s', hw, hfree, -, hsaved⟩ := hnew.save hentry rfl hfresh
    refine ⟨m', s', ?_, hfree.trans hino, hsaved⟩
    rw [he]
    exact hw
  · intro m' he
    obtain ⟨⟨m₁, din₁, off⟩, hloop, hw⟩ := Option.bind_eq_some_iff.1 he
    have hlo := hbuilt.clean.lo
    have hmono := (appendLoop_mono (show m.freeblock ≠ 0 by omega) hloop).1
    have hkeep : m'.freeblock = m₁.freeblock := by
      obtain ⟨d, -, hm⟩ := Option.bind_eq_some_iff.1 hw
      rw [← Option.some.inj hm]
      rfl
    rw [hkeep]
    refine ⟨hmono, fun hlt => ?_⟩
    obtain ⟨hend, hroom⟩ := hbuilt.loop_bound le_rfl rfl hloop hlt
    refine ⟨fun j => ?_, by omega⟩
    obtain rfl | hj := eq_or_ne j i
    · rw [hself, hput]
      exact hend
    · rw [hF', Function.update_of_ne hj]
      exact h.size_le j

end Save

end BigFile.MkFs
