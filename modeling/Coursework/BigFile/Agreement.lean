import Coursework.BigFile.Assembly

/-! What the kernel finds on the image that `mkfs` builds: files of up to 139 blocks that fit
into the blocks of one bitmap block are read back, and no others can be built. -/
namespace BigFile.MkFs
open BlockTree

/-- The files that `main` builds, the root directory among them. -/
def built (files : List SourceFile) : ℕ → Contents :=
  contents (fun _ => noBytes) (mainOps files)

/-- The sizes for which `mkfs` works: no file needs a double-indirect block, and one block of
the bitmap covers all blocks in use. -/
def Buildable (files : List SourceFile) : Prop :=
  (∀ f ∈ files, f.bytes.length ≤ 71168) ∧
    63 + cost (16 * (files.length + 2)) + (files.map fun f => cost f.bytes.length).sum < 4096

/-- What the kernel finds: no block is used twice, and `readi` returns the bytes of the files
and changes nothing. -/
structure Agrees (files : List SourceFile) (m : Img) : Prop where
  map : BlockMap (mount m)
  reads : ∀ k f, files[k]? = some f → ∀ off n, off ≤ f.bytes.length → off + n < 4294967296 →
    readi (mount m) (2 + k) off n =
      some (mount m, ((f.bytes.drop off).take n).length, (f.bytes.drop off).take n)

theorem Reads.get {c : Contents} {l : List ℕ} (h : Reads c l) (off n : ℕ) :
    c.get off n = (l.drop off).take n := by
  unfold Contents.get
  rw [h.1]
  apply List.ext_getElem
  · simp
  · intro k h1 h2
    rw [List.length_take, List.length_drop] at h2
    have hk : off + k < l.length := by omega
    simp [h.2 (off + k) hk, hk]

theorem total_noBytes : total (fun _ => noBytes) = 0 :=
  Finset.sum_eq_zero fun _ _ => show cost 0 = 0 from rfl

section Sizes
variable {files : List SourceFile}

theorem built_spec (hcount : files.length ≤ 198) :
    (∀ k f, files[k]? = some f → Reads (built files (2 + k)) f.bytes) ∧
      (built files 1).size = 16 * (files.length + 2) ∧
      (∀ j, j ≠ 1 → j < 2 ∨ 2 + files.length ≤ j → (built files j).size = 0) ∧
      total (built files) = cost (16 * (files.length + 2)) +
        (files.map fun f => cost f.bytes.length).sum := by
  generalize hF : contents (fun _ => noBytes) [.ialloc tDir,
    .iappend rootino (dirent rootino [46]) 16, .iappend rootino (dirent rootino [46, 46]) 16] = F
  have hrun : built files = contents F (allOps 2 files) := by
    rw [← hF]
    rfl
  have hroot : (F 1).size = 32 := by
    rw [← hF]
    rfl
  have hother : ∀ j, j ≠ 1 → (F j).size = 0 := by
    intro j hj
    rw [← hF]
    simp [contents, MkOp.files, Function.update_of_ne (show j ≠ rootino from hj), noBytes]
  have hone : total F = cost 32 := by
    obtain ⟨c, hc, hsize⟩ : ∃ c, F = Function.update (fun _ => noBytes) 1 c ∧ c.size = 32 := by
      refine ⟨F 1, funext fun j => ?_, hroot⟩
      obtain rfl | hj := eq_or_ne j 1
      · rw [Function.update_self]
      · rw [Function.update_of_ne hj, ← hF]
        simp [contents, MkOp.files, Function.update_of_ne (show j ≠ rootino from hj)]
    have hsum := total_update (F := fun _ => noBytes) (i := 1) (c := c) (by decide)
    have hzero : cost noBytes.size = 0 := rfl
    rw [total_noBytes, hsize, ← hc] at hsum
    omega
  have hfresh : ∀ j, 2 ≤ j → (F j).size = 0 := fun j hj => hother j (by omega)
  obtain ⟨h1, h2, h3, h4⟩ := @contents_all F 2 files hfresh (by decide) (by omega)
  rw [hroot, show 32 + 16 * files.length = 16 * (files.length + 2) by omega] at h2 h4
  rw [hrun]
  refine ⟨h1, h2, fun j hj hout => ?_, by omega⟩
  rw [h3 j hj hout]
  exact hother j hj

/-- The files are small if and only if their sizes allow `mkfs` to build them. -/
theorem small_iff (hcount : files.length ≤ 198) : Small (built files) ↔ Buildable files := by
  obtain ⟨hreads, hroot, hother, htotal⟩ := built_spec hcount
  unfold Small Buildable
  rw [htotal, Nat.add_assoc]
  apply and_congr_left'
  constructor
  · intro h f hf
    obtain ⟨k, hk⟩ := List.mem_iff_getElem?.1 hf
    rw [← (hreads k f hk).1]
    exact h (2 + k)
  · intro h j
    by_cases h1 : j = 1
    · rw [h1, hroot]
      omega
    · by_cases hout : j < 2 ∨ 2 + files.length ≤ j
      · rw [hother j h1 hout]
        exact Nat.zero_le _
      · obtain ⟨k, rfl⟩ : ∃ k, j = 2 + k := ⟨j - 2, by omega⟩
        have hk : k < files.length := by omega
        rw [(hreads k _ (List.getElem?_eq_getElem hk)).1]
        exact h _ (List.getElem_mem hk)

theorem admits_pieces {k inum : ℕ} (hi : inum < k) (hk : k ≤ 200) (pieces : List (List ℕ))
    {ops : List MkOp} (hops : Admits k ops) : Admits k (pieceOps inum pieces ++ ops) := by
  induction pieces with
  | nil => exact hops
  | cons l pieces ih => exact ⟨hi, hk, ih⟩

theorem admits_all {k : ℕ} (h1 : 1 < k) (hk : k + files.length ≤ 200) :
    Admits k (allOps k files) := by
  induction files generalizing k with
  | nil => trivial
  | cons f files ih =>
    rw [List.length_cons] at hk
    refine ⟨by omega, .inr rfl, ?_, by omega, ?_⟩
    · exact h1.trans (Nat.lt_succ_self k)
    · exact admits_pieces (Nat.lt_succ_self k) (by omega) f.pieces (ih (by omega) (by omega))

theorem admits_main (hcount : files.length ≤ 198) : Admits 1 (mainOps files) := by
  refine ⟨by decide, .inl rfl, by decide, by decide, by decide, by decide, ?_⟩
  exact admits_all (by decide) (by omega)

end Sizes

/-- The image with nothing but a superblock is well formed. -/
theorem blank_saved : ∃ s, Saved blank s fun _ => noBytes := by
  have hclean : Clean blank := by
    have hsb : blank.disk 1 = bytesOf superblock := by simp [blank]
    refine ⟨hsb, fun b hb _ => ?_, by decide⟩
    have hne : b ≠ 1 := by omega
    exact Function.update_of_ne hne (bytesOf superblock) fun _ _ => 0
  have hinode : ∀ j, inodesOf mkfsSb blank.disk j = ⟨0, 0, 0, 0, 0, fun _ => 0⟩ := by
    intro j
    unfold inodesOf
    split
    · have hne : j / ipb + mkfsSb.inodestart ≠ 1 := by
        change j / 8 + 32 ≠ 1
        omega
      rw [show blank.disk (j / ipb + mkfsSb.inodestart) = fun _ => 0 from
        Function.update_of_ne hne (bytesOf superblock) fun _ _ => 0]
      unfold dinodeAt
      simp only [getWord_zero, ite_self]
      rfl
    · rfl
  generalize hs : ({ emptyDisk with
    disk := Function.update blank.disk 58 (bitmap 63)
    inode := inodesOf mkfsSb blank.disk } : Fs) = s
  have hinode' : ∀ j, s.inode j = ⟨0, 0, 0, 0, 0, fun _ => 0⟩ := by
    intro j
    rw [← hs]
    exact hinode j
  have hview : ∀ j, View blank j (s.inode j) s := by
    intro j
    refine ⟨by rw [← hs]; rfl, by rw [← hs]; rfl, ?_⟩
    rw [← hs, Function.update_eq_self]
  have hptr : ∀ v, s.ptr v = 0 := fun v => ptr_of_addrs (fun k => by rw [hinode']) v.2
  have hwf : WellFormed s := by
    refine ⟨emptyDisk_wellFormed.layout.congr (by rw [← hs]), ?_⟩
    rw [(hview 0).dataStart, (hview 0).size]
    refine ⟨by decide, fun b hb => ?_, fun hv => absurd (hptr _) hv, fun hv => absurd (hptr _) hv,
      fun hv => absurd (hptr _) hv⟩
    rw [(hview 0).used hclean (by decide) (by omega)]
    exact decide_eq_true hb
  have hpacked : Packed ⟨0, 0, 0, 0, 0, fun _ => 0⟩ := by
    exact ⟨by decide, by decide, by decide, by decide, by decide, fun _ => Nat.zero_lt_succ _,
      fun _ _ => rfl⟩
  have hentry : Entry ⟨0, 0, 0, 0, 0, fun _ => 0⟩ noBytes := ⟨hpacked, by decide, rfl⟩
  refine ⟨s, fun j hj => ⟨⟨hclean, by decide, hview j, hwf, nofun, ?_, ?_, fun k _ => ?_, hj⟩,
    ?_, ?_⟩, fun j => ?_, fun _ _ => rfl⟩
  · rw [hinode']
    exact hpacked
  · rw [hinode']
    decide
  · rw [hinode]
    exact hentry
  · refine ⟨fun i bn => ?_, fun i => ?_, fun i => hptr _⟩
    · simp [hptr, fileBlocks, noBytes]
    · simp [hptr, fileBlocks, noBytes]
  · have hsum : ∑ j ∈ Finset.range 200, blockCost (fileBlocks (fun _ => noBytes) j) = 0 :=
      total_noBytes
    rw [hsum]
    rfl
  · rw [hinode']
    exact hentry

section Mounted
variable {m img : Img} {s : Fs} {F : ℕ → Contents} {files : List SourceFile}

/-- The end of `main`, and what the kernel then finds. -/
theorem Saved.mounted (h : Saved m s F) : ∃ m' img, fixRoot m = some m' ∧
    balloc m' m'.freeblock = some img ∧ WellFormed (mount img) ∧ Stored (mount img) F ∧
    ∀ j, j ≠ 1 → (mount img).inode j = s.inode j := by
  have hb := h.built 1 (by decide)
  have hsize : (s.inode 1).size ≤ 71168 := by
    rw [(h.entry 1).size]
    exact h.size_le 1
  generalize hd : (s.inode 1).setSize (((s.inode 1).size / bsize + 1) * bsize) = din
  have hpacked : Packed din := by
    have hp := (h.entry 1).packed
    rw [← hd]
    refine ⟨hp.type, hp.major, hp.minor, hp.nlink, ?_, hp.addrs, hp.out⟩
    change ((s.inode 1).size / 512 + 1) * 512 < 4294967296
    omega
  have hview : View m 1 din (s.setInode 1 din) := by
    refine ⟨hb.view.sb, hb.view.disk, ?_⟩
    change Function.update s.inode 1 din = _
    rw [hb.view.inode, Function.update_idem]
  obtain ⟨m', he, hblock, -, hclean, hinode, hdisk⟩ := hview.winode hb.clean hb.inum hpacked
  have hlt : m'.freeblock < 4096 := hblock ▸ hb.hi
  have hroot : fixRoot m = some m' := by
    unfold fixRoot
    rw [h.rinode (by decide), Option.bind_eq_bind, Option.bind_some]
    change winode m 1 ((s.inode 1).setSize (((s.inode 1).size / bsize + 1) * bsize)) = _
    rw [hd]
    exact he
  generalize himg : m'.wsect bmapstart (bitmap m'.freeblock) = img
  have hsb : readsb img.disk = mkfsSb := by
    have hone : img.disk 1 = m'.disk 1 := by
      have hne : 1 ≠ bmapstart := by decide
      rw [← himg]
      exact Function.update_of_ne hne (bitmap m'.freeblock) m'.disk
    rw [← readsb_eq hclean]
    unfold readsb
    rw [hone]
  have hinode' : (mount img).inode = Function.update s.inode 1 din := by
    change inodesOf (readsb img.disk) img.disk = _
    rw [hsb, ← himg, inodesOf_wsect _ (by decide)]
    exact hinode.symm
  have hroots : (mount img).root = s.root := by
    funext ⟨j, τ⟩
    have haddrs : ((mount img).inode j).addrs = (s.inode j).addrs := by
      rw [hinode']
      obtain rfl | hj := eq_or_ne j 1
      · rw [Function.update_self, ← hd]
        rfl
      · rw [Function.update_of_ne hj]
    unfold Fs.root
    rw [haddrs]
  have hdisk' : ∀ b, 58 ≤ b → (mount img).disk b = s.disk b := by
    intro b hb'
    change img.disk b = _
    rw [hb.view.disk, ← himg]
    change Function.update m'.disk 58 (bitmap m'.freeblock) b = _
    obtain rfl | hne := eq_or_ne b 58
    · rw [Function.update_self, Function.update_self, hblock]
    · rw [Function.update_of_ne hne, Function.update_of_ne hne, hdisk b hb']
  obtain ⟨hptr, hwf⟩ := tree_congr hb.wf hb.view.sb hsb hroots hdisk'
  refine ⟨m', img, hroot, ?_, hwf, stored_congr hb.stored hb.wf hb.view.sb hptr hdisk', ?_⟩
  · unfold balloc
    rw [if_pos (show m'.freeblock < bsize * 8 from hlt), himg]
  · intro j hj
    rw [hinode', Function.update_of_ne hj]

/-- `mkfs` builds every image that is small enough, and the kernel reads it back. -/
theorem agrees_of_buildable (hcount : files.length ≤ 198) (h : Buildable files) :
    ∃ img, main files = some img ∧ Agrees files img := by
  obtain ⟨s₀, h₀⟩ := blank_saved
  obtain ⟨m, s, hrun, hsaved⟩ := h₀.run (admits_main hcount) ((small_iff hcount).2 h)
  obtain ⟨m', img, hroot, hballoc, hwf, hstored, hinode⟩ := hsaved.mounted
  refine ⟨img, ?_, hwf.blockMap, fun k f hk off n hoff hn => ?_⟩
  · rw [main_eq, hrun, Option.bind_some, hroot, Option.bind_some]
    exact hballoc
  · have hreads := (built_spec hcount).1 k f hk
    have hentry := hsaved.entry (2 + k)
    have htype : ((mount img).inode (2 + k)).type ≠ tDev := by
      rw [hinode (2 + k) (by omega)]
      exact hentry.type
    have hsize : ((mount img).inode (2 + k)).size = (built files (2 + k)).size := by
      rw [hinode (2 + k) (by omega)]
      exact hentry.size
    have hoff' : off ≤ (built files (2 + k)).size := by
      rw [hreads.1]
      exact hoff
    rw [readi_stored (F := built files) hstored htype hsize hoff' hn, hreads.get]

theorem buildable_of_main (hcount : files.length ≤ 198) (he : main files = some img) :
    Buildable files := by
  obtain ⟨s₀, h₀⟩ := blank_saved
  rw [main_eq] at he
  obtain ⟨m, hrun, he⟩ := Option.bind_eq_some_iff.1 he
  obtain ⟨m', hroot, he⟩ := Option.bind_eq_some_iff.1 he
  unfold fixRoot at hroot
  obtain ⟨din, -, hw⟩ := Option.bind_eq_some_iff.1 hroot
  have hblock := (winode_eq hw).1
  have hlt : m'.freeblock < 4096 := by
    unfold balloc at he
    split at he
    · assumption
    · cases he
  exact (small_iff hcount).1 (h₀.run_small (admits_main hcount) hrun (hblock ▸ hlt))

end Mounted

/-- `mkfs` and the kernel agree on the files exactly if the files are small enough for the
one level of indirect blocks of `iappend` and for the one bitmap block of `balloc`. -/
theorem mkfs_agrees (files : List SourceFile) (hcount : files.length ≤ 198) :
    (∃ img, main files = some img ∧ Agrees files img) ↔ Buildable files := by
  constructor
  · rintro ⟨img, he, -⟩
    exact buildable_of_main hcount he
  · exact agrees_of_buildable hcount

/-- A file of two pieces. -/
def twoPieces : SourceFile where
  name := [97]
  no_slash := by decide
  pieces := [[1, 2, 3], [4, 5]]

theorem mkfs_agrees_twoPieces : ∃ img, main [twoPieces] = some img ∧ Agrees [twoPieces] img := by
  apply (mkfs_agrees [twoPieces] (by decide)).2
  exact ⟨by decide, by decide⟩

/-- A file of one byte more than the direct and the indirect blocks hold. -/
def largeFile : SourceFile where
  name := [97]
  no_slash := by decide
  pieces := [List.replicate 71169 0]

/-- The file is admitted by `MAXFILE` and fits on the disk, but there is no image with it. -/
theorem largeFile_fails : largeFile.bytes.length ≤ maxfile * bsize ∧
    63 + cost (16 * 3) + (140 + 3) ≤ fssize ∧
    ¬∃ img, main [largeFile] = some img ∧ Agrees [largeFile] img := by
  have hlen : largeFile.bytes.length = 71169 := by
    rw [SourceFile.bytes, show largeFile.pieces = [List.replicate 71169 0] from rfl,
      List.flatten_singleton, List.length_replicate]
  refine ⟨by rw [hlen]; decide, by decide, ?_⟩
  rintro ⟨img, he, -⟩
  have hsmall := (buildable_of_main (by decide) he).1 largeFile List.mem_cons_self
  omega

end BigFile.MkFs
