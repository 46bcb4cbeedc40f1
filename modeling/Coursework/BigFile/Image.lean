import Coursework.BigFile.MkFs

/-! The image under construction as a file system: the kernel's view of it, with the bitmap
that `mkfs` writes in the end. Taking the next block is then the kernel's allocation. -/
namespace BigFile.MkFs
open BlockTree

/-- What holds of every image: the superblock, and zeros where nothing has been written. -/
structure Clean (m : Img) : Prop where
  sb : m.disk 1 = bytesOf superblock
  zero : ∀ b, 58 < b → b < 63 ∨ m.freeblock ≤ b → m.disk b = fun _ => 0
  lo : 63 ≤ m.freeblock

theorem readsb_eq {m : Img} (h : Clean m) : readsb m.disk = mkfsSb := by
  unfold readsb
  rw [h.sb]
  simp only [getWord_bytesOf]
  rfl

/-- The image with inode `i` held in memory, as the kernel would see it after `balloc`. -/
structure View (m : Img) (i : ℕ) (din : Inode) (s : Fs) : Prop where
  sb : s.sb = mkfsSb
  disk : s.disk = Function.update m.disk 58 (bitmap m.freeblock)
  inode : s.inode = Function.update (inodesOf mkfsSb m.disk) i din

section Views
variable {m : Img} {i : ℕ} {din : Inode} {s : Fs}

theorem View.disk_of_ne (hv : View m i din s) {b : ℕ} (hb : b ≠ 58) : s.disk b = m.disk b := by
  rw [hv.disk, Function.update_of_ne hb]

theorem View.inode_self (hv : View m i din s) : s.inode i = din := by
  rw [hv.inode, Function.update_self]

theorem View.dataStart (hv : View m i din s) : s.dataStart = 63 := by
  rw [Fs.dataStart, hv.sb]
  rfl

theorem View.size (hv : View m i din s) : s.sb.size = 20000 := by
  rw [hv.sb]
  rfl

theorem View.used (hv : View m i din s) (hc : Clean m) (hi : m.freeblock ≤ 4096) {b : ℕ}
    (hb : b < 20000) : s.used b = decide (b < m.freeblock) := by
  have hblk : s.bblock b = b / 4096 + 58 := by
    rw [Fs.bblock, hv.sb]
    rfl
  rw [Fs.used, if_pos (by rwa [hv.size]), hblk, show bpb = 4096 from rfl]
  by_cases hlow : b < 4096
  · rw [hv.disk, show b / 4096 + 58 = 58 by omega, Function.update_self,
      Nat.mod_eq_of_lt hlow, testBit_bitmap]
  · rw [hv.disk_of_ne (by omega), hc.zero _ (by omega) (.inl (by omega))]
    have : ¬b < m.freeblock := by omega
    simp [this]

theorem View.free (hv : View m i din s) (hc : Clean m) (hi : m.freeblock < 4096) :
    s.freeBlocks = m.freeblock :: List.range' (m.freeblock + 1) (20000 - (m.freeblock + 1)) := by
  rw [← List.range'_succ, Fs.freeBlocks, hv.size]
  apply freeList_eq List.pairwise_lt_range'
  intro b
  rw [List.mem_range'_1]
  constructor
  · intro hb
    have hlt : b < 20000 := by omega
    refine ⟨hlt, ?_⟩
    rw [hv.used hc (by omega) hlt]
    simpa using hb.1
  · rintro ⟨hlt, hu⟩
    rw [hv.used hc (by omega) hlt] at hu
    have hge : m.freeblock ≤ b := by simpa using hu
    omega

theorem Clean.next (hc : Clean m) : Clean m.next := by
  refine ⟨hc.sb, fun b hb h => hc.zero b hb ?_, hc.lo.trans (Nat.le_succ _)⟩
  obtain h | h := h
  · exact .inl h
  · exact .inr ((Nat.le_succ _).trans h)

theorem Clean.wsect (hc : Clean m) {b : ℕ} (d : ℕ → ℕ)
    (hb : 2 ≤ b ∧ b < 58 ∨ 63 ≤ b ∧ b < m.freeblock) : Clean (m.wsect b d) := by
  refine ⟨?_, fun c hc' h => ?_, hc.lo⟩
  · rw [← hc.sb]
    exact Function.update_of_ne (by omega) _ _
  · have hne : c ≠ b := by
      change c < 63 ∨ m.freeblock ≤ c at h
      omega
    rw [← hc.zero c hc' h]
    exact Function.update_of_ne hne _ _

theorem inodesOf_wsect (m : Img) {b : ℕ} (hb : 58 ≤ b) (d : ℕ → ℕ) :
    inodesOf mkfsSb (m.wsect b d).disk = inodesOf mkfsSb m.disk := by
  funext j
  unfold inodesOf
  split
  · next hj =>
    have hlt : j / ipb + mkfsSb.inodestart ≠ b := by
      change j < 200 at hj
      change j / 8 + 32 ≠ b
      omega
    rw [show (m.wsect b d).disk (j / ipb + mkfsSb.inodestart) =
      m.disk (j / ipb + mkfsSb.inodestart) from Function.update_of_ne hlt _ _]
  · rfl

/-- The disk after the kernel has allocated the next block. -/
theorem View.allocate_disk (hv : View m i din s) (hc : Clean m) (hi : m.freeblock < 4096) :
    (allocate s m.freeblock).disk =
      Function.update m.next.disk 58 (bitmap m.next.freeblock) := by
  have hblk : s.bblock m.freeblock = 58 := by
    rw [Fs.bblock, hv.sb]
    change m.freeblock / 4096 + 58 = 58
    omega
  have hlo := hc.lo
  funext b
  by_cases hb : b = m.freeblock
  · rw [hb, allocate_disk_self, Function.update_of_ne (by omega)]
    exact (hc.zero m.freeblock (by omega) (.inr le_rfl)).symm
  · by_cases h58 : b = 58
    · rw [h58, Function.update_self]
      change Function.update (Function.update s.disk (s.bblock m.freeblock) _) m.freeblock _ 58 = _
      rw [Function.update_of_ne (by omega), hblk, Function.update_self, hv.disk,
        Function.update_self, show m.freeblock % bpb = m.freeblock from Nat.mod_eq_of_lt hi]
      exact (bitmap_succ m.freeblock).symm
    · rw [allocate_disk_of_ne s hb (by rwa [hblk]), hv.disk_of_ne h58,
        Function.update_of_ne h58]
      rfl

theorem View.root (hv : View m i din s) (hc : Clean m) (hi : m.freeblock < 4096) {τ : Slot}
    (hτ : τ.Root) :
    View m.next i (din.setAddr τ.idx m.freeblock) (assign s i τ m.freeblock) := by
  unfold assign
  rw [hτ.parent_eq]
  refine ⟨hv.sb, hv.allocate_disk hc hi, ?_⟩
  change Function.update s.inode i ((s.inode i).setAddr τ.idx m.freeblock) = _
  rw [hv.inode_self, hv.inode, Function.update_idem]
  rfl

theorem View.entry (hv : View m i din s) (hc : Clean m) (hi : m.freeblock < 4096) {τ p : Slot}
    (hp : τ.parent = some p) (hlo : 63 ≤ s.ptr (i, p)) :
    View (m.next.wsect (s.ptr (i, p)) (putWord (m.disk (s.ptr (i, p))) τ.idx m.freeblock)) i din
      (assign s i τ m.freeblock) := by
  unfold assign
  rw [hp]
  have halloc : (allocate s m.freeblock).disk (s.ptr (i, p)) = m.disk (s.ptr (i, p)) := by
    rw [hv.allocate_disk hc hi, Function.update_of_ne (by omega)]
    rfl
  refine ⟨hv.sb, ?_, ?_⟩
  · change Function.update (allocate s m.freeblock).disk (s.ptr (i, p)) _ = _
    rw [halloc, hv.allocate_disk hc hi, Function.update_comm (by omega)]
    rfl
  · change s.inode = _
    rw [inodesOf_wsect _ (by omega)]
    exact hv.inode

theorem View.store (hv : View m i din s) {b : ℕ} (hb : 63 ≤ b) (d : ℕ → ℕ) :
    View (m.wsect b d) i din (s.putData b d) := by
  refine ⟨hv.sb, ?_, ?_⟩
  · change Function.update s.disk b d = _
    rw [hv.disk, Function.update_comm (by omega)]
    rfl
  · change s.inode = _
    rw [inodesOf_wsect _ (by omega)]
    exact hv.inode

/-- Inode `i` is written back; then the image holds all inodes. -/
theorem View.winode (hv : View m i din s) (hc : Clean m) (hi : i < 200) (hd : Packed din) :
    ∃ m', winode m i din = some m' ∧ m'.freeblock = m.freeblock ∧
      m'.freeinode = m.freeinode ∧ Clean m' ∧ s.inode = inodesOf mkfsSb m'.disk ∧
      ∀ b, 58 ≤ b → m'.disk b = m.disk b := by
  have hblk : i / ipb + inodestart = i / 8 + 32 := rfl
  have hread : m.rsect (i / ipb + inodestart) = some (m.disk (i / ipb + inodestart)) := by
    apply if_pos
    change i / 8 + 32 < 20000
    omega
  refine ⟨m.wsect (i / ipb + inodestart) (putDinode (m.disk (i / ipb + inodestart)) (i % ipb) din),
    ?_, rfl, rfl, hc.wsect _ (.inl (by omega)), ?_, ?_⟩
  · unfold MkFs.winode
    rw [hread]
    rfl
  · rw [hv.inode]
    funext k
    unfold inodesOf
    by_cases hk : k < mkfsSb.ninodes
    · rw [if_pos hk]
      change k < 200 at hk
      change _ = dinodeAt (Function.update m.disk (i / 8 + 32) _ (k / 8 + 32)) (k % 8)
      by_cases hki : k = i
      · rw [hki, Function.update_self, Function.update_self]
        exact (dinodeAt_putDinode_self _ _ hd).symm
      · rw [Function.update_of_ne hki, if_pos (show k < mkfsSb.ninodes from hk)]
        by_cases hsame : k / 8 = i / 8
        · have hplace : k % 8 ≠ i % ipb := by
            change k % 8 ≠ i % 8
            omega
          rw [hsame, Function.update_self, dinodeAt_putDinode_of_ne _ _ hplace]
          change dinodeAt (m.disk (k / 8 + 32)) (k % 8) = _
          rw [hsame]
          rfl
        · rw [Function.update_of_ne (by omega)]
          rfl
    · have hki : k ≠ i := by
        change ¬k < 200 at hk
        omega
      rw [if_neg hk, Function.update_of_ne hki, if_neg hk]
  · intro b hb
    exact Function.update_of_ne (by omega) _ _

end Views

end BigFile.MkFs
