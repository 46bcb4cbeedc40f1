import Coursework.BigFile.MkFs

/-! `itrunc`: it frees the direct blocks and the single-indirect tree of an inode. -/
namespace BigFile
open BlockTree

/-- The byte of `data[bi/8] &= ~m`. -/
def clearBit (d : ℕ → ℕ) (bi : ℕ) : ℕ → ℕ :=
  Function.update d (bi / 8) (d (bi / 8) &&& (255 ^^^ 1 <<< (bi % 8)))

/-- `readsb(dev, &sb)`. -/
def readsb (s : Fs) : Fs := { s with sb := MkFs.readsb s.disk }

/-- The state after `bfree` has cleared the bit of a block in use. -/
def release (s : Fs) (b : ℕ) : Fs :=
  (s.setBlock (s.bblock b) (clearBit (s.disk (s.bblock b)) (b % bpb))).logWrite (s.bblock b)

/-- `bfree`: freeing a free block is a panic. -/
def bfree (s : Fs) (b : ℕ) : Option Fs :=
  let s := readsb s
  if bitFree (s.disk (s.bblock b)) (b % bpb) then none else some (release s b)

/-- The first loop of `itrunc` after its first `n` rounds. -/
def truncDirect (s : Fs) (i : ℕ) : ℕ → Option Fs
  | 0 => some s
  | n + 1 => do
    let s ← truncDirect s i n
    if (s.inode i).addrs n ≠ 0 then do
      let s ← bfree s ((s.inode i).addrs n)
      some (s.setInode i ((s.inode i).setAddr n 0))
    else some s

/-- The loop over the entries of the index block `blk` after its first `n` rounds. -/
def truncEntries (s : Fs) (blk : ℕ) : ℕ → Option Fs
  | 0 => some s
  | n + 1 => do
    let s ← truncEntries s blk n
    if getWord (s.disk blk) n ≠ 0 then bfree s (getWord (s.disk blk) n) else some s

/-- The branch of `itrunc` for the single-indirect block. -/
def truncIndirect (s : Fs) (i : ℕ) : Option Fs :=
  if (s.inode i).addrs ndirect ≠ 0 then do
    let s ← truncEntries s ((s.inode i).addrs ndirect) nindirect
    let s ← bfree s ((s.inode i).addrs ndirect)
    some (s.setInode i ((s.inode i).setAddr ndirect 0))
  else some s

def itrunc (s : Fs) (i : ℕ) : Option Fs := do
  let s ← truncDirect s i ndirect
  let s ← truncIndirect s i
  some (iupdate (s.setInode i ((s.inode i).setSize 0)) i)

theorem testBit_clearBit (d : ℕ → ℕ) (bi bj : ℕ) :
    (clearBit d bi (bj / 8)).testBit (bj % 8) =
      (decide (bj ≠ bi) && (d (bj / 8)).testBit (bj % 8)) := by
  unfold clearBit
  by_cases hbyte : bj / 8 = bi / 8
  · have hmask : (255 ^^^ 1 <<< (bi % 8)).testBit (bj % 8) = decide (bj % 8 ≠ bi % 8) := by
      have h1 : bj % 8 < 8 := Nat.mod_lt _ (by decide)
      have h2 : bi % 8 < 8 := Nat.mod_lt _ (by decide)
      generalize bj % 8 = j at h1
      generalize bi % 8 = k at h2
      revert j k
      decide
    have e : (bj % 8 ≠ bi % 8) ↔ bj ≠ bi := by omega
    rw [hbyte, Function.update_self, Nat.testBit_and, hmask]
    simp only [e, Bool.and_comm]
  · have e : bj ≠ bi := fun e => hbyte (by rw [e])
    rw [Function.update_of_ne hbyte]
    simp [e]

/-- The superblock in memory is the one in block 1, which lies before the inodes. -/
structure Mounted (s : Fs) : Prop where
  loaded : MkFs.readsb s.disk = s.sb
  behind : 1 < s.sb.inodestart
  inodes : 0 < s.sb.ninodes

theorem Mounted.readsb {s : Fs} (h : Mounted s) : readsb s = s := by
  unfold BigFile.readsb
  rw [h.loaded]

theorem Mounted.congr {s s' : Fs} (h : Mounted s) (hsb : s'.sb = s.sb)
    (hdisk : s'.disk 1 = s.disk 1) : Mounted s' := by
  refine ⟨?_, by rw [hsb]; exact h.behind, by rw [hsb]; exact h.inodes⟩
  rw [hsb, ← h.loaded]
  unfold MkFs.readsb
  rw [hdisk]

theorem Mounted.lt_bmapstart {s : Fs} (h : Mounted s) (hl : Layout s) : 1 < s.sb.bmapstart := by
  have h1 := hl.inodes h.inodes
  have h2 := h.behind
  rw [Fs.iblock, Nat.zero_div] at h1
  omega

theorem used_release {s : Fs} {b : ℕ} (hb : b < s.sb.size) :
    (release s b).used = Function.update s.used b false := by
  funext c
  by_cases hc : c < s.sb.size
  · have hused : (release s b).used c =
        ((release s b).disk (s.bblock c) (c % bpb / 8)).testBit (c % bpb % 8) := if_pos hc
    have hdisk : (release s b).disk = Function.update s.disk (s.bblock b)
        (clearBit (s.disk (s.bblock b)) (b % bpb)) := rfl
    rw [hused, hdisk]
    by_cases hblk : s.bblock c = s.bblock b
    · rw [hblk, Function.update_self, testBit_clearBit]
      have e : (c % bpb = b % bpb) ↔ c = b := by
        have hq : c / bpb = b / bpb := by
          unfold Fs.bblock at hblk
          omega
        constructor
        · intro hm
          rw [← Nat.div_add_mod c bpb, ← Nat.div_add_mod b bpb, hq, hm]
        · rintro rfl
          rfl
      by_cases hcb : c = b
      · simp [hcb]
      · rw [Function.update_of_ne hcb, Fs.used, if_pos hc, hblk]
        simp [e, hcb]
    · have hcb : c ≠ b := fun e => hblk (by rw [e])
      rw [Function.update_of_ne hblk, Function.update_of_ne hcb, Fs.used, if_pos hc]
  · have hcb : c ≠ b := by omega
    have hle : s.sb.size ≤ c := by omega
    rw [Function.update_of_ne hcb, used_of_le hle]
    exact if_neg hc

section Freeing
variable {s s' : Fs} {i n : ℕ} {T : Finset Slot} {τ : Slot}

/-- The blocks that slots of an inode name. -/
def named (s : Fs) (i : ℕ) (T : Finset Slot) : Finset ℕ :=
  (T.image fun τ => s.ptr (i, τ)).erase 0

theorem mem_named {b : ℕ} : b ∈ named s i T ↔ b ≠ 0 ∧ ∃ τ ∈ T, s.ptr (i, τ) = b := by
  simp [named]

/-- The blocks that the slots `T` of an inode name have been freed, each once; apart from the
bitmap the disk is as it was. -/
structure Freed (s : Fs) (i : ℕ) (T : Finset Slot) (s' : Fs) : Prop where
  sb : s'.sb = s.sb
  used : ∀ b, s'.used b = (s.used b && decide (b ∉ named s i T))
  disk : ∀ c, (∀ b < s.sb.size, c ≠ s.bblock b) → s'.disk c = s.disk c

theorem Freed.refl (s : Fs) (i : ℕ) : Freed s i ∅ s :=
  ⟨rfl, fun b => by simp [named], fun _ _ => rfl⟩

theorem Freed.skip (h : Freed s i T s') (h0 : s.ptr (i, τ) = 0) : Freed s i (insert τ T) s' := by
  have hnamed : named s i (insert τ T) = named s i T := by
    rw [named, Finset.image_insert, h0]
    simp [named]
  refine ⟨h.sb, fun b => ?_, h.disk⟩
  rw [hnamed]
  exact h.used b

theorem Freed.congr {s'' : Fs} (h : Freed s i T s') (hsb : s''.sb = s'.sb)
    (hdisk : s''.disk = s'.disk) : Freed s i T s'' := by
  refine ⟨hsb.trans h.sb, fun b => ?_, fun c hc => ?_⟩
  · rw [← h.used]
    exact congrFun (used_congr hsb fun c _ => by rw [hdisk]) b
  · rw [hdisk]
    exact h.disk c hc

variable (hs : WellFormed s) (hm : Mounted s)
include hs hm

theorem Freed.mounted (h : Freed s i T s') : Mounted s' := by
  refine hm.congr h.sb (h.disk 1 fun b _ => ?_)
  have h1 := hm.lt_bmapstart hs.layout
  have h2 : s.sb.bmapstart ≤ s.bblock b := Nat.le_add_left _ _
  omega

/-- A slot whose block is not freed yet: `bfree` does not panic. -/
theorem Freed.bfree (h : Freed s i T s') (h0 : s.ptr (i, τ) ≠ 0) (hτ : τ ∉ T) :
    ∃ s'', bfree s' (s.ptr (i, τ)) = some s'' ∧ Freed s i (insert τ T) s'' ∧
      s''.inode = s'.inode := by
  have hlt := (hs.owned.range h0).2
  have hfresh : s.ptr (i, τ) ∉ named s i T := by
    intro hmem
    obtain ⟨-, τ', hτ', he⟩ := mem_named.1 hmem
    have hv := hs.owned.inj (by rwa [he]) he
    rw [Prod.mk.injEq] at hv
    exact hτ (hv.2 ▸ hτ')
  have hused : s'.used (s.ptr (i, τ)) = true := by
    rw [h.used, hs.owned.marked h0]
    simp [hfresh]
  have hsz : s.ptr (i, τ) < s'.sb.size := by rwa [h.sb]
  have hbit : ¬bitFree (s'.disk (s'.bblock (s.ptr (i, τ)))) (s.ptr (i, τ) % bpb) := by
    rw [bitFree_iff]
    rw [Fs.used, if_pos hsz] at hused
    rw [hused]
    exact Bool.noConfusion
  refine ⟨release s' (s.ptr (i, τ)), ?_, ⟨h.sb, fun b => ?_, fun c hc => ?_⟩, rfl⟩
  · unfold BigFile.bfree
    rw [(h.mounted hs hm).readsb]
    exact if_neg hbit
  · have hnamed : named s i (insert τ T) = insert (s.ptr (i, τ)) (named s i T) := by
      rw [named, Finset.image_insert, Finset.erase_insert_of_ne h0]
      rfl
    rw [used_release hsz, hnamed]
    by_cases hb : b = s.ptr (i, τ)
    · subst hb
      simp
    · rw [Function.update_of_ne hb, h.used]
      simp [hb]
  · have hne : c ≠ s'.bblock (s.ptr (i, τ)) := by
      rw [Fs.bblock, h.sb]
      exact hc _ hlt
    rw [← h.disk c hc]
    exact Function.update_of_ne hne _ _

end Freeing

section Loops
variable {s s' : Fs} {i : ℕ}

/-- The slots of the first file blocks. -/
def dataSlots (n : ℕ) : Finset Slot := (Finset.range n).image Slot.data

theorem dataSlots_succ (n : ℕ) : dataSlots (n + 1) = insert (.data n) (dataSlots n) := by
  rw [dataSlots, Finset.range_add_one, Finset.image_insert]
  rfl

theorem data_notMem_dataSlots {n bn : ℕ} (h : n ≤ bn) : Slot.data bn ∉ dataSlots n := by
  simp [dataSlots, h]

theorem ind_notMem_dataSlots (n : ℕ) : Slot.ind ∉ dataSlots n := by simp [dataSlots]

/-- The inode without its first `n` addresses. -/
def Inode.dropAddrs (ip : Inode) (n : ℕ) : Inode :=
  { ip with addrs := fun k => if k < n then 0 else ip.addrs k }

theorem dropAddrs_succ (ip : Inode) (n : ℕ) :
    (ip.dropAddrs n).setAddr n 0 = ip.dropAddrs (n + 1) := by
  have haddrs : ((ip.dropAddrs n).setAddr n 0).addrs = (ip.dropAddrs (n + 1)).addrs := by
    funext k
    simp only [Inode.setAddr, Inode.dropAddrs, Function.update_apply]
    split_ifs
    all_goals first | rfl | omega
  exact congrArg (fun a => { ip with addrs := a }) haddrs

theorem dropAddrs_of_eq {ip : Inode} {n : ℕ} (h : ip.addrs n = 0) :
    ip.dropAddrs (n + 1) = ip.dropAddrs n := by
  have haddrs : (ip.dropAddrs (n + 1)).addrs = (ip.dropAddrs n).addrs := by
    funext k
    simp only [Inode.dropAddrs]
    by_cases hk : k = n
    · simp [hk, h]
    · exact if_congr (by omega) rfl rfl
  exact congrArg (fun a => { ip with addrs := a }) haddrs

/-- The slots whose blocks have been freed, and what is left of the addresses. -/
structure Cut (s : Fs) (i n : ℕ) (T : Finset Slot) (s' : Fs) : Prop extends Freed s i T s' where
  inode : s'.inode = Function.update s.inode i ((s.inode i).dropAddrs n)

variable (hs : WellFormed s) (hm : Mounted s)
include hs hm

theorem truncDirect_cut (n : ℕ) (hn : n ≤ 11) :
    ∃ s', truncDirect s i n = some s' ∧ Cut s i n (dataSlots n) s' := by
  induction n with
  | zero =>
    refine ⟨s, rfl, Freed.refl s i, ?_⟩
    have hip : (s.inode i).dropAddrs 0 = s.inode i := rfl
    rw [hip, Function.update_eq_self]
  | succ n ih =>
    obtain ⟨s', hs', hcut⟩ := ih (by omega)
    have hip : s'.inode i = (s.inode i).dropAddrs n := by rw [hcut.inode, Function.update_self]
    have haddr : (s'.inode i).addrs n = s.ptr (i, .data n) := by
      rw [hip, ptr_of_root s (show (Slot.data n).Root from hn)]
      simp [Inode.dropAddrs, Slot.idx, show n < 11 by omega]
    rw [truncDirect, hs', Option.bind_eq_bind, Option.bind_some, dataSlots_succ, haddr]
    by_cases h0 : s.ptr (i, .data n) = 0
    · refine ⟨s', if_neg (not_not.mpr h0), hcut.toFreed.skip h0, ?_⟩
      have hdrop : (s.inode i).addrs n = 0 := by
        rw [← h0, ptr_of_root s (show (Slot.data n).Root from hn)]
        simp [Slot.idx, show n < 11 by omega]
      rw [hcut.inode, dropAddrs_of_eq hdrop]
    · obtain ⟨s'', hfree, hfreed, hinode⟩ :=
        hcut.toFreed.bfree hs hm h0 (data_notMem_dataSlots le_rfl)
      rw [if_pos h0, hfree, Option.bind_some]
      refine ⟨_, rfl, hfreed.congr rfl rfl, ?_⟩
      change Function.update s''.inode i ((s''.inode i).setAddr n 0) = _
      rw [hinode, hip, hcut.inode, Function.update_idem, dropAddrs_succ]

theorem truncEntries_cut {blk : ℕ} (hblk : s.ptr (i, .ind) = blk) (h0 : blk ≠ 0)
    (hcut : Cut s i 11 (dataSlots 11) s') (n : ℕ) (hn : n ≤ 128) :
    ∃ s'', truncEntries s' blk n = some s'' ∧ Cut s i 11 (dataSlots (11 + n)) s'' := by
  subst hblk
  have hbit : ∀ b < s.sb.size, s.ptr (i, .ind) ≠ s.bblock b :=
    fun b hb => (hs.bblock_ne_ptr h0 hb).symm
  induction n with
  | zero => exact ⟨s', rfl, hcut⟩
  | succ n ih =>
    obtain ⟨s'', hs'', hcut'⟩ := ih (by omega)
    have hparent : (Slot.data (11 + n)).parent = some .ind := by
      rw [Slot.parent_data, if_neg (by omega), if_pos (by omega)]
    have hword : getWord (s''.disk (s.ptr (i, .ind))) n = s.ptr (i, .data (11 + n)) := by
      rw [hcut'.disk _ hbit, ptr_of_parent s hparent, Fs.entry, if_neg h0]
      congr 1
      simp only [Slot.idx]
      rw [if_neg (by omega), if_pos (by omega), Nat.add_sub_cancel_left]
    rw [truncEntries, hs'', Option.bind_eq_bind, Option.bind_some, hword, ← Nat.add_assoc,
      dataSlots_succ]
    by_cases hz : s.ptr (i, .data (11 + n)) = 0
    · exact ⟨s'', if_neg (not_not.mpr hz), hcut'.toFreed.skip hz, hcut'.inode⟩
    · obtain ⟨s₁, hfree, hfreed, hinode⟩ :=
        hcut'.toFreed.bfree hs hm hz (data_notMem_dataSlots le_rfl)
      rw [if_pos hz]
      exact ⟨s₁, hfree, hfreed, hinode.trans hcut'.inode⟩

/-- The state before the end of `itrunc`. -/
theorem truncTree_cut : ∃ s' s'', truncDirect s i ndirect = some s' ∧
    truncIndirect s' i = some s'' ∧ Cut s i 12 (insert .ind (dataSlots 139)) s'' := by
  obtain ⟨s', hs', hcut⟩ := truncDirect_cut (i := i) hs hm 11 le_rfl
  have hip : s'.inode i = (s.inode i).dropAddrs 11 := by rw [hcut.inode, Function.update_self]
  have haddr : (s'.inode i).addrs ndirect = s.ptr (i, .ind) := by rw [hip]; rfl
  unfold truncIndirect
  by_cases h0 : s.ptr (i, .ind) = 0
  · -- without an index block the entries name nothing
    have hnone : ∀ n ≤ 128, Freed s i (dataSlots (11 + n)) s' := by
      intro n hn
      induction n with
      | zero => exact hcut.toFreed
      | succ n ih =>
        rw [← Nat.add_assoc, dataSlots_succ]
        refine (ih (by omega)).skip ?_
        by_contra hne
        refine ptr_parent_ne ?_ hne h0
        rw [Slot.parent_data, if_neg (by omega), if_pos (by omega)]
    refine ⟨s', s', hs', if_neg (not_not.mpr (haddr.trans h0)), (hnone 128 le_rfl).skip h0, ?_⟩
    rw [hcut.inode, dropAddrs_of_eq (show (s.inode i).addrs 11 = 0 from h0)]
  · obtain ⟨s₁, hs₁, hcut₁⟩ := truncEntries_cut hs hm rfl h0 hcut 128 le_rfl
    obtain ⟨s₂, hfree, hfreed, hinode⟩ :=
      hcut₁.toFreed.bfree hs hm h0 (ind_notMem_dataSlots 139)
    have haddr₁ : (s₁.inode i).addrs ndirect = s.ptr (i, .ind) := by
      rw [hcut₁.inode, Function.update_self]
      rfl
    refine ⟨s', s₂.setInode i ((s₂.inode i).setAddr ndirect 0), hs', ?_, hfreed.congr rfl rfl, ?_⟩
    · rw [haddr, if_pos h0]
      change (truncEntries s' (s.ptr (i, .ind)) 128).bind _ = _
      rw [hs₁, Option.bind_some, haddr₁, hfree]
      rfl
    · have hip₂ : s₂.inode i = (s.inode i).dropAddrs 11 := by
        rw [hinode, hcut₁.inode, Function.update_self]
      change Function.update s₂.inode i ((s₂.inode i).setAddr ndirect 0) = _
      rw [hip₂, hinode, hcut₁.inode, Function.update_idem]
      exact congrArg _ (dropAddrs_succ (s.inode i) 11)

end Loops

/-- The blocks of the block tree of an inode. -/
def tree (s : Fs) (i : ℕ) : Set ℕ := {b | b ≠ 0 ∧ ∃ τ, s.ptr (i, τ) = b}

/-- What `itrunc` is to do: the tree is free, nothing else changes in the bitmap, and the inode
names no block. -/
structure Truncated (s s' : Fs) (i : ℕ) : Prop where
  freed : ∀ b ∈ tree s i, s'.used b = false
  outside : ∀ b ∉ tree s i, s'.used b = s.used b
  addrs : ∀ k < 13, (s'.inode i).addrs k = 0
  size : (s'.inode i).size = 0

/-- `itrunc` returns and truncates the inode. -/
def Truncates (s : Fs) (i : ℕ) : Prop := ∃ s', itrunc s i = some s' ∧ Truncated s s' i

section Truncating
variable {s : Fs} {i : ℕ} (hs : WellFormed s) (hm : Mounted s)
include hs hm

/-- `itrunc` never panics; it frees the direct blocks and the single-indirect tree. -/
theorem itrunc_freed (hi : i < s.sb.ninodes) : ∃ s', itrunc s i = some s' ∧
    (∀ b, s'.used b = (s.used b && decide (b ∉ named s i (insert .ind (dataSlots 139))))) ∧
    s'.inode i = ((s.inode i).dropAddrs 12).setSize 0 := by
  obtain ⟨s₁, s₂, h₁, h₂, hcut⟩ := truncTree_cut (i := i) hs hm
  have hip : s₂.inode i = (s.inode i).dropAddrs 12 := by rw [hcut.inode, Function.update_self]
  refine ⟨iupdate (s₂.setInode i ((s₂.inode i).setSize 0)) i, ?_, fun b => ?_, ?_⟩
  · rw [itrunc, h₁, Option.bind_eq_bind, Option.bind_some, h₂]
    rfl
  · rw [← hcut.used]
    apply congrFun
    refine used_congr (by rfl) ?_
    intro c hc
    refine Function.update_of_ne ?_ _ _
    -- the inode blocks lie before the bitmap
    have h1 := hs.layout.inodes hi
    have h2 : s.sb.bmapstart ≤ s₂.bblock c := by
      rw [Fs.bblock, hcut.sb]
      exact Nat.le_add_left _ _
    have h3 : (s₂.setInode i ((s₂.inode i).setSize 0)).iblock i = s.iblock i := by
      change i / ipb + s₂.sb.inodestart = i / ipb + s.sb.inodestart
      rw [hcut.sb]
    omega
  · change Function.update s₂.inode i ((s₂.inode i).setSize 0) i = _
    rw [Function.update_self, hip]

omit hs hm in
/-- The tree of an inode without a double-indirect block. -/
theorem mem_tree_iff (h0 : (s.inode i).addrs 12 = 0) {b : ℕ} :
    b ∈ tree s i ↔ b ∈ named s i (insert .ind (dataSlots 139)) := by
  rw [mem_named]
  refine and_congr_right fun hb => ⟨?_, fun ⟨τ, _, he⟩ => ⟨τ, he⟩⟩
  rintro ⟨τ, rfl⟩
  have hdbl : s.ptr (i, .dbl) = 0 := h0
  have hdblE : ∀ e, s.ptr (i, .dblE e) = 0 := by
    intro e
    by_contra hne
    refine ptr_parent_ne (τ := .dblE e) (p := .dbl) ?_ hne hdbl
    rw [Slot.parent_dblE, if_pos]
    by_contra hge
    exact hne (if_neg hge)
  refine ⟨τ, ?_, rfl⟩
  cases τ with
  | data bn =>
    refine Finset.mem_insert_of_mem (Finset.mem_image_of_mem _ (Finset.mem_range.2 ?_))
    by_contra hge
    have hlt : bn < 16523 := by
      by_contra hout
      refine hb ?_
      simp only [Fs.ptr]
      rw [if_neg (by omega), if_neg hge, if_neg hout]
    exact ptr_parent_ne (Trace.dblE_parent hge hlt) hb (hdblE _)
  | ind => exact Finset.mem_insert_self _ _
  | dbl => exact absurd hdbl hb
  | dblE e => exact absurd (hdblE e) hb

/-- `itrunc` never looks at the double-indirect block. -/
theorem truncates_iff (hi : i < s.sb.ninodes) : Truncates s i ↔ (s.inode i).addrs 12 = 0 := by
  obtain ⟨s', hs', hused, hinode⟩ := itrunc_freed hs hm hi
  constructor
  · rintro ⟨t, ht, h⟩
    rw [hs', Option.some.injEq] at ht
    subst ht
    have h12 := h.addrs 12 (by decide)
    rw [hinode] at h12
    exact h12
  · intro h0
    refine ⟨s', hs', fun b hb => ?_, fun b hb => ?_, fun k hk => ?_, by rw [hinode]; rfl⟩
    · rw [mem_tree_iff h0] at hb
      simp [hused, hb]
    · rw [mem_tree_iff h0] at hb
      simp [hused, hb]
    · rw [hinode]
      change (if k < 12 then 0 else (s.inode i).addrs k) = 0
      by_cases hk' : k < 12
      · exact if_pos hk'
      · rw [if_neg hk', show k = 12 by omega, h0]

end Truncating

/-- `bmap` is a sequence of calls of `ensure`. -/
theorem bmap_induct {P : Fs → Prop} {s t : Fs} {i bn b : ℕ}
    (hstep : ∀ {s t τ a}, WellFormed s → P s → Ready s i τ → ensure s i τ = some (t, a) → P t)
    (hs : WellFormed s) (h : P s) (he : bmap s i bn = some (t, b)) : P t := by
  have hbn : bn < 16523 := by
    by_contra hge
    rw [bmap_out_of_range s i (by omega)] at he
    cases he
  have hrefl := Trace.refl hs i
  rw [bmap_eq s i hbn] at he
  by_cases h1 : bn < 11
  · rw [if_pos h1] at he
    exact @hstep _ _ (.data bn) _ hs h (.inl h1) he
  · rw [if_neg h1] at he
    by_cases h2 : bn < 139
    · rw [if_pos h2] at he
      obtain ⟨⟨t₁, a₁⟩, he₁, he⟩ := Option.bind_eq_some_iff.1 he
      obtain ⟨ht₁, ha₁, hne₁⟩ := hrefl.ensure_step (.inl Slot.root_ind) he₁
      have hp := Trace.ind_parent h1 h2
      rw [bmapEntry_eq hp ha₁] at he
      exact hstep ht₁.wf (hstep hs h (.inl Slot.root_ind) he₁) (.inr ⟨_, hp, by rwa [ha₁]⟩) he
    · rw [if_neg h2] at he
      obtain ⟨⟨t₁, a₁⟩, he₁, he⟩ := Option.bind_eq_some_iff.1 he
      obtain ⟨ht₁, ha₁, hne₁⟩ := hrefl.ensure_step (.inl Slot.root_dbl) he₁
      obtain ⟨⟨t₂, a₂⟩, he₂, he⟩ := Option.bind_eq_some_iff.1 he
      have hp := Trace.dbl_parent hbn
      rw [bmapEntry_eq hp ha₁] at he₂
      have hr₂ : Ready t₁ i (.dblE ((bn - 139) / 128)) := .inr ⟨_, hp, by rwa [ha₁]⟩
      obtain ⟨ht₂, ha₂, hne₂⟩ := ht₁.ensure_step hr₂ he₂
      have hp' := Trace.dblE_parent h2 hbn
      rw [bmapEntry_eq hp' ha₂] at he
      have h₁ := hstep hs h (.inl Slot.root_dbl) he₁
      exact hstep ht₂.wf (hstep ht₁.wf h₁ hr₂ he₂) (.inr ⟨_, hp', by rwa [ha₂]⟩) he

/-- A well-formed file system with this superblock on disk. -/
structure Sound (sb : Superblock) (s : Fs) : Prop where
  sb : s.sb = sb
  wf : WellFormed s
  mounted : Mounted s

section Running
variable {sb : Superblock} {s t : Fs} {i bn b fuel off n : ℕ} {src : ℕ → ℕ}

theorem Mounted.ensure {τ : Slot} {a : ℕ} (hs : WellFormed s) (h : Mounted s) (hr : Ready s i τ)
    (he : ensure s i τ = some (t, a)) : Mounted t := by
  by_cases h0 : s.ptr (i, τ) = 0
  · rw [ensure_of_eq hr h0, Option.map_eq_some_iff] at he
    obtain ⟨x, hx, he⟩ := he
    rw [Prod.mk.injEq] at he
    obtain ⟨rfl, rfl⟩ := he
    have hmem : x ∈ freeList s.used s.sb.size := List.mem_of_head? hx
    have h1 := h.lt_bmapstart hs.layout
    have h2 := hs.layout.bitmap (mem_freeList.1 hmem).1
    have h3 := hs.owned.lo_le_free hmem
    have h4 : s.sb.bmapstart ≤ s.bblock x := Nat.le_add_left _ _
    have hdisk : (allocate s x).disk 1 = s.disk 1 :=
      allocate_disk_of_ne s (by omega) (by omega)
    obtain hroot | ⟨p, hp, hp0⟩ := hr
    · have e : assign s i τ x =
          (allocate s x).setInode i (((allocate s x).inode i).setAddr τ.idx x) := by
        unfold assign
        rw [hroot.parent_eq]
      rw [e]
      exact h.congr rfl hdisk
    · have e : assign s i τ x = ((allocate s x).setBlock (s.ptr (i, p))
          (putWord ((allocate s x).disk (s.ptr (i, p))) τ.idx x)).logWrite (s.ptr (i, p)) := by
        unfold assign
        rw [hp]
      have h5 := (hs.owned.range hp0).1
      rw [e]
      exact h.congr rfl ((Function.update_of_ne (by omega) _ _).trans hdisk)
  · rw [ensure_of_ne hr h0, Option.some.injEq, Prod.mk.injEq] at he
    rwa [← he.1]

theorem Sound.bmap (h : Sound sb s) (he : bmap s i bn = some (t, b)) :
    Sound sb t ∧ t.ptr (i, .data bn) = b ∧ b ≠ 0 := by
  obtain ⟨ht, hptr⟩ := bmap_spec h.wf he
  refine ⟨⟨ht.sb.trans h.sb, ht.wf, ?_⟩, hptr⟩
  exact bmap_induct (fun hs hm hr he => hm.ensure hs hr he) h.wf h.mounted he

theorem Sound.putData (h : Sound sb s) (h0 : s.ptr (i, .data bn) ≠ 0) (d : ℕ → ℕ) :
    Sound sb (s.putData (s.ptr (i, .data bn)) d) := by
  refine ⟨h.sb, h.wf.putData h0 d, h.mounted.congr rfl (Function.update_of_ne ?_ _ _)⟩
  have h1 := h.mounted.lt_bmapstart h.wf.layout
  have hlt := (h.wf.owned.range h0).2
  have h2 := h.wf.layout.bitmap (show 0 < s.sb.size by omega)
  have h3 : s.sb.bmapstart ≤ s.bblock 0 := Nat.le_add_left _ _
  have h4 := (h.wf.owned.range h0).1
  omega

theorem Sound.readLoop {l : List ℕ} (h : Sound sb s)
    (he : readLoop fuel s i off n = some (t, l)) : Sound sb t := by
  induction fuel generalizing s off n l with
  | zero =>
    rw [BigFile.readLoop, Option.some.injEq, Prod.mk.injEq] at he
    rwa [← he.1]
  | succ fuel ih =>
    rw [BigFile.readLoop] at he
    by_cases h0 : n = 0
    · rw [if_pos h0, Option.some.injEq, Prod.mk.injEq] at he
      rwa [← he.1]
    · rw [if_neg h0] at he
      obtain ⟨⟨s₁, b⟩, hb, he⟩ := Option.bind_eq_some_iff.1 he
      obtain ⟨⟨s₂, rest⟩, hrest, he⟩ := Option.bind_eq_some_iff.1 he
      cases he
      exact ih (h.bmap hb).1 hrest

theorem Sound.writeLoop (h : Sound sb s) (he : writeLoop fuel s i src off n = some t) :
    Sound sb t := by
  induction fuel generalizing s src off n with
  | zero =>
    rw [BigFile.writeLoop, Option.some.injEq] at he
    rwa [← he]
  | succ fuel ih =>
    rw [BigFile.writeLoop] at he
    by_cases h0 : n = 0
    · rw [if_pos h0, Option.some.injEq] at he
      rwa [← he]
    · rw [if_neg h0] at he
      obtain ⟨⟨s₁, b⟩, hb, he⟩ := Option.bind_eq_some_iff.1 he
      obtain ⟨h₁, rfl, hne⟩ := h.bmap hb
      exact ih (h₁.putData hne _) he

theorem Sound.growSize (h : Sound sb s) (hi : i < sb.ninodes) (off n : ℕ) :
    Sound sb (growSize s i off n) := by
  unfold BigFile.growSize
  by_cases hgrow : 0 < n ∧ (s.inode i).size < off
  · rw [if_pos hgrow]
    refine ⟨h.sb, (iupdate_grown h.wf (by rwa [h.sb]) off).wf, ?_⟩
    refine h.mounted.congr rfl (Function.update_of_ne ?_ _ _)
    have h1 := h.mounted.behind
    have h2 : s.sb.inodestart ≤ s.iblock i := Nat.le_add_left _ _
    change 1 ≠ s.iblock i
    omega
  · rwa [if_neg hgrow]

theorem Sound.readi {r : ℤ × List ℕ} (h : Sound sb s) (he : readi s i off n = some (t, r)) :
    Sound sb t := by
  unfold BigFile.readi at he
  dsimp only at he
  by_cases hdev : (s.inode i).type = tDev
  · rw [if_pos hdev, Option.some.injEq] at he
    unfold devRead at he
    split at he
    · cases he
      exact h
    · cases he
      exact ⟨h.sb, ⟨h.wf.layout.congr rfl, h.wf.owned⟩, h.mounted.congr rfl rfl⟩
  · rw [if_neg hdev] at he
    by_cases hout : (s.inode i).size < off ∨ uadd off n < off
    · rw [if_pos hout] at he
      cases he
      exact h
    · rw [if_neg hout] at he
      obtain ⟨⟨s₁, l⟩, hloop, he⟩ := Option.bind_eq_some_iff.1 he
      cases he
      exact h.readLoop hloop

theorem Sound.writei {r : ℤ} (h : Sound sb s) (hi : i < sb.ninodes)
    (he : writei s i src off n = some (t, r)) : Sound sb t := by
  unfold BigFile.writei at he
  dsimp only at he
  by_cases hdev : (s.inode i).type = tDev
  · rw [if_pos hdev] at he
    cases he
    exact h
  · rw [if_neg hdev] at he
    by_cases hout : (s.inode i).size < off ∨ uadd off n < off
    · rw [if_pos hout] at he
      cases he
      exact h
    · rw [if_neg hout] at he
      by_cases hmax : maxfile * bsize < uadd off n
      · rw [if_pos hmax] at he
        cases he
        exact h
      · rw [if_neg hmax] at he
        obtain ⟨s₁, hloop, he⟩ := Option.bind_eq_some_iff.1 he
        cases he
        exact (h.writeLoop hloop).growSize hi _ _

theorem Sound.exec {op : Op} {r : ℤ × List ℕ} (h : Sound sb s) (hi : op.inum < sb.ninodes)
    (he : exec s op = some (t, r)) : Sound sb t := by
  cases op with
  | read i off n => exact h.readi he
  | write i off n src =>
    obtain ⟨⟨s₁, r₁⟩, hw, he⟩ := Option.map_eq_some_iff.1 he
    cases he
    exact h.writei hi hw

theorem Sound.execAll {ops : List Op} {rs : List (ℤ × List ℕ)} (h : Sound sb s)
    (hops : ∀ op ∈ ops, op.inum < sb.ninodes) (he : execAll s ops = some (t, rs)) :
    Sound sb t := by
  induction ops generalizing s rs with
  | nil =>
    cases he
    exact h
  | cons op ops ih =>
    obtain ⟨⟨s₁, r⟩, h₁, he⟩ := Option.bind_eq_some_iff.1 he
    obtain ⟨⟨s₂, rs'⟩, h₂, he⟩ := Option.bind_eq_some_iff.1 he
    cases he
    exact ih (h.exec (hops op List.mem_cons_self) h₁)
      (fun o ho => hops o (List.mem_cons_of_mem _ ho)) h₂

end Running

/-- After any sequence of reads and writes, `itrunc` truncates an inode exactly if it has no
double-indirect block. -/
theorem itrunc_truncates_iff {s₀ s : Fs} {ops : List Op} {rs : List (ℤ × List ℕ)} {i : ℕ}
    (hs : WellFormed s₀) (hm : Mounted s₀) (hops : ∀ op ∈ ops, op.inum < s₀.sb.ninodes)
    (hrun : execAll s₀ ops = some (s, rs)) (hi : i < s₀.sb.ninodes) :
    Truncates s i ↔ (s.inode i).addrs 12 = 0 := by
  have h : Sound s₀.sb s := Sound.execAll ⟨rfl, hs, hm⟩ hops hrun
  exact truncates_iff h.wf h.mounted (by rwa [h.sb])

/-- The empty disk with its superblock. -/
def formatted : Fs := emptyDisk.setBlock 1 (MkFs.bytesOf MkFs.superblock)

theorem formatted_ptr (v : Node) : formatted.ptr v = 0 := ptr_of_addrs (fun _ => rfl) v.2

theorem formatted_wellFormed : WellFormed formatted := by
  have hused : formatted.used = emptyDisk.used := by
    refine used_setBlock _ fun b _ => ?_
    have h : 58 ≤ emptyDisk.bblock b := Nat.le_add_left _ _
    omega
  have hptr : formatted.ptr = emptyDisk.ptr := by
    funext v
    rw [formatted_ptr, emptyDisk_ptr]
  refine ⟨emptyDisk_wellFormed.layout.congr rfl, ?_⟩
  rw [hused, hptr]
  exact emptyDisk_wellFormed.owned

theorem formatted_mounted : Mounted formatted := by
  refine ⟨?_, by decide, by decide⟩
  have hdisk : formatted.disk 1 = MkFs.bytesOf MkFs.superblock := by
    change Function.update emptyDisk.disk 1 (MkFs.bytesOf MkFs.superblock) 1 = _
    rw [Function.update_self]
  unfold MkFs.readsb
  rw [hdisk]
  simp only [MkFs.getWord_bytesOf]
  rfl

theorem formatted_free : 143 ≤ formatted.freeBlocks.length := by
  have hfree : ∀ b < 206, 63 ≤ b → formatted.used b = false := by decide +kernel
  have hsub : List.range' 63 143 ⊆ formatted.freeBlocks := by
    intro b hb
    rw [List.mem_range'_1] at hb
    have hsize : formatted.sb.size = 20000 := rfl
    exact mem_freeList.2 ⟨by omega, hfree b (by omega) hb.1⟩
  have hle := (List.subperm_of_subset List.nodup_range' hsub).length_le
  rwa [List.length_range'] at hle

/-- Inode 1 has been filled up to byte `e`: the paths to its blocks are filled, and only they have
taken blocks. -/
structure FilledTo (e : ℕ) (s : Fs) : Prop where
  wf : WellFormed s
  sb : s.sb = formatted.sb
  type : (s.inode 1).type ≠ tDev
  size : (s.inode 1).size = e
  ptr : ∀ τ, s.ptr (1, τ) ≠ 0 ↔ ∃ bn ∈ touched 0 e, τ ∈ path bn
  free : formatted.freeBlocks.length ≤
    s.freeBlocks.length + (missing formatted 1 (touched 0 e)).card

theorem filled_formatted : FilledTo 0 formatted where
  wf := formatted_wellFormed
  sb := rfl
  type := by decide
  size := rfl
  ptr τ := iff_of_false (not_not.2 (formatted_ptr _)) fun ⟨_, hbn, _⟩ => (mem_touched.1 hbn).1.false
  free := Nat.le_add_right _ _

theorem mem_missing_formatted {B : Finset ℕ} {τ : Slot} :
    τ ∈ missing formatted 1 B ↔ ∃ bn ∈ B, τ ∈ path bn := by
  rw [mem_missing, and_iff_left (formatted_ptr _)]

/-- The blocks that are missing up to byte `e + n` are those up to byte `e` and those that a write
there takes. -/
theorem FilledTo.missing_add {e n : ℕ} {s : Fs} (h : FilledTo e s) (h0 : 0 < n) :
    missing formatted 1 (touched 0 (e + n)) =
        missing formatted 1 (touched 0 e) ∪ missing s 1 (touched e n) ∧
      Disjoint (missing formatted 1 (touched 0 e)) (missing s 1 (touched e n)) := by
  have htouched : ∀ bn, bn ∈ touched 0 (e + n) ↔ bn ∈ touched 0 e ∨ bn ∈ touched e n := by
    intro bn
    simp only [mem_touched]
    omega
  constructor
  · ext τ
    rw [Finset.mem_union, mem_missing_formatted, mem_missing_formatted, mem_missing, ← h.ptr]
    simp only [htouched, or_and_right, exists_or]
    rw [← h.ptr]
    tauto
  · refine Finset.disjoint_left.2 fun τ hτ hτ' => ?_
    exact (h.ptr τ).2 (mem_missing_formatted.1 hτ) (mem_missing.1 hτ').2

/-- A write at the end of the file, within the first 140 blocks. -/
theorem FilledTo.write {e n : ℕ} {s : Fs} (h : FilledTo e s) (h0 : 0 < n) (hn : e + n ≤ 71680)
    (src : ℕ → ℕ) : ∃ t, exec s (.write 1 e n src) = some (t, (n : ℤ), []) ∧
      FilledTo (e + n) t := by
  obtain ⟨hunion, hdisj⟩ := h.missing_add h0
  have hcard := congrArg Finset.card hunion
  rw [Finset.card_union_of_disjoint hdisj] at hcard
  have hall : (missing formatted 1 (touched 0 (e + n))).card ≤ 143 := by
    have hsub : touched 0 (e + n) ⊆ Finset.range 140 := by
      intro bn hbn
      have := mem_touched.1 hbn
      rw [Finset.mem_range]
      omega
    have hneed : need 140 = 143 := by decide
    rw [← hneed]
    exact (Finset.card_le_card (missing_mono hsub)).trans (card_missing_le formatted 1 140)
  have hfree := h.free
  have hblocks := formatted_free
  have hrefl := Trace.refl h.wf 1
  obtain ⟨t, ht⟩ : ∃ t, writeLoop n s 1 src e n = some t :=
    hrefl.writeLoop_exists le_rfl (by omega) (by rw [Finset.empty_union]; omega)
  have htr := hrefl.writeLoop le_rfl (by omega) ht
  rw [Finset.empty_union, Finset.empty_union] at htr
  have hsize : (t.inode 1).size = e := (htr.size 1).trans h.size
  have hsb : t.sb = formatted.sb := htr.sb.trans h.sb
  have hg := iupdate_grown htr.wf (i := 1) (by rw [hsb]; decide) (e + n)
  have hgrow : growSize t 1 (e + n) n = iupdate (t.setInode 1 ((t.inode 1).setSize (e + n))) 1 := by
    rw [growSize, if_pos (by omega)]
  refine ⟨growSize t 1 (e + n) n, ?_, ?_⟩
  · change (writei s 1 src e n).map _ = _
    rw [writei_eq h.type h.size.ge (by omega), ht]
    rfl
  · rw [hgrow]
    refine ⟨hg.wf, hg.sb.trans hsb, ?_, hg.size_self, fun τ => ?_, ?_⟩
    · rw [hg.type, htr.type]
      exact h.type
    · rw [hg.ptr, ← mem_missing_formatted, hunion, Finset.mem_union, mem_missing_formatted, ← h.ptr]
      constructor
      · intro hne
        by_cases hs : s.ptr (1, τ) = 0
        · exact .inr (htr.mem_of_filled hs hne)
        · exact .inl hs
      · rintro (hs | hτ)
        · by_cases hτ : τ ∈ missing s 1 (touched e n)
          · exact htr.now hτ
          · have hsame : t.ptr (1, τ) = s.ptr (1, τ) := htr.same fun τ' hτ' he => by
              obtain rfl := (Prod.mk.inj he).2
              exact hτ hτ'
            rwa [hsame]
        · exact htr.now hτ
    · rw [hg.free, htr.free, List.length_drop, hcard]
      omega

/-- Writes of so many bytes, one after another. -/
def appends (e : ℕ) : List ℕ → List Op
  | [] => []
  | n :: ns => .write 1 e n (fun k => k % 256) :: appends (e + n) ns

theorem inum_appends {e : ℕ} {ns : List ℕ} :
    ∀ op ∈ appends e ns, op.inum < formatted.sb.ninodes := by
  induction ns generalizing e with
  | nil => exact fun op hop => absurd hop List.not_mem_nil
  | cons n ns ih =>
    intro op hop
    rcases List.mem_cons.1 hop with rfl | hop
    · exact (by decide : 1 < formatted.sb.ninodes)
    · exact ih op hop

theorem FilledTo.appends {e : ℕ} {s : Fs} {ns : List ℕ} (h : FilledTo e s) (hpos : ∀ n ∈ ns, 0 < n)
    (hn : e + ns.sum ≤ 71680) :
    ∃ t rs, execAll s (BigFile.appends e ns) = some (t, rs) ∧ FilledTo (e + ns.sum) t := by
  induction ns generalizing e s with
  | nil => exact ⟨s, [], rfl, h⟩
  | cons n ns ih =>
    rw [List.sum_cons, ← Nat.add_assoc] at hn ⊢
    obtain ⟨t, ht, hfilled⟩ :=
      h.write (hpos n List.mem_cons_self) (by omega) fun k => k % 256
    obtain ⟨u, rs, hu, hfilled'⟩ := ih hfilled (fun k hk => hpos k (List.mem_cons_of_mem n hk)) hn
    refine ⟨u, ((n : ℤ), []) :: rs, ?_, hfilled'⟩
    rw [BigFile.appends, execAll, ht, Option.bind_eq_bind, Option.bind_some]
    dsimp only
    rw [hu]
    rfl

/-- A file of two blocks is truncated. -/
theorem itrunc_truncates_twoBlocks : ∃ s rs,
    execAll formatted (appends 0 [600]) = some (s, rs) ∧ Truncates s 1 := by
  obtain ⟨s, rs, hs, hfilled⟩ :=
    @FilledTo.appends 0 formatted [600] filled_formatted (by decide) (by decide)
  refine ⟨s, rs, hs, (itrunc_truncates_iff formatted_wellFormed formatted_mounted inum_appends hs
    (by decide)).2 ?_⟩
  by_contra hne
  obtain ⟨bn, hbn, hp⟩ := (hfilled.ptr .dbl).1 hne
  have hlt := mem_touched.1 hbn
  simp only [List.sum_cons, List.sum_nil] at hlt
  rw [path, if_pos (by omega)] at hp
  simp at hp

/-- Writes of 1536 bytes, as `filewrite` makes them, and one that ends with the first byte of the
double-indirect region. -/
def pastIndirect : List ℕ := List.replicate 46 1536 ++ [513]

/-- The first byte of the double-indirect region is enough for blocks to be left behind. -/
theorem itrunc_leaks : ¬ ∀ s₀ s ops rs i, WellFormed s₀ → Mounted s₀ →
    (∀ op ∈ ops, op.inum < s₀.sb.ninodes) → execAll s₀ ops = some (s, rs) →
    i < s₀.sb.ninodes → Truncates s i := by
  intro h
  obtain ⟨s, rs, hs, hfilled⟩ :=
    @FilledTo.appends 0 formatted pastIndirect filled_formatted (by decide) (by decide)
  have htr := h _ _ _ _ 1 formatted_wellFormed formatted_mounted inum_appends hs (by decide)
  have hsound : Sound formatted.sb s :=
    Sound.execAll ⟨rfl, formatted_wellFormed, formatted_mounted⟩ inum_appends hs
  have h12 := (truncates_iff hsound.wf hsound.mounted (by rw [hsound.sb]; decide)).1 htr
  refine (hfilled.ptr .dbl).2 ⟨139, mem_touched.2 (by decide), ?_⟩ h12
  decide

end BigFile
