import Coursework.BigFile.Image

/-! `iappend` on an image: it fills the blocks of a file in order, each block of the file and
the indirect block once. -/
namespace BigFile.MkFs
open BlockTree

/-- The blocks that a file of `b` blocks takes. -/
def blockCost (b : ℕ) : ℕ := b + if 11 < b then 1 else 0

/-- The slots in use are those of the first blocks of each file. -/
structure Dense (s : Fs) (blocks : ℕ → ℕ) : Prop where
  data : ∀ i bn, s.ptr (i, .data bn) ≠ 0 ↔ bn < blocks i
  ind : ∀ i, s.ptr (i, .ind) ≠ 0 ↔ 11 < blocks i
  dbl : ∀ i, s.ptr (i, .dbl) = 0

/-- The disk inode of a file. -/
structure Entry (ip : Inode) (c : Contents) : Prop where
  packed : Packed ip
  type : ip.type ≠ tDev
  size : ip.size = c.size

/-- An image under construction with inode `i` in memory, and the contents of the files. -/
structure Base (m : Img) (i : ℕ) (din : Inode) (s : Fs) (F : ℕ → Contents) : Prop where
  clean : Clean m
  hi : m.freeblock < 4096
  view : View m i din s
  wf : WellFormed s
  stored : Stored s F
  packed : Packed din
  type : din.type ≠ tDev
  others : ∀ j, j ≠ i → Entry (inodesOf mkfsSb m.disk j) (F j)
  inum : i < 200

/-- The files take the first blocks of the disk, and only these. -/
structure Built (m : Img) (i : ℕ) (din : Inode) (s : Fs) (blocks : ℕ → ℕ)
    (F : ℕ → Contents) : Prop extends Base m i din s F where
  dense : Dense s blocks
  count : m.freeblock = 63 + ∑ j ∈ Finset.range 200, blockCost (blocks j)

theorem sum_update {α : Type*} (g : α → ℕ) (f : ℕ → α) {i : ℕ} (hi : i < 200) (v : α) :
    ∑ j ∈ Finset.range 200, g (Function.update f i v j) + g (f i) =
      ∑ j ∈ Finset.range 200, g (f j) + g v := by
  have hmem : i ∈ Finset.range 200 := Finset.mem_range.2 hi
  have hrest : ∑ j ∈ (Finset.range 200).erase i, g (Function.update f i v j) =
      ∑ j ∈ (Finset.range 200).erase i, g (f j) := by
    apply Finset.sum_congr rfl
    intro j hj
    rw [Function.update_of_ne (Finset.ne_of_mem_erase hj)]
  rw [← Finset.add_sum_erase _ _ hmem, ← Finset.add_sum_erase _ (fun j => g (f j)) hmem,
    Function.update_self]
  omega

section Block
variable {m : Img} {i k : ℕ} {din : Inode} {s : Fs} {blocks : ℕ → ℕ} {F : ℕ → Contents}

theorem stored_filled {s' : Fs} {τ : Slot} {x : ℕ} {rest : List ℕ} (hst : Stored s F)
    (h0 : s.ptr (i, τ) = 0) (hf : Filled s s' i τ x rest) : Stored s' F := by
  intro j p hp
  obtain ⟨hne, hbyte⟩ := hst j p hp
  have hother : (j, Slot.data (p / 512)) ≠ (i, τ) := by
    intro e
    exact hne (e ▸ h0)
  rw [hf.ptr, Function.update_of_ne hother, hf.disk hne]
  exact ⟨hne, hbyte⟩

theorem Packed.setAddr (h : Packed din) {x : ℕ} (hk : k < 13) (hx : x < 4294967296) :
    Packed (din.setAddr k x) := by
  refine ⟨h.type, h.major, h.minor, h.nlink, h.size, fun j => ?_, fun j hj => ?_⟩
  · change Function.update din.addrs k x j < _
    obtain rfl | hne := eq_or_ne j k
    · rwa [Function.update_self]
    · rw [Function.update_of_ne hne]
      exact h.addrs j
  · change Function.update din.addrs k x j = 0
    rw [Function.update_of_ne (by omega)]
    exact h.out j hj

theorem Base.root (h : Base m i din s F) {τ : Slot} (hτ : τ.Root) (h0 : s.ptr (i, τ) = 0)
    (hi : m.freeblock + 1 < 4096) :
    Base m.next i (din.setAddr τ.idx m.freeblock) (assign s i τ m.freeblock) F ∧
      (assign s i τ m.freeblock).ptr = Function.update s.ptr (i, τ) m.freeblock := by
  have hf := assign_filled h.wf (.inl hτ) h0 (h.view.free h.clean h.hi)
  have hidx : τ.idx < 13 := by
    cases τ with
    | data bn =>
      have hbn : bn < 11 := hτ
      rw [Slot.idx, if_pos hbn]
      omega
    | ind | dbl => decide
    | dblE e => exact hτ.elim
  exact ⟨⟨h.clean.next, hi, h.view.root h.clean h.hi hτ, hf.wf, stored_filled h.stored h0 hf,
    h.packed.setAddr hidx (by omega), h.type, h.others, h.inum⟩, hf.ptr⟩

theorem Base.range (h : Base m i din s F) {v : Node} (hv : s.ptr v ≠ 0) :
    63 ≤ s.ptr v ∧ s.ptr v < m.freeblock := by
  obtain ⟨hlo, hlt⟩ := h.wf.owned.range hv
  have hused := h.wf.owned.marked hv
  rw [h.view.dataStart] at hlo
  rw [h.view.size] at hlt
  rw [h.view.used h.clean h.hi.le hlt] at hused
  exact ⟨hlo, by simpa using hused⟩

theorem Base.entry (h : Base m i din s F) {τ p : Slot} (hp : τ.parent = some p)
    (hp0 : s.ptr (i, p) ≠ 0) (h0 : s.ptr (i, τ) = 0) (hi : m.freeblock + 1 < 4096) :
    Base (m.next.wsect (s.ptr (i, p)) (putWord (m.disk (s.ptr (i, p))) τ.idx m.freeblock)) i din
      (assign s i τ m.freeblock) F ∧
      (assign s i τ m.freeblock).ptr = Function.update s.ptr (i, τ) m.freeblock := by
  have hf := assign_filled h.wf (.inr ⟨p, hp, hp0⟩) h0 (h.view.free h.clean h.hi)
  obtain ⟨hlo, hlt⟩ := h.range hp0
  have hclean := h.clean.next.wsect (putWord (m.disk (s.ptr (i, p))) τ.idx m.freeblock)
    (.inr ⟨hlo, Nat.lt_succ_of_lt hlt⟩)
  refine ⟨⟨hclean, hi, h.view.entry h.clean h.hi hp hlo, hf.wf, stored_filled h.stored h0 hf,
    h.packed, h.type, fun j hj => ?_, h.inum⟩, hf.ptr⟩
  rw [inodesOf_wsect _ (by omega)]
  exact h.others j hj

theorem Base.ptr_data (h : Base m i din s F) (hk : k < 11) :
    s.ptr (i, .data k) = din.addrs k := by
  rw [ptr_of_root s (show (Slot.data k).Root from hk), h.view.inode_self, Slot.idx, if_pos hk]

theorem Base.ptr_ind (h : Base m i din s F) : s.ptr (i, .ind) = din.addrs 11 := by
  rw [ptr_of_root s (show Slot.ind.Root from trivial), h.view.inode_self]
  rfl

theorem Base.disk (h : Base m i din s F) {v : Node} (hv : s.ptr v ≠ 0) :
    s.disk (s.ptr v) = m.disk (s.ptr v) := by
  have hlo := (h.range hv).1
  exact h.view.disk_of_ne (by omega)

theorem Base.rsect (h : Base m i din s F) {v : Node} (hv : s.ptr v ≠ 0) :
    m.rsect (s.ptr v) = some (m.disk (s.ptr v)) := by
  have hlt := (h.range hv).2
  have hhi := h.hi
  apply if_pos
  change s.ptr v < 20000
  omega

theorem parent_ind (h1 : 11 ≤ k) (h2 : k < 139) : (Slot.data k).parent = some .ind := by
  rw [Slot.parent_data, if_neg (by omega), if_pos h2]

theorem idx_ind (h1 : 11 ≤ k) (h2 : k < 139) : (Slot.data k).idx = k - 11 := by
  rw [Slot.idx, if_neg (by omega), if_pos h2]

theorem Base.ptr_entry (h : Base m i din s F) (h1 : 11 ≤ k) (h2 : k < 139)
    (hind : s.ptr (i, .ind) ≠ 0) :
    getWord (m.disk (s.ptr (i, .ind))) (k - 11) = s.ptr (i, .data k) := by
  rw [ptr_of_parent s (parent_ind h1 h2), Fs.entry, if_neg hind, idx_ind h1 h2, h.disk hind]

theorem blockOf_direct (hk : k < 11) : blockOf m din k =
    if din.addrs k = 0 then some (m.next, din.setAddr k m.freeblock, m.freeblock)
    else some (m, din, din.addrs k) := by
  unfold blockOf
  rw [if_neg (by change ¬16523 ≤ k; omega), if_pos (show k < ndirect from hk)]

theorem blockOf_indirect (h1 : 11 ≤ k) (h2 : k < 139) (hind : din.addrs 11 ≠ 0) :
    blockOf m din k = (m.rsect (din.addrs 11)).bind fun indirect =>
      if getWord indirect (k - 11) = 0 then
        some (m.next.wsect (din.addrs 11) (putWord indirect (k - 11) m.freeblock), din,
          m.freeblock)
      else some (m, din, getWord indirect (k - 11)) := by
  have hin : ¬nindirect ≤ k - 11 := by
    change ¬128 ≤ k - 11
    omega
  unfold blockOf
  rw [if_neg (by change ¬16523 ≤ k; omega), if_neg (by change ¬k < 11; omega),
    show ndirect = 11 from rfl, if_neg hind]
  simp only [if_neg hin]
  rfl

theorem blockOf_new_indirect (h1 : 11 ≤ k) (h2 : k < 139) (hind : din.addrs 11 = 0)
    (hfree : m.freeblock ≠ 0) :
    blockOf m din k = blockOf m.next (din.setAddr 11 m.freeblock) k := by
  have hself : (din.setAddr 11 m.freeblock).addrs 11 = m.freeblock :=
    Function.update_self 11 _ din.addrs
  have hin : ¬nindirect ≤ k - 11 := by
    change ¬128 ≤ k - 11
    omega
  rw [blockOf_indirect (m := m.next) h1 h2 (hself ▸ hfree), hself]
  unfold blockOf
  rw [if_neg (by change ¬16523 ≤ k; omega), if_neg (by change ¬k < 11; omega),
    show ndirect = 11 from rfl, if_pos hind]
  simp only [if_neg hin, hself]
  rfl

theorem blockOf_out (h2 : 139 ≤ k) : blockOf m din k = none := by
  have hout : nindirect ≤ k - ndirect := by
    change 128 ≤ k - 11
    omega
  unfold blockOf
  rw [if_neg (show ¬k < ndirect by change ¬k < 11; omega)]
  simp only [if_pos hout]
  generalize (if din.addrs ndirect = 0 then (m.next, din.setAddr ndirect m.freeblock)
    else (m, din)) = md
  split
  · rfl
  · cases md.1.rsect (md.2.addrs ndirect) <;> rfl

theorem Built.blockOf_old (h : Built m i din s blocks F) (hk : k < blocks i) (h2 : k < 139) :
    blockOf m din k = some (m, din, s.ptr (i, .data k)) := by
  have hptr := (h.dense.data i k).2 hk
  by_cases h1 : k < 11
  · rw [h.ptr_data h1] at hptr ⊢
    rw [blockOf_direct h1, if_neg hptr]
  · have hind : s.ptr (i, .ind) ≠ 0 := (h.dense.ind i).2 (by omega)
    rw [blockOf_indirect (by omega) h2 (by rwa [← h.ptr_ind]), ← h.ptr_ind, h.rsect hind,
      Option.bind_some, h.ptr_entry (by omega) h2 hind, if_neg hptr]

theorem Dense.snoc {s' : Fs} (h : Dense s blocks)
    (hnew : s'.ptr (i, .data (blocks i)) ≠ 0)
    (hind : s'.ptr (i, .ind) ≠ 0 ↔ 11 ≤ blocks i)
    (hother : ∀ v : Node, v ≠ (i, .data (blocks i)) → v ≠ (i, .ind) → s'.ptr v = s.ptr v) :
    Dense s' (Function.update blocks i (blocks i + 1)) := by
  refine ⟨fun j bn => ?_, fun j => ?_, fun j => ?_⟩
  · obtain rfl | hj := eq_or_ne j i
    · rw [Function.update_self]
      obtain rfl | hbn := eq_or_ne bn (blocks j)
      · exact iff_of_true hnew (Nat.lt_succ_self _)
      · rw [hother _ (by simpa using hbn) (by simp), h.data]
        omega
    · rw [Function.update_of_ne hj, hother _ (by simp [hj]) (by simp [hj]), h.data]
  · obtain rfl | hj := eq_or_ne j i
    · rw [Function.update_self, hind]
      omega
    · rw [Function.update_of_ne hj, hother _ (by simp) (by simp [hj]), h.ind]
  · rw [hother _ (by simp) (by simp)]
    exact h.dbl j

theorem blockCost_succ (b : ℕ) : blockCost (b + 1) = blockCost b + if b = 11 then 2 else 1 := by
  unfold blockCost
  split <;> split <;> split <;> omega

theorem Built.count_snoc (h : Built m i din s blocks F) {f : ℕ}
    (hf : f + blockCost (blocks i) = m.freeblock + blockCost (blocks i + 1)) :
    f = 63 + ∑ j ∈ Finset.range 200,
      blockCost (Function.update blocks i (blocks i + 1) j) := by
  have hsum := sum_update blockCost blocks h.inum (blocks i + 1)
  have hcount := h.count
  omega

/-- A block that the file has not yet. -/
theorem Built.blockOf_new (h : Built m i din s blocks F) (hk : blocks i = k) (h2 : k < 139) :
    ∃ m' din' x, blockOf m din k = some (m', din', x) ∧
      m'.freeblock + blockCost k = m.freeblock + blockCost (k + 1) ∧
      (m'.freeblock < 4096 → ∃ s', Built m' i din' s' (Function.update blocks i (k + 1)) F ∧
        s'.ptr (i, .data k) = x) := by
  subst hk
  have hlo := h.clean.lo
  have hhi := h.hi
  have hfree : m.freeblock ≠ 0 := by omega
  have hptr : s.ptr (i, .data (blocks i)) = 0 := by
    by_contra hne
    exact lt_irrefl _ ((h.dense.data i _).1 hne)
  by_cases h1 : blocks i < 11
  · have hcost : m.next.freeblock + blockCost (blocks i) =
        m.freeblock + blockCost (blocks i + 1) := by
      rw [blockCost_succ, if_neg (by omega)]
      exact Nat.add_right_comm _ 1 _
    have haddr := hptr
    rw [h.ptr_data h1] at haddr
    refine ⟨_, _, _, by rw [blockOf_direct h1, if_pos haddr], hcost, fun hlt => ?_⟩
    obtain ⟨hbase, hp⟩ := h.root (τ := .data (blocks i)) h1 hptr hlt
    rw [Slot.idx, if_pos h1] at hbase
    have hself : (assign s i (.data (blocks i)) m.freeblock).ptr (i, .data (blocks i)) =
        m.freeblock := by rw [hp, Function.update_self]
    refine ⟨_, ⟨hbase, h.dense.snoc (by rwa [hself]) ?_ fun v hv _ => ?_, h.count_snoc hcost⟩,
      hself⟩
    · rw [hp, Function.update_of_ne (by simp), h.dense.ind]
      omega
    · rw [hp, Function.update_of_ne hv]
  · by_cases h11 : blocks i = 11
    · -- The indirect block is taken first.
      have hind : s.ptr (i, .ind) = 0 := by
        by_contra hne
        have := (h.dense.ind i).1 hne
        omega
      have haddr := hind
      rw [h.ptr_ind] at haddr
      have hself : (din.setAddr 11 m.freeblock).addrs 11 = m.freeblock :=
        Function.update_self 11 _ din.addrs
      have hread : m.next.rsect m.freeblock = some fun _ => 0 := by
        unfold Img.rsect
        rw [if_pos (by change m.freeblock < 20000; omega)]
        exact congrArg some (h.clean.zero m.freeblock (by omega) (.inr le_rfl))
      have hcost : m.next.next.freeblock + blockCost (blocks i) =
          m.freeblock + blockCost (blocks i + 1) := by
        rw [blockCost_succ, if_pos h11]
        exact Nat.add_right_comm _ 2 _
      refine ⟨m.next.next.wsect m.freeblock (putWord (fun _ => 0) (blocks i - 11) m.next.freeblock),
        din.setAddr 11 m.freeblock, m.next.freeblock, ?_, hcost, fun hlt => ?_⟩
      · rw [blockOf_new_indirect (by omega) h2 haddr hfree,
          blockOf_indirect (by omega) h2 (hself ▸ hfree), hself, hread, Option.bind_some,
          getWord_zero, if_pos rfl]
      · change m.freeblock + 1 + 1 < 4096 at hlt
        obtain ⟨hbase, hp⟩ := h.root (τ := .ind) trivial hind (by omega)
        have hp1 : (assign s i .ind m.freeblock).ptr (i, .ind) = m.freeblock := by
          rw [hp, Function.update_self]
        have hp0 : (assign s i .ind m.freeblock).ptr (i, .data (blocks i)) = 0 := by
          rw [hp, Function.update_of_ne (by simp)]
          exact hptr
        obtain ⟨hbase', hp'⟩ := hbase.entry (parent_ind (by omega) h2)
          (by rwa [hp1]) hp0 hlt
        have hzero : m.next.disk m.freeblock = fun _ => 0 :=
          h.clean.zero m.freeblock (by omega) (.inr le_rfl)
        rw [hp1, hzero, idx_ind (by omega) h2] at hbase'
        refine ⟨_, ⟨hbase', h.dense.snoc ?_ ?_ fun v hv hv' => ?_, h.count_snoc hcost⟩, ?_⟩
        · rw [hp', Function.update_self]
          exact Nat.succ_ne_zero m.freeblock
        · rw [hp', Function.update_of_ne (by simp), hp1]
          exact iff_of_true hfree h11.ge
        · rw [hp', Function.update_of_ne hv, hp, Function.update_of_ne hv']
        · rw [hp', Function.update_self]
    · have hind : s.ptr (i, .ind) ≠ 0 := (h.dense.ind i).2 (by omega)
      have hcost : m.next.freeblock + blockCost (blocks i) =
          m.freeblock + blockCost (blocks i + 1) := by
        rw [blockCost_succ, if_neg h11]
        exact Nat.add_right_comm _ 1 _
      refine ⟨m.next.wsect (s.ptr (i, .ind))
        (putWord (m.disk (s.ptr (i, .ind))) (blocks i - 11) m.freeblock), din, m.freeblock, ?_,
        hcost, fun hlt => ?_⟩
      · rw [blockOf_indirect (by omega) h2 (by rwa [← h.ptr_ind]), ← h.ptr_ind, h.rsect hind,
          Option.bind_some, h.ptr_entry (by omega) h2 hind, if_pos hptr]
      · obtain ⟨hbase, hp⟩ := h.entry (parent_ind (by omega) h2) hind hptr hlt
        rw [idx_ind (by omega) h2] at hbase
        refine ⟨_, ⟨hbase, h.dense.snoc ?_ ?_ fun v hv _ => ?_, h.count_snoc hcost⟩, ?_⟩
        · rw [hp, Function.update_self]
          exact hfree
        · rw [hp, Function.update_of_ne (by simp)]
          exact iff_of_true hind (by omega)
        · rw [hp, Function.update_of_ne hv]
        · rw [hp, Function.update_self]

/-- `blockOf` never gives a block back. -/
theorem blockOf_mono {m' : Img} {din' : Inode} {x : ℕ} (hfree : m.freeblock ≠ 0)
    (he : blockOf m din k = some (m', din', x)) :
    m.freeblock ≤ m'.freeblock ∧ m'.freeinode = m.freeinode := by
  have hindirect : ∀ {m₁ : Img} {din₁ : Inode}, 11 ≤ k → k < 139 → din₁.addrs 11 ≠ 0 →
      blockOf m₁ din₁ k = some (m', din', x) →
      m₁.freeblock ≤ m'.freeblock ∧ m'.freeinode = m₁.freeinode := by
    intro m₁ din₁ h1 h2 hind he
    rw [blockOf_indirect h1 h2 hind] at he
    obtain ⟨d, -, he⟩ := Option.bind_eq_some_iff.1 he
    split at he <;> obtain ⟨rfl, -⟩ := Prod.mk.inj (Option.some.inj he)
    · exact ⟨Nat.le_succ _, rfl⟩
    · exact ⟨le_rfl, rfl⟩
  by_cases h1 : k < 11
  · rw [blockOf_direct h1] at he
    split at he <;> obtain ⟨rfl, -⟩ := Prod.mk.inj (Option.some.inj he)
    · exact ⟨Nat.le_succ _, rfl⟩
    · exact ⟨le_rfl, rfl⟩
  · by_cases h2 : k < 139
    · by_cases hind : din.addrs 11 = 0
      · rw [blockOf_new_indirect (by omega) h2 hind hfree] at he
        have hself : (din.setAddr 11 m.freeblock).addrs 11 = m.freeblock :=
          Function.update_self 11 _ din.addrs
        have hnext := hindirect (by omega) h2 (by rwa [hself]) he
        exact ⟨(Nat.le_succ _).trans hnext.1, hnext.2⟩
      · exact hindirect (by omega) h2 hind he
    · rw [blockOf_out (by omega)] at he
      cases he

end Block

section Loop
variable {m m' : Img} {i fuel off off' n : ℕ} {din din' : Inode} {s : Fs} {F : ℕ → Contents}
  {p : ℕ → ℕ}

/-- The number of blocks of each file. -/
def fileBlocks (F : ℕ → Contents) (j : ℕ) : ℕ := ((F j).size + 511) / 512

/-- The blocks that a file of `n` bytes takes. -/
def cost (n : ℕ) : ℕ := blockCost ((n + 511) / 512)

theorem blockCost_mono {a b : ℕ} (h : a ≤ b) : blockCost a ≤ blockCost b := by
  unfold blockCost
  split <;> split <;> omega

theorem cost_mono {a b : ℕ} (h : a ≤ b) : cost a ≤ cost b := blockCost_mono (by omega)

theorem cost_piece {n1 : ℕ} (h0 : 0 < n1) (h1 : n1 ≤ 512 - off % 512) :
    cost (off + n1) = cost (off + 1) := by
  unfold cost
  rw [show (off + n1 + 511) / 512 = (off + 1 + 511) / 512 by omega]

theorem Built.size_le {blocks : ℕ → ℕ} (h : Built m i din s blocks F) (j : ℕ) :
    blocks j ≤ 139 := by
  by_contra hlt
  apply (h.dense.data j 139).2 (by omega)
  have hp : (Slot.data 139).parent = some (.dblE 0) := rfl
  have hq : (Slot.dblE 0).parent = some .dbl := rfl
  rw [ptr_of_parent s hp, ptr_of_parent s hq, h.dense.dbl j, Fs.entry, Fs.entry, if_pos rfl,
    if_pos rfl]

theorem Built.block (h : Built m i din s (fileBlocks F) F) (hoff : off = (F i).size)
    (hlt : off < 71168) :
    ∃ m' din' x, blockOf m din (off / bsize) = some (m', din', x) ∧
      m'.freeblock + cost off = m.freeblock + cost (off + 1) ∧
      (m'.freeblock < 4096 → ∃ s',
        Built m' i din' s' (Function.update (fileBlocks F) i (off / 512 + 1)) F ∧
        s'.ptr (i, .data (off / 512)) = x) := by
  change ∃ m' din' x, blockOf m din (off / 512) = _ ∧ _
  have hblocks : fileBlocks F i = (off + 511) / 512 := by rw [fileBlocks, hoff]
  by_cases hmod : off % 512 = 0
  · have hk : fileBlocks F i = off / 512 := by omega
    unfold cost
    rw [show (off + 511) / 512 = off / 512 by omega,
      show (off + 1 + 511) / 512 = off / 512 + 1 by omega]
    exact h.blockOf_new hk (by omega)
  · have hk : fileBlocks F i = off / 512 + 1 := by omega
    refine ⟨m, din, _, h.blockOf_old (by omega) (by omega), ?_, fun _ => ⟨s, ?_, rfl⟩⟩
    · unfold cost
      rw [show (off + 511) / 512 = (off + 1 + 511) / 512 by omega]
    · rw [← hk, Function.update_eq_self]
      exact h

/-- A piece of the file goes into its block. -/
theorem Built.store (h : Built m i din s (Function.update (fileBlocks F) i (off / 512 + 1)) F)
    (hoff : off = (F i).size) {n1 : ℕ} (h0 : 0 < n1) (h1 : n1 ≤ 512 - off % 512) {x : ℕ}
    (hx : s.ptr (i, .data (off / 512)) = x) :
    m.rsect x = some (m.disk x) ∧ ∃ s',
      Built (m.wsect x (putBytes (m.disk x) (off % 512) n1 p)) i din s'
        (fileBlocks (Function.update F i ((F i).put off n1 p)))
        (Function.update F i ((F i).put off n1 p)) := by
  subst hx
  have hne : s.ptr (i, .data (off / 512)) ≠ 0 :=
    (h.dense.data i _).2 (by rw [Function.update_self]; omega)
  obtain ⟨hlo, hlt⟩ := h.range hne
  have hblocks : fileBlocks (Function.update F i ((F i).put off n1 p)) =
      Function.update (fileBlocks F) i (off / 512 + 1) := by
    funext j
    unfold fileBlocks
    obtain rfl | hj := eq_or_ne j i
    · rw [Function.update_self, Function.update_self]
      change (max (F j).size (off + n1) + 511) / 512 = _
      omega
    · rw [Function.update_of_ne hj, Function.update_of_ne hj]
  refine ⟨h.rsect hne, s.putData (s.ptr (i, .data (off / 512)))
    (putBytes (s.disk (s.ptr (i, .data (off / 512)))) (off % 512) n1 p), ?_⟩
  have hptr := ptr_putData h.wf (putBytes (s.disk (s.ptr (i, .data (off / 512)))) (off % 512) n1 p)
    i (off / 512)
  rw [hblocks, ← h.disk hne]
  refine ⟨⟨h.clean.wsect _ (.inr ⟨hlo, hlt⟩), h.hi, h.view.store hlo _, h.wf.putData hne _,
    h.stored.putData h.wf hne h1 hoff.le, h.packed, h.type, fun j hj => ?_, h.inum⟩,
    ⟨?_, ?_, ?_⟩, h.count⟩
  · rw [inodesOf_wsect _ (by omega), Function.update_of_ne hj]
    exact h.others j hj
  · rw [hptr]
    exact h.dense.data
  · rw [hptr]
    exact h.dense.ind
  · rw [hptr]
    exact h.dense.dbl

theorem Img.rsect_eq {b : ℕ} {d : ℕ → ℕ} (h : m.rsect b = some d) : d = m.disk b := by
  unfold Img.rsect at h
  split at h
  · exact (Option.some.inj h).symm
  · cases h

theorem appendLoop_mono (hfree : m.freeblock ≠ 0)
    (he : appendLoop fuel m din p off n = some (m', din', off')) :
    m.freeblock ≤ m'.freeblock ∧ m'.freeinode = m.freeinode := by
  induction fuel generalizing m din p off n with
  | zero =>
    obtain ⟨rfl, -⟩ := Prod.mk.inj (Option.some.inj he)
    exact ⟨le_rfl, rfl⟩
  | succ fuel ih =>
    rw [appendLoop] at he
    split at he
    · obtain ⟨rfl, -⟩ := Prod.mk.inj (Option.some.inj he)
      exact ⟨le_rfl, rfl⟩
    · obtain ⟨⟨m₁, din₁, x⟩, hb, he⟩ := Option.bind_eq_some_iff.1 he
      obtain ⟨d, -, he⟩ := Option.bind_eq_some_iff.1 he
      obtain ⟨hle, hinode⟩ := blockOf_mono hfree hb
      have hrest := ih (m := m₁.wsect x _) (show m₁.freeblock ≠ 0 by omega) he
      exact ⟨hle.trans hrest.1, hrest.2.trans hinode⟩

theorem size_put (hoff : off = (F i).size) (n : ℕ) :
    off + n = (Function.update F i ((F i).put off n p) i).size := by
  rw [Function.update_self]
  change _ = max (F i).size (off + n)
  omega

/-- The loop of `iappend`, as long as the file stays under its indirect block and the blocks
under the first block of the bitmap. -/
theorem Built.loop (h : Built m i din s (fileBlocks F) F) (hn : n ≤ fuel)
    (hoff : off = (F i).size) (hend : off + n ≤ 71168)
    (hcost : m.freeblock + cost (off + n) < 4096 + cost off) :
    ∃ m' din' s', appendLoop fuel m din p off n = some (m', din', off + n) ∧
      Built m' i din' s' (fileBlocks (Function.update F i ((F i).put off n p)))
        (Function.update F i ((F i).put off n p)) := by
  induction fuel generalizing m din s F p off n with
  | zero =>
    obtain rfl : n = 0 := by omega
    refine ⟨m, din, s, rfl, ?_⟩
    rwa [Contents.put_zero _ hoff.le, Function.update_eq_self]
  | succ fuel ih =>
    rw [appendLoop]
    by_cases h0 : n = 0
    · subst h0
      refine ⟨m, din, s, if_pos rfl, ?_⟩
      rwa [Contents.put_zero _ hoff.le, Function.update_eq_self]
    · rw [if_neg h0]
      obtain ⟨m₁, din₁, x, hb, hcount, hnext⟩ := h.block hoff (by omega)
      have hmono : cost (off + 1) ≤ cost (off + n) := cost_mono (by omega)
      obtain ⟨s₁, hbuilt, hx⟩ := hnext (by omega)
      generalize hm : min n (bsize - off % bsize) = n1
      replace hm : min n (512 - off % 512) = n1 := hm
      obtain ⟨hread, s₂, hstore⟩ := hbuilt.store (p := p) hoff (show 0 < n1 by omega)
        (by omega) hx
      have hsize := size_put (p := p) hoff n1
      have hpiece : cost (off + n1) = cost (off + 1) := cost_piece (by omega) (by omega)
      have hrest : off + n1 + (n - n1) = off + n := by omega
      obtain ⟨m', din', s', he, hfinal⟩ := ih (p := fun k => p (n1 + k)) (n := n - n1) hstore
        (by omega) hsize (by omega) (by
          rw [hrest, hpiece]
          change m₁.freeblock + _ < _
          omega)
      refine ⟨m', din', s', ?_, ?_⟩
      · rw [hb]
        change (m₁.rsect x).bind _ = _
        rw [hread]
        exact hrest ▸ he
      · rwa [Function.update_self, Contents.put_put _ (by omega), Function.update_idem] at hfinal

/-- The loop of `iappend` ends with the bitmap not full only under these bounds. -/
theorem Built.loop_bound (h : Built m i din s (fileBlocks F) F) (hn : n ≤ fuel)
    (hoff : off = (F i).size) (he : appendLoop fuel m din p off n = some (m', din', off'))
    (hlt : m'.freeblock < 4096) :
    off + n ≤ 71168 ∧ m.freeblock + cost (off + n) < 4096 + cost off := by
  have hempty : off + 0 ≤ 71168 ∧ m.freeblock + cost (off + 0) < 4096 + cost off := by
    have hle : (off + 511) / 512 ≤ 139 := by
      rw [hoff]
      exact h.size_le i
    have hhi := h.hi
    rw [Nat.add_zero]
    omega
  induction fuel generalizing m din s F p off n with
  | zero =>
    obtain rfl : n = 0 := by omega
    exact hempty
  | succ fuel ih =>
    rw [appendLoop] at he
    by_cases h0 : n = 0
    · subst h0
      exact hempty
    · rw [if_neg h0] at he
      obtain ⟨⟨m₁, din₁, x⟩, hb, he⟩ := Option.bind_eq_some_iff.1 he
      obtain ⟨d, hread, he⟩ := Option.bind_eq_some_iff.1 he
      have hoff' : off < 71168 := by
        by_contra hge
        have hout : 139 ≤ off / bsize := by
          change 139 ≤ off / 512
          omega
        rw [blockOf_out hout] at hb
        cases hb
      obtain ⟨m₂, din₂, x₂, hb₂, hcount, hnext⟩ := h.block hoff hoff'
      rw [hb] at hb₂
      obtain ⟨rfl, rfl, rfl⟩ : m₁ = m₂ ∧ din₁ = din₂ ∧ x = x₂ := by simpa using hb₂
      have hlo := h.clean.lo
      have hmono := blockOf_mono (show m.freeblock ≠ 0 by omega) hb
      have hmono' := appendLoop_mono (m := m₁.wsect x _) (show m₁.freeblock ≠ 0 by omega) he
      have hle : m₁.freeblock ≤ m'.freeblock := hmono'.1
      obtain ⟨s₁, hbuilt, hx⟩ := hnext (by omega)
      generalize hm : min n (bsize - off % bsize) = n1 at he
      replace hm : min n (512 - off % 512) = n1 := hm
      obtain ⟨-, s₂, hstore⟩ := hbuilt.store (p := p) hoff (show 0 < n1 by omega) (by omega) hx
      rw [Img.rsect_eq hread] at he
      have hsize := size_put (p := p) hoff n1
      have hpiece : cost (off + n1) = cost (off + 1) := cost_piece (by omega) (by omega)
      have hempty' : off + n1 + 0 ≤ 71168 ∧
          (m₁.wsect x (putBytes (m₁.disk x) (off % 512) n1 p)).freeblock + cost (off + n1 + 0) <
            4096 + cost (off + n1) := by
        change _ ∧ m₁.freeblock + _ < _
        rw [Nat.add_zero]
        omega
      have hrest := ih hstore (by omega) hsize he hempty'
      rw [show off + n1 + (n - n1) = off + n by omega, hpiece] at hrest
      change _ ∧ m₁.freeblock + _ < _ at hrest
      omega

end Loop

end BigFile.MkFs
