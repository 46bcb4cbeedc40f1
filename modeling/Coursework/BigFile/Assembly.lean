import Coursework.BigFile.Saved

/-! `main` of `mkfs` as a sequence of allocations and appends: which files it has built in the
end, and how many blocks they take. -/
namespace BigFile.MkFs
open BlockTree

/-- What `mkfs` does between setting up the image and writing the bitmap. -/
inductive MkOp where
  | ialloc (type : ℤ)
  | iappend (inum : ℕ) (p : ℕ → ℕ) (n : ℕ)

def exec (m : Img) : MkOp → Option Img
  | .ialloc type => ialloc m type
  | .iappend inum p n => iappend m inum p n

def run (m : Img) (ops : List MkOp) : Option Img := ops.foldlM exec m

/-- The files after an operation. -/
def MkOp.files (F : ℕ → Contents) : MkOp → ℕ → Contents
  | .ialloc _ => F
  | .iappend inum p n => Function.update F inum ((F inum).put (F inum).size n p)

def contents (F : ℕ → Contents) (ops : List MkOp) : ℕ → Contents := ops.foldl MkOp.files F

/-- Only inodes that have been allocated are appended to, and there are enough of them. -/
def Admits : ℕ → List MkOp → Prop
  | _, [] => True
  | k, .ialloc type :: ops => k < 200 ∧ (type = tDir ∨ type = tFile) ∧ Admits (k + 1) ops
  | k, .iappend inum _ _ :: ops => inum < k ∧ k ≤ 200 ∧ Admits k ops

section Runs
variable {m m' : Img} {s : Fs} {F : ℕ → Contents} {ops : List MkOp}

theorem run_cons (m : Img) (op : MkOp) (ops : List MkOp) :
    run m (op :: ops) = (exec m op).bind fun m => run m ops := rfl

theorem run_append (m : Img) (ops ops' : List MkOp) :
    run m (ops ++ ops') = (run m ops).bind fun m => run m ops' := List.foldlM_append

theorem size_le_files (F : ℕ → Contents) (op : MkOp) (j : ℕ) :
    (F j).size ≤ (op.files F j).size := by
  cases op with
  | ialloc type => exact le_rfl
  | iappend inum p n =>
    rw [MkOp.files]
    obtain rfl | hj := eq_or_ne j inum
    · rw [Function.update_self]
      exact le_max_left _ _
    · rw [Function.update_of_ne hj]

theorem size_le_contents (F : ℕ → Contents) (ops : List MkOp) (j : ℕ) :
    (F j).size ≤ (contents F ops j).size := by
  induction ops generalizing F with
  | nil => exact le_rfl
  | cons op ops ih => exact (size_le_files F op j).trans (ih _)

theorem Small.before (h : Small (contents F ops)) : Small F := by
  refine ⟨fun j => (size_le_contents F ops j).trans (h.1 j), ?_⟩
  have hle : total F ≤ total (contents F ops) :=
    Finset.sum_le_sum fun j _ => cost_mono (size_le_contents F ops j)
  exact lt_of_le_of_lt (Nat.add_le_add_left hle 63) h.2

theorem winode_eq {i : ℕ} {ip : Inode} (he : winode m i ip = some m') :
    m'.freeblock = m.freeblock ∧ m'.freeinode = m.freeinode := by
  obtain ⟨d, -, hm⟩ := Option.bind_eq_some_iff.1 he
  rw [← Option.some.inj hm]
  exact ⟨rfl, rfl⟩

/-- The inodes that an operation takes. -/
def MkOp.inodes : MkOp → ℕ
  | .ialloc _ => 1
  | .iappend _ _ _ => 0

theorem exec_mono {op : MkOp} (hfree : m.freeblock ≠ 0) (he : exec m op = some m') :
    m.freeblock ≤ m'.freeblock ∧ m'.freeinode = m.freeinode + op.inodes := by
  cases op with
  | ialloc type =>
    obtain ⟨hblock, hino⟩ := winode_eq he
    exact ⟨hblock.ge, hino⟩
  | iappend inum p n =>
    obtain ⟨din, -, he⟩ := Option.bind_eq_some_iff.1 he
    obtain ⟨⟨m₁, din₁, off⟩, hloop, hw⟩ := Option.bind_eq_some_iff.1 he
    obtain ⟨hblock, hino⟩ := winode_eq hw
    obtain ⟨hle, hino'⟩ := appendLoop_mono hfree hloop
    exact ⟨hle.trans hblock.ge, hino.trans hino'⟩

theorem run_mono (hfree : m.freeblock ≠ 0) (he : run m ops = some m') :
    m.freeblock ≤ m'.freeblock ∧ m'.freeinode = m.freeinode + (ops.map MkOp.inodes).sum := by
  induction ops generalizing m with
  | nil =>
    obtain rfl : m = m' := Option.some.inj he
    exact ⟨le_rfl, rfl⟩
  | cons op ops ih =>
    obtain ⟨m₁, he₁, he'⟩ := Option.bind_eq_some_iff.1 he
    obtain ⟨hle, hino⟩ := exec_mono hfree he₁
    obtain ⟨hle', hino'⟩ := ih (by omega) he'
    refine ⟨hle.trans hle', ?_⟩
    rw [hino', hino, List.map_cons, List.sum_cons, Nat.add_assoc]

/-- A run succeeds as long as the files stay small. -/
theorem Saved.run (h : Saved m s F) (hops : Admits m.freeinode ops)
    (hsmall : Small (contents F ops)) :
    ∃ m' s', run m ops = some m' ∧ Saved m' s' (contents F ops) := by
  induction ops generalizing m s F with
  | nil => exact ⟨m, s, rfl, h⟩
  | cons op ops ih =>
    rw [run_cons]
    cases op with
    | ialloc type =>
      obtain ⟨hlt, htype, hrest⟩ := hops
      obtain ⟨m₁, s₁, he, hino, -, h₁⟩ := h.ialloc hlt htype
      rw [show exec m (.ialloc type) = some m₁ from he, Option.bind_some]
      exact ih h₁ (hino ▸ hrest) hsmall
    | iappend inum p n =>
      obtain ⟨hlt, hle, hrest⟩ := hops
      have hnext : Small (contents (MkOp.files F (.iappend inum p n)) ops) := hsmall
      obtain ⟨m₁, s₁, he, hino, h₁⟩ :=
        (h.iappend (p := p) (n := n) (hlt.trans_le hle) hlt rfl).1 hnext.before
      rw [show exec m (.iappend inum p n) = some m₁ from he, Option.bind_some]
      exact ih h₁ (hino ▸ hrest) hsmall

/-- A run that leaves room in the bitmap has built small files. -/
theorem Saved.run_small (h : Saved m s F) (hops : Admits m.freeinode ops)
    (he : MkFs.run m ops = some m') (hroom : m'.freeblock < 4096) : Small (contents F ops) := by
  induction ops generalizing m s F with
  | nil => exact h.small
  | cons op ops ih =>
    obtain ⟨m₁, he₁, he'⟩ := Option.bind_eq_some_iff.1 he
    have hlo := (h.built 0 (by decide)).clean.lo
    cases op with
    | ialloc type =>
      obtain ⟨hlt, htype, hrest⟩ := hops
      obtain ⟨m₂, s₂, he₂, hino, -, h₂⟩ := h.ialloc hlt htype
      obtain rfl : m₁ = m₂ := Option.some.inj (he₁.symm.trans he₂)
      exact ih h₂ (hino ▸ hrest) he'
    | iappend inum p n =>
      obtain ⟨hlt, hle, hrest⟩ := hops
      obtain ⟨hok, hbound⟩ := h.iappend (p := p) (n := n) (hlt.trans_le hle) hlt rfl
      obtain ⟨hmono, hsmall⟩ := hbound m₁ he₁
      have hmono' := (run_mono (show m₁.freeblock ≠ 0 by omega) he').1
      obtain ⟨m₂, s₂, he₂, hino, h₂⟩ := hok (hsmall (by omega))
      obtain rfl : m₁ = m₂ := Option.some.inj (he₁.symm.trans he₂)
      exact ih h₂ (hino ▸ hrest) he'

end Runs

section Files

/-- The pieces of a file go to the same inode, one after another. -/
def pieceOps (inum : ℕ) (pieces : List (List ℕ)) : List MkOp :=
  pieces.map fun l => .iappend inum (fun k => l.getD k 0) l.length

/-- One round of the loop of `main`. -/
def fileOps (inum : ℕ) (f : SourceFile) : List MkOp :=
  .ialloc tFile :: .iappend rootino (dirent inum f.entry) 16 :: pieceOps inum f.pieces

/-- The loop of `main`. -/
def allOps : ℕ → List SourceFile → List MkOp
  | _, [] => []
  | inum, f :: files => fileOps inum f ++ allOps (inum + 1) files

/-- `main`, up to the size of the root directory and the bitmap. -/
def mainOps (files : List SourceFile) : List MkOp :=
  .ialloc tDir :: .iappend rootino (dirent rootino [46]) 16 ::
    .iappend rootino (dirent rootino [46, 46]) 16 :: allOps 2 files

theorem addFile_eq (m : Img) (f : SourceFile) : addFile m f = run m (fileOps m.freeinode f) := by
  unfold addFile fileOps pieceOps run
  simp only [List.foldlM_cons, List.foldlM_map]
  rfl

theorem inodes_fileOps (inum : ℕ) (f : SourceFile) :
    ((fileOps inum f).map MkOp.inodes).sum = 1 := by
  have hpieces : ∀ pieces, ((pieceOps inum pieces).map MkOp.inodes).sum = 0 := by
    intro pieces
    induction pieces with
    | nil => rfl
    | cons l pieces ih => exact (Nat.zero_add _).trans ih
  unfold fileOps
  rw [List.map_cons, List.map_cons, List.sum_cons, List.sum_cons, hpieces]
  rfl

theorem foldlM_addFile {m : Img} (hfree : m.freeblock ≠ 0) (files : List SourceFile) :
    files.foldlM addFile m = run m (allOps m.freeinode files) := by
  induction files generalizing m with
  | nil => rfl
  | cons f files ih =>
    rw [List.foldlM_cons, allOps, run_append, addFile_eq]
    apply Option.bind_congr
    intro m₁ he
    obtain ⟨hle, hino⟩ := run_mono hfree he
    rw [inodes_fileOps] at hino
    rw [ih (by omega), hino]

theorem main_eq (files : List SourceFile) : main files =
    (run blank (mainOps files)).bind fun m => (fixRoot m).bind fun m => balloc m m.freeblock := by
  have hrest : ∀ m : Img, m.freeblock ≠ 0 → m.freeinode = 2 →
      (files.foldlM addFile m).bind (fun m => (fixRoot m).bind fun m => balloc m m.freeblock) =
        (run m (allOps 2 files)).bind fun m => (fixRoot m).bind fun m => balloc m m.freeblock := by
    intro m hfree hino
    rw [foldlM_addFile hfree, hino]
  unfold main mainOps
  rw [run_cons, Option.bind_assoc]
  apply Option.bind_congr
  intro m₁ (he₁ : exec blank (.ialloc tDir) = some m₁)
  rw [run_cons, Option.bind_assoc]
  apply Option.bind_congr
  intro m₂ (he₂ : exec m₁ (.iappend rootino (dirent rootino [46]) 16) = some m₂)
  rw [run_cons, Option.bind_assoc]
  apply Option.bind_congr
  intro m₃ (he₃ : exec m₂ (.iappend rootino (dirent rootino [46, 46]) 16) = some m₃)
  obtain ⟨hle₁, hino₁⟩ := exec_mono (by decide) he₁
  have hlo : 63 ≤ m₁.freeblock := hle₁
  obtain ⟨hle₂, hino₂⟩ := exec_mono (by omega) he₂
  obtain ⟨hle₃, hino₃⟩ := exec_mono (by omega) he₃
  apply hrest m₃ (by omega)
  rw [hino₃, hino₂, hino₁]
  rfl

/-- The file has these bytes. -/
def Reads (c : Contents) (l : List ℕ) : Prop :=
  c.size = l.length ∧ ∀ k < l.length, c.byte k = l.getD k 0

theorem Reads.put {c : Contents} {l : List ℕ} (h : Reads c l) (l' : List ℕ) :
    Reads (c.put c.size l'.length fun k => l'.getD k 0) (l ++ l') := by
  constructor
  · change max c.size (c.size + l'.length) = (l ++ l').length
    rw [List.length_append, h.1]
    omega
  · intro k hk
    rw [List.length_append] at hk
    change (if c.size ≤ k ∧ k < c.size + l'.length then l'.getD (k - c.size) 0 else c.byte k) = _
    rw [h.1]
    by_cases hlt : k < l.length
    · rw [if_neg (by omega), h.2 k hlt, List.getD_append _ _ _ _ hlt]
    · rw [if_pos (by omega), List.getD_append_right _ _ _ _ (by omega)]

variable {F : ℕ → Contents} {inum : ℕ}

theorem contents_pieces {l : List ℕ} (h : Reads (F inum) l) (hi : inum < 200)
    (pieces : List (List ℕ)) :
    Reads (contents F (pieceOps inum pieces) inum) (l ++ pieces.flatten) ∧
      (∀ j, j ≠ inum → contents F (pieceOps inum pieces) j = F j) ∧
      total (contents F (pieceOps inum pieces)) + cost l.length =
        total F + cost (l ++ pieces.flatten).length := by
  induction pieces generalizing F l with
  | nil =>
    rw [List.flatten_nil, List.append_nil]
    exact ⟨h, fun _ _ => rfl, rfl⟩
  | cons l' pieces ih =>
    rw [List.flatten_cons, ← List.append_assoc]
    generalize hF₁ : Function.update F inum
      ((F inum).put (F inum).size l'.length fun k => l'.getD k 0) = F₁
    have hrun : contents F (pieceOps inum (l' :: pieces)) = contents F₁ (pieceOps inum pieces) := by
      rw [← hF₁]
      rfl
    have hput := h.put l'
    have htotal := total_update (F := F)
      (c := (F inum).put (F inum).size l'.length fun k => l'.getD k 0) hi
    rw [hput.1, hF₁, h.1] at htotal
    have hself : Reads (F₁ inum) (l ++ l') := by
      rw [← hF₁, Function.update_self]
      exact hput
    obtain ⟨h1, h2, h3⟩ := ih hself
    rw [hrun]
    refine ⟨h1, fun j hj => ?_, by omega⟩
    rw [h2 j hj, ← hF₁, Function.update_of_ne hj]

theorem contents_file (h0 : (F inum).size = 0) (h1 : 1 < inum) (hi : inum < 200)
    (f : SourceFile) :
    Reads (contents F (fileOps inum f) inum) f.bytes ∧
      (contents F (fileOps inum f) 1).size = (F 1).size + 16 ∧
      (∀ j, j ≠ 1 → j ≠ inum → contents F (fileOps inum f) j = F j) ∧
      total (contents F (fileOps inum f)) + cost (F 1).size =
        total F + cost ((F 1).size + 16) + cost f.bytes.length := by
  generalize hF₁ : Function.update F 1 ((F 1).put (F 1).size 16 (dirent inum f.entry)) = F₁
  have hrun : contents F (fileOps inum f) = contents F₁ (pieceOps inum f.pieces) := by
    rw [← hF₁]
    rfl
  have hsize : ((F 1).put (F 1).size 16 (dirent inum f.entry)).size = (F 1).size + 16 := by
    change max (F 1).size ((F 1).size + 16) = _
    omega
  have htotal := total_update (F := F)
    (c := (F 1).put (F 1).size 16 (dirent inum f.entry)) (show 1 < 200 by decide)
  rw [hF₁, hsize] at htotal
  have hempty : Reads (F₁ inum) [] := by
    refine ⟨?_, fun k hk => absurd hk (Nat.not_lt_zero k)⟩
    rw [← hF₁, Function.update_of_ne (by omega)]
    exact h0
  obtain ⟨hreads, hother, hcost⟩ := contents_pieces hempty hi f.pieces
  rw [List.nil_append] at hreads hcost
  rw [hrun]
  refine ⟨hreads, ?_, fun j hj hj' => ?_, ?_⟩
  · rw [hother 1 (by omega), ← hF₁, Function.update_self, hsize]
  · rw [hother j hj', ← hF₁, Function.update_of_ne hj]
  · have hnil : cost ([] : List ℕ).length = 0 := rfl
    change _ = _ + cost f.pieces.flatten.length
    omega

theorem contents_append (F : ℕ → Contents) (ops ops' : List MkOp) :
    contents F (ops ++ ops') = contents (contents F ops) ops' := List.foldl_append

theorem contents_all {files : List SourceFile} (h0 : ∀ j, inum ≤ j → (F j).size = 0)
    (h1 : 1 < inum) (hi : inum + files.length ≤ 200) :
    (∀ k f, files[k]? = some f → Reads (contents F (allOps inum files) (inum + k)) f.bytes) ∧
      (contents F (allOps inum files) 1).size = (F 1).size + 16 * files.length ∧
      (∀ j, j ≠ 1 → j < inum ∨ inum + files.length ≤ j →
        contents F (allOps inum files) j = F j) ∧
      total (contents F (allOps inum files)) + cost (F 1).size =
        total F + cost ((F 1).size + 16 * files.length) +
          (files.map fun f => cost f.bytes.length).sum := by
  induction files generalizing F inum with
  | nil => simp [allOps, contents]
  | cons f files ih =>
    rw [List.length_cons] at hi ⊢
    obtain ⟨hreads, hroot, hother, hcost⟩ := contents_file (F := F) (h0 inum le_rfl) h1
      (by omega) f
    have hnext : ∀ j, inum + 1 ≤ j → (contents F (fileOps inum f) j).size = 0 := by
      intro j hj
      rw [hother j (by omega) (by omega)]
      exact h0 j (by omega)
    obtain ⟨h2, h3, h4, h5⟩ := ih hnext (by omega) (by omega)
    rw [allOps, contents_append]
    rw [hroot] at h3 h5
    rw [show (F 1).size + 16 + 16 * files.length = (F 1).size + 16 * (files.length + 1) by omega]
      at h3 h5
    refine ⟨fun k g hg => ?_, h3, fun j hj hout => ?_, ?_⟩
    · cases k with
      | zero =>
        rw [List.getElem?_cons_zero, Option.some.injEq] at hg
        change Reads (contents (contents F (fileOps inum f)) (allOps (inum + 1) files) inum) g.bytes
        rw [h4 inum (by omega) (.inl (Nat.lt_succ_self _)), ← hg]
        exact hreads
      | succ k =>
        rw [List.getElem?_cons_succ] at hg
        rw [show inum + (k + 1) = inum + 1 + k by omega]
        exact h2 k g hg
    · rw [h4 j hj (by omega), hother j hj (by omega)]
    · rw [List.map_cons, List.sum_cons]
      omega

end Files

end BigFile.MkFs
