import Coursework.BigFile.Bitmap

/-! The block trees of the inodes: which slot holds the number of which block, and what
filling one empty slot does. -/
namespace BigFile
open BlockTree

/-- The slots of an inode's block tree: the number of file block `bn`, of the indirect
block, of the double-indirect block and of its second-level block `e`. -/
inductive Slot where
  | data (bn : ℕ)
  | ind
  | dbl
  | dblE (e : ℕ)
  deriving DecidableEq

namespace Slot

/-- The slot that names the index block in which a slot lies. -/
def parent : Slot → Option Slot
  | ind => none
  | dbl => none
  | dblE e => if e < 128 then some dbl else none
  | data bn =>
    if bn < 11 then none
    else if bn < 139 then some ind
    else if bn < 16523 then some (dblE ((bn - 139) / 128))
    else none

/-- The place of a slot in its index block, or in `addrs`. -/
def idx : Slot → ℕ
  | ind => 11
  | dbl => 12
  | dblE e => e
  | data bn => if bn < 11 then bn else if bn < 139 then bn - 11 else (bn - 139) % 128

/-- The slots kept in `addrs`. -/
def Root : Slot → Prop
  | ind => True
  | dbl => True
  | dblE _ => False
  | data bn => bn < 11

instance : DecidablePred Root
  | ind => inferInstanceAs (Decidable True)
  | dbl => inferInstanceAs (Decidable True)
  | dblE _ => inferInstanceAs (Decidable False)
  | data _ => inferInstanceAs (Decidable (_ < _))

theorem Root.parent_eq {τ : Slot} (h : τ.Root) : τ.parent = none := by
  cases τ with
  | data bn => exact if_pos h
  | ind => rfl
  | dbl => rfl
  | dblE e => exact h.elim

theorem Root.idx_inj {τ τ' : Slot} (h : τ.Root) (h' : τ'.Root) (e : τ.idx = τ'.idx) :
    τ = τ' := by
  cases τ <;> cases τ' <;> simp_all [Root, idx]
  all_goals omega

theorem parent_data (bn : ℕ) : (data bn).parent =
    if bn < 11 then none
    else if bn < 139 then some ind
    else if bn < 16523 then some (dblE ((bn - 139) / 128))
    else none := rfl

theorem parent_dblE (e : ℕ) : (dblE e).parent = if e < 128 then some dbl else none := rfl

theorem parent_eq_ind {τ : Slot} (h : τ.parent = some ind) :
    ∃ bn, τ = data bn ∧ 11 ≤ bn ∧ bn < 139 := by
  cases τ with
  | data bn =>
    refine ⟨bn, rfl, ?_⟩
    rw [parent_data] at h
    split_ifs at h
    · omega
    · cases h
  | ind => cases h
  | dbl => cases h
  | dblE e =>
    rw [parent_dblE] at h
    split_ifs at h
    cases h

theorem parent_eq_dbl {τ : Slot} (h : τ.parent = some dbl) : ∃ e, τ = dblE e ∧ e < 128 := by
  cases τ with
  | data bn =>
    rw [parent_data] at h
    split_ifs at h
    · cases h
    · simp at h
  | ind => cases h
  | dbl => cases h
  | dblE e =>
    refine ⟨e, rfl, ?_⟩
    rw [parent_dblE] at h
    split_ifs at h
    assumption

theorem parent_eq_dblE {τ : Slot} {e : ℕ} (h : τ.parent = some (dblE e)) :
    ∃ bn, τ = data bn ∧ 139 ≤ bn ∧ bn < 16523 ∧ (bn - 139) / 128 = e := by
  cases τ with
  | data bn =>
    refine ⟨bn, rfl, ?_⟩
    rw [parent_data] at h
    split_ifs at h
    · cases h
    · rw [Option.some.injEq, dblE.injEq] at h
      omega
  | ind => cases h
  | dbl => cases h
  | dblE e =>
    rw [parent_dblE] at h
    split_ifs at h
    cases h

theorem parent_ne_data (τ : Slot) (bn : ℕ) : τ.parent ≠ some (data bn) := by
  cases τ <;> simp only [parent] <;> (try split_ifs) <;> simp

/-- The levels of the index. -/
def rank : Slot → ℕ
  | ind => 0
  | dbl => 0
  | dblE _ => 1
  | data _ => 2

theorem rank_lt {τ q : Slot} (h : τ.parent = some q) : q.rank < τ.rank := by
  cases q with
  | data bn => exact absurd h (parent_ne_data τ bn)
  | ind =>
    obtain ⟨bn, rfl, -⟩ := parent_eq_ind h
    simp [rank]
  | dbl =>
    obtain ⟨e, rfl, -⟩ := parent_eq_dbl h
    simp [rank]
  | dblE e =>
    obtain ⟨bn, rfl, -⟩ := parent_eq_dblE h
    simp [rank]

theorem idx_inj {τ τ' q : Slot} (h : τ.parent = some q) (h' : τ'.parent = some q)
    (e : τ.idx = τ'.idx) : τ = τ' := by
  cases q with
  | data bn => exact absurd h (parent_ne_data τ bn)
  | ind =>
    obtain ⟨b₁, rfl, h₁, h₁'⟩ := parent_eq_ind h
    obtain ⟨b₂, rfl, h₂, h₂'⟩ := parent_eq_ind h'
    simp only [idx] at e
    rw [if_neg (by omega), if_pos h₁', if_neg (by omega), if_pos h₂'] at e
    rw [show b₁ = b₂ by omega]
  | dbl =>
    obtain ⟨e₁, rfl, -⟩ := parent_eq_dbl h
    obtain ⟨e₂, rfl, -⟩ := parent_eq_dbl h'
    rw [show e₁ = e₂ from e]
  | dblE d =>
    obtain ⟨b₁, rfl, h₁, -, h₁'⟩ := parent_eq_dblE h
    obtain ⟨b₂, rfl, h₂, -, h₂'⟩ := parent_eq_dblE h'
    simp only [idx] at e
    rw [if_neg (by omega), if_neg (by omega), if_neg (by omega), if_neg (by omega)] at e
    rw [show b₁ = b₂ by omega]

end Slot

/-- A slot of an inode. -/
abbrev Node := ℕ × Slot

/-- The forest of the block trees of all inodes. -/
def shape : Shape Node where
  parent v := v.2.parent.map fun q => (v.1, q)
  idx v := v.2.idx
  rank v := v.2.rank
  rank_lt := by
    rintro ⟨i, τ⟩ q h
    obtain ⟨p, hp, rfl⟩ := Option.map_eq_some_iff.1 h
    exact Slot.rank_lt hp
  idx_inj := by
    rintro ⟨i, τ⟩ ⟨j, τ'⟩ q h h' e
    obtain ⟨p, hp, rfl⟩ := Option.map_eq_some_iff.1 h
    obtain ⟨p', hp', e'⟩ := Option.map_eq_some_iff.1 h'
    rw [Prod.mk.injEq] at e'
    obtain ⟨rfl, rfl⟩ := e'
    exact congrArg (Prod.mk _) (Slot.idx_inj hp hp' e)

theorem shape_parent {i : ℕ} {τ p : Slot} (h : τ.parent = some p) :
    shape.parent (i, τ) = some (i, p) := by simp [shape, h]

/-- What `addrs` holds for a slot. -/
def Fs.root (s : Fs) (v : Node) : ℕ := if v.2.Root then (s.inode v.1).addrs v.2.idx else 0

/-- Entry `k` of an index block, 0 if there is no block. -/
def Fs.entry (s : Fs) (b k : ℕ) : ℕ := if b = 0 then 0 else getWord (s.disk b) k

/-- The block a slot names, 0 if none. -/
def Fs.ptr (s : Fs) : Node → ℕ
  | (i, .ind) => (s.inode i).addrs 11
  | (i, .dbl) => (s.inode i).addrs 12
  | (i, .dblE e) => if e < 128 then s.entry ((s.inode i).addrs 12) e else 0
  | (i, .data bn) =>
    if bn < 11 then (s.inode i).addrs bn
    else if bn < 139 then s.entry ((s.inode i).addrs 11) (bn - 11)
    else if bn < 16523 then
      s.entry (s.entry ((s.inode i).addrs 12) ((bn - 139) / 128)) ((bn - 139) % 128)
    else 0

theorem ptr_of_parent (s : Fs) {i : ℕ} {τ p : Slot} (h : τ.parent = some p) :
    s.ptr (i, τ) = s.entry (s.ptr (i, p)) τ.idx := by
  cases p with
  | data bn => exact absurd h (Slot.parent_ne_data τ bn)
  | ind =>
    obtain ⟨bn, rfl, h1, h2⟩ := Slot.parent_eq_ind h
    simp only [Fs.ptr, Slot.idx]
    rw [if_neg (by omega), if_pos h2, if_neg (by omega), if_pos h2]
  | dbl =>
    obtain ⟨e, rfl, h1⟩ := Slot.parent_eq_dbl h
    simp only [Fs.ptr, Slot.idx]
    rw [if_pos h1]
  | dblE e =>
    obtain ⟨bn, rfl, h1, h2, rfl⟩ := Slot.parent_eq_dblE h
    simp only [Fs.ptr, Slot.idx]
    rw [if_neg (by omega), if_neg (by omega), if_pos h2, if_pos (by omega), if_neg (by omega),
      if_neg (by omega)]

theorem ptr_of_root (s : Fs) {i : ℕ} {τ : Slot} (h : τ.Root) :
    s.ptr (i, τ) = (s.inode i).addrs τ.idx := by
  cases τ with
  | data bn =>
    have hbn : bn < 11 := h
    simp only [Fs.ptr, Slot.idx]
    rw [if_pos hbn, if_pos hbn]
  | ind => rfl
  | dbl => rfl
  | dblE e => exact h.elim

theorem ptr_of_parent_none (s : Fs) {i : ℕ} {τ : Slot} (h : τ.parent = none) :
    s.ptr (i, τ) = s.root (i, τ) := by
  by_cases hr : τ.Root
  · rw [ptr_of_root s hr, Fs.root, if_pos hr]
  · rw [Fs.root, if_neg hr]
    cases τ with
    | data bn =>
      have hbn : ¬ bn < 11 := hr
      rw [Slot.parent_data] at h
      split_ifs at h with h1 h2
      simp only [Fs.ptr]
      rw [if_neg hbn, if_neg h1, if_neg h2]
    | ind => exact absurd trivial hr
    | dbl => exact absurd trivial hr
    | dblE e =>
      rw [Slot.parent_dblE] at h
      split_ifs at h with h1
      exact if_neg h1

theorem resolves (s : Fs) : Resolves shape s.root (fun c => getWord (s.disk c)) s.ptr := by
  constructor
  · rintro ⟨i, τ⟩ h
    exact ptr_of_parent_none s (Option.map_eq_none_iff.1 h)
  · rintro ⟨i, τ⟩ q h h0
    obtain ⟨p, hp, rfl⟩ := Option.map_eq_some_iff.1 h
    rw [ptr_of_parent s hp, Fs.entry, if_pos h0]
  · rintro ⟨i, τ⟩ q h h0
    obtain ⟨p, hp, rfl⟩ := Option.map_eq_some_iff.1 h
    rw [ptr_of_parent s hp, Fs.entry, if_neg h0]
    rfl

/-- The regions of the disk are in order, the metadata are in use, and the slots of all
inodes name different blocks in use. -/
structure WellFormed (s : Fs) : Prop where
  layout : Layout s
  owned : Owned s.dataStart s.sb.size s.used s.ptr

/-- `bmap` at one slot, whose index block is there. -/
def ensure (s : Fs) (i : ℕ) (τ : Slot) : Option (Fs × ℕ) :=
  match τ.parent with
  | none => bmapAddr s i τ.idx
  | some p => bmapEntry s (s.ptr (i, p)) τ.idx

/-- The state after block `x` has been allocated for a slot. -/
def assign (s : Fs) (i : ℕ) (τ : Slot) (x : ℕ) : Fs :=
  let s' := allocate s x
  match τ.parent with
  | none => s'.setInode i ((s'.inode i).setAddr τ.idx x)
  | some p => (s'.setBlock (s.ptr (i, p)) (putWord (s'.disk (s.ptr (i, p))) τ.idx x)).logWrite
      (s.ptr (i, p))

/-- The slots at which `bmap` can arrive: their index block is there. -/
def Ready (s : Fs) (i : ℕ) (τ : Slot) : Prop :=
  τ.Root ∨ ∃ p, τ.parent = some p ∧ s.ptr (i, p) ≠ 0

theorem ensure_of_ne {s : Fs} {i : ℕ} {τ : Slot} (hr : Ready s i τ) (h : s.ptr (i, τ) ≠ 0) :
    ensure s i τ = some (s, s.ptr (i, τ)) := by
  unfold ensure
  rcases hr with hr | ⟨p, hp, hp0⟩
  · rw [hr.parent_eq]
    rw [ptr_of_root s hr] at h ⊢
    exact if_neg h
  · rw [hp]
    rw [ptr_of_parent s hp, Fs.entry, if_neg hp0] at h ⊢
    exact if_neg h

theorem ensure_of_eq {s : Fs} {i : ℕ} {τ : Slot} (hr : Ready s i τ) (h : s.ptr (i, τ) = 0) :
    ensure s i τ = s.freeBlocks.head?.map fun x => (assign s i τ x, x) := by
  unfold ensure assign
  rcases hr with hr | ⟨p, hp, hp0⟩
  · rw [ptr_of_root s hr] at h
    rw [hr.parent_eq]
    simp only [bmapAddr, if_pos h]
    cases hf : s.freeBlocks with
    | nil => rw [balloc_nil hf]; rfl
    | cons x rest => rw [balloc_cons hf]; rfl
  · rw [ptr_of_parent s hp, Fs.entry, if_neg hp0] at h
    rw [hp]
    simp only [bmapEntry, if_pos h]
    cases hf : s.freeBlocks with
    | nil => rw [balloc_nil hf]; rfl
    | cons x rest => rw [balloc_cons hf]; rfl

end BigFile
