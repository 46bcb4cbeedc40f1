import Mathlib.Data.Int.Notation
import Mathlib.Logic.Function.Basic
import Coursework.Lib.Program
import Mathlib.Algebra.Group.Nat.Defs

/-! The state of the xv6 kernel with swapping: page tables, the page allocator, the LRU ring
of user pages, the swap bitmap and the swap area of the disk. Frames and virtual pages are
given by their numbers. -/
namespace Swap

/-- A page-table entry: the number in its upper bits and the flags that the kernel uses,
`PTE_P`, `PTE_W`, `PTE_U`, and the accessed and dirty bits that the processor sets. -/
structure Pte where
  pfn : ℕ
  p : Bool
  w : Bool
  u : Bool
  a : Bool
  d : Bool
deriving DecidableEq

namespace Pte

def zero : Pte := ⟨0, false, false, false, false, false⟩

/-- A non-present entry that is not zero names a slot of the swap area. -/
def Swapped (e : Pte) : Prop := e.p = false ∧ e ≠ zero

instance (e : Pte) : Decidable e.Swapped := inferInstanceAs (Decidable (_ ∧ _))

@[simp] theorem zero_p : zero.p = false := rfl

@[simp] theorem not_swapped_zero : ¬ zero.Swapped := fun h => h.2 rfl

theorem not_swapped_of_p {e : Pte} (h : e.p = true) : ¬ e.Swapped := by
  intro hs
  simp [hs.1] at h

end Pte

/-- A `struct page`: its links in the LRU ring, the page directory and the address that it
stands for. A directory is given by its frame, and `0` is `NULL`. -/
structure Page where
  next : Option ℕ
  prev : Option ℕ
  pgdir : ℕ
  vaddr : ℕ
deriving DecidableEq

def Page.zero : Page := ⟨none, none, 0, 0⟩

/-- A page directory: the frames of its page tables, and the entries in these. -/
structure Dir where
  table : ℕ → Option ℕ
  pte : ℕ → Pte

/-- What was evicted from an address: the page, the bytes from its `struct page` on, and its
entry. -/
structure Eviction where
  page : ℕ → ℕ
  node : ℕ → ℕ
  pte : Pte

/-- The kernel state. The free list stands for the links that its frames hold in memory.
`held`, `kernel` and `evicted` only record: the frames that callers of `kalloc` have not
freed, those of them that other parts of the kernel hold, and what each swapped-out address
had. `behind n` is what the memory after `linked_list` holds at the `n`-th eviction. -/
structure Kernel where
  /-- The first frame after the kernel image. -/
  kend : ℕ
  freelist : List ℕ
  held : List ℕ
  kernel : List ℕ
  mem : ℕ → ℕ → ℕ
  dirs : ℕ → Option Dir
  node : ℕ → Page
  head : Option ℕ
  numFree : ℕ
  numLru : ℕ
  bitmap : ℕ → Bool
  disk : ℕ → ℕ → ℕ
  evicted : ℕ → ℕ → Option Eviction
  /-- The address of `linked_list`. -/
  listBase : ℕ
  behind : ℕ → ℕ → ℕ
  swapouts : ℕ

/-- A frame that `kalloc` returned, with the states around the call. In `after` the caller
does not hold the frame yet. -/
structure Handout where
  before : Kernel
  frame : ℕ
  after : Kernel

/-- The ways in which the kernel stops: its panics, `fault` for a pointer it follows into
memory that is not modelled, and `spin` for a loop of `clock` that does not end. -/
inductive Panic where
  | kfree
  | oom
  | noLinkedList
  | lruFull
  | lruEmpty
  | invalidHead
  | acquire
  | swapRange (blkno : ℤ)
  | remap
  | morePage
  | noPte
  | notPresent
  | fault
  | spin
deriving DecidableEq

abbrev M := Program Handout Panic Kernel

/-- A claim on the frames: what a frame is used for in a page directory. -/
inductive Owner where
  | dir (d : ℕ)
  | table (d i : ℕ)
  | page (d v : ℕ)
deriving DecidableEq

def Dir.empty : Dir := ⟨fun _ => none, fun _ => Pte.zero⟩

def Dir.setPte (D : Dir) (v : ℕ) (e : Pte) : Dir := { D with pte := Function.update D.pte v e }

/-- A zeroed page table at index `i`. -/
def Dir.addTable (D : Dir) (i t : ℕ) : Dir where
  table := Function.update D.table i (some t)
  pte v := if v / 1024 = i then Pte.zero else D.pte v

def Dir.dropTable (D : Dir) (i : ℕ) : Dir := { D with table := Function.update D.table i none }

namespace Kernel

/-- `walkpgdir` without allocation, for the virtual page `v`. -/
def walkpgdir (s : Kernel) (d v : ℕ) : Option Pte :=
  match s.dirs d with
  | none => none
  | some D =>
    match D.table (v / 1024) with
    | none => none
    | some _ => some (D.pte v)

/-- The entry of the virtual page `v`, zero if it has no page table. -/
def look (s : Kernel) (d v : ℕ) : Pte := (s.walkpgdir d v).getD Pte.zero

/-- The frame of each owner. -/
def own (s : Kernel) : Owner → Option ℕ
  | .dir d => if (s.dirs d).isSome then some d else none
  | .table d i => (s.dirs d).bind fun D => D.table i
  | .page d v => if (s.look d v).p then some (s.look d v).pfn else none

def setPte (s : Kernel) (d v : ℕ) (e : Pte) : Kernel :=
  { s with dirs := Function.update s.dirs d ((s.dirs d).map fun D => D.setPte v e) }

def addTable (s : Kernel) (d i t : ℕ) : Kernel :=
  { s with dirs := Function.update s.dirs d ((s.dirs d).map fun D => D.addTable i t) }

def dropTable (s : Kernel) (d i : ℕ) : Kernel :=
  { s with dirs := Function.update s.dirs d ((s.dirs d).map fun D => D.dropTable i) }

def addDir (s : Kernel) (d : ℕ) : Kernel :=
  { s with dirs := Function.update s.dirs d (some Dir.empty) }

def dropDir (s : Kernel) (d : ℕ) : Kernel :=
  { s with dirs := Function.update s.dirs d none }

def setMem (s : Kernel) (f : ℕ) (bytes : ℕ → ℕ) : Kernel :=
  { s with mem := Function.update s.mem f bytes }

def setNode (s : Kernel) (i : ℕ) (n : Page) : Kernel :=
  { s with node := Function.update s.node i n }

def setNext (s : Kernel) (i : ℕ) (n : Option ℕ) : Kernel :=
  s.setNode i { s.node i with next := n }

def setPrev (s : Kernel) (i : ℕ) (n : Option ℕ) : Kernel :=
  s.setNode i { s.node i with prev := n }

section
variable {s : Kernel} {d v d' v' i t : ℕ} {e : Pte}

theorem walkpgdir_of_none (h : s.dirs d = none) : s.walkpgdir d v = none := by
  rw [walkpgdir, h]

theorem walkpgdir_of_some {D : Dir} (h : s.dirs d = some D) :
    s.walkpgdir d v = (D.table (v / 1024)).map fun _ => D.pte v := by
  rw [walkpgdir, h]
  cases hT : D.table (v / 1024) <;> simp [hT]

theorem look_of_walk (h : s.walkpgdir d v = some e) : s.look d v = e := by rw [look, h]; rfl

theorem look_of_not_walk (h : s.walkpgdir d v = none) : s.look d v = Pte.zero := by
  rw [look, h]; rfl

theorem walk_of_look (h : s.look d v ≠ Pte.zero) : s.walkpgdir d v = some (s.look d v) := by
  cases hw : s.walkpgdir d v with
  | none => exact absurd (look_of_not_walk hw) h
  | some e => rw [look_of_walk hw]

theorem walk_of_present (h : (s.look d v).p = true) : s.walkpgdir d v = some (s.look d v) := by
  apply walk_of_look
  intro e
  simp [e] at h

theorem own_page_of_present (h : (s.look d v).p = true) :
    s.own (.page d v) = some (s.look d v).pfn := if_pos h

theorem own_page_of_absent (h : (s.look d v).p = false) : s.own (.page d v) = none := by
  rw [own, h]; rfl

theorem own_dir : s.own (.dir d) = if (s.dirs d).isSome then some d else none := rfl

theorem own_page : s.own (.page d v) =
    if (s.look d v).p then some (s.look d v).pfn else none := rfl

theorem look_congr {s' : Kernel} (h : s'.dirs = s.dirs) : s'.look d v = s.look d v := by
  rw [look, look, walkpgdir, walkpgdir, h]

theorem walkpgdir_congr {s' : Kernel} (h : s'.dirs = s.dirs) :
    s'.walkpgdir d v = s.walkpgdir d v := by
  rw [walkpgdir, walkpgdir, h]

theorem own_congr {s' : Kernel} (h : s'.dirs = s.dirs) : s'.own = s.own := by
  funext o
  cases o with
  | dir d => rw [own_dir, own_dir, h]
  | table d i => rw [own, own, h]
  | page d v => rw [own_page, own_page, look_congr h]

end

end Kernel
end Swap
