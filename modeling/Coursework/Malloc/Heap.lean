import Coursework.Lib.Tiling
import Coursework.Lib.Ring
import Mathlib.Logic.Function.Basic

/-! The allocator of the user programs: a circular list of free blocks in the order of their
addresses, starting at `base`. Addresses count in units of a `Header`. -/
namespace Malloc

/-- The two words of each unit of memory, which are `s.ptr` and `s.size` where it is a header;
`freep`, 0 if null; and the break of the process. -/
structure Heap where
  ptr : ℕ → ℕ
  size : ℕ → ℕ
  freep : ℕ
  brk : ℕ

def Heap.setPtr (s : Heap) (p q : ℕ) : Heap := { s with ptr := Function.update s.ptr p q }

def Heap.setSize (s : Heap) (p n : ℕ) : Heap := { s with size := Function.update s.size p n }

section Fields
variable (s : Heap) (p q n : ℕ)

@[simp] theorem setPtr_size : (s.setPtr p q).size = s.size := rfl

@[simp] theorem setPtr_freep : (s.setPtr p q).freep = s.freep := rfl

@[simp] theorem setPtr_brk : (s.setPtr p q).brk = s.brk := rfl

@[simp] theorem setPtr_ptr_self : (s.setPtr p q).ptr p = q := Function.update_self ..

theorem setPtr_ptr_of_ne {p' : ℕ} (h : p' ≠ p) : (s.setPtr p q).ptr p' = s.ptr p' :=
  Function.update_of_ne h ..

@[simp] theorem setSize_ptr : (s.setSize p n).ptr = s.ptr := rfl

@[simp] theorem setSize_freep : (s.setSize p n).freep = s.freep := rfl

@[simp] theorem setSize_brk : (s.setSize p n).brk = s.brk := rfl

@[simp] theorem setSize_size_self : (s.setSize p n).size p = n := Function.update_self ..

theorem setSize_size_of_ne {p' : ℕ} (h : p' ≠ p) : (s.setSize p n).size p' = s.size p' :=
  Function.update_of_ne h ..

end Fields

/-- The first loop of `free`, from `p` on. -/
def scan (bp : ℕ) : ℕ → ℕ → Heap → Option ℕ
  | 0, _, _ => none
  | fuel + 1, p, s =>
    if (p < bp ∧ bp < s.ptr p) ∨ (s.ptr p ≤ p ∧ (p < bp ∨ bp < s.ptr p)) then some p
    else scan bp fuel (s.ptr p) s

/-- The first `if` of `free`: the block after `bp`, the free block after `p`, is joined to it. -/
def joinNext (bp p : ℕ) (s : Heap) : Heap :=
  if bp + s.size bp = s.ptr p then
    (s.setSize bp (s.size bp + s.size (s.ptr p))).setPtr bp (s.ptr (s.ptr p))
  else s.setPtr bp (s.ptr p)

/-- The second one: `bp` is joined to the free block `p` before it. -/
def joinPrev (bp p : ℕ) (s : Heap) : Heap :=
  if p + s.size p = bp then (s.setSize p (s.size p + s.size bp)).setPtr p (s.ptr bp)
  else s.setPtr p bp

/-- The number of rounds that a loop over the free blocks may take. -/
def Heap.fuel (s : Heap) : ℕ := 2 * s.brk + 4

/-- `none` if the loop does not end. -/
def free (ap : ℕ) (s : Heap) : Option Heap :=
  let bp := ap - 1
  (scan bp s.fuel s.freep s).map fun p => { joinPrev bp p (joinNext bp p s) with freep := p }

/-- `sbrk` grows the process unless the kernel refuses. The result is 0 for null. `sbrk` takes the
bytes as an `int`; what it does with a negative one is left out. -/
def morecore (grants : Bool) (nu : ℕ) (s : Heap) : Option (ℕ × Heap) :=
  let nu := if nu < 4096 then 4096 else nu
  if 2147483648 ≤ 8 * nu then none
  else if grants = true then
    (free (s.brk + 1) ({ s with brk := s.brk + nu }.setSize s.brk nu)).map fun s => (s.freep, s)
  else some (0, s)

/-- The block `p`, which is large enough, or the end of it. -/
def take (nunits prevp p : ℕ) (s : Heap) : ℕ × Heap :=
  if s.size p = nunits then (p + 1, { s.setPtr prevp (s.ptr p) with freep := prevp })
  else
    (p + (s.size p - nunits) + 1,
      { (s.setSize p (s.size p - nunits)).setSize (p + (s.size p - nunits)) nunits with
        freep := prevp })

/-- The loop of `malloc`. -/
def search (grants : Bool) (nunits : ℕ) : ℕ → ℕ → ℕ → Heap → Option (ℕ × Heap)
  | 0, _, _, _ => none
  | fuel + 1, prevp, p, s =>
    if nunits ≤ s.size p then some (take nunits prevp p s)
    else if p = s.freep then
      (morecore grants nunits s).bind fun r =>
        if r.1 = 0 then some (0, r.2) else search grants nunits fuel r.1 (r.2.ptr r.1) r.2
    else search grants nunits fuel p (s.ptr p) s

/-- `nunits`, with the sum in a `uint`. -/
def units (nbytes : ℕ) : ℕ := (nbytes + 7) % 4294967296 / 8 + 1

/-- The first call sets up the list. -/
def start (base : ℕ) (s : Heap) : Heap :=
  if s.freep = 0 then { (s.setPtr base base).setSize base 0 with freep := base } else s

def malloc (base : ℕ) (grants : Bool) (nbytes : ℕ) (s : Heap) : Option (ℕ × Heap) :=
  let s := start base s
  search grants (units nbytes) (s.fuel + units nbytes + 4096) s.freep (s.ptr s.freep) s

end Malloc
