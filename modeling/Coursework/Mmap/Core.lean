import Mathlib.Data.List.Basic
import Mathlib.Data.Int.Basic
import Mathlib.Logic.Function.Basic
import Mathlib.Algebra.Group.Nat.Defs

/-! The process state of the memory-mapping kernel, its page tables, the page allocator
and the reads and writes of open files. `none` is a panic. -/
namespace Mmap

def pgSize : ℕ := 4096
def kernBase : ℕ := 0x80000000
def margin : ℕ := 0x1000000
def nOfile : ℕ := 16

/-- Slots of `mm_arr`. -/
def nRegion : ℕ := 100

/-- `PHYSTOP` in frames. -/
def phystop : ℕ := 0xE000

/-- `MAXFILE*BSIZE` of this tree. -/
def maxFileBytes : ℕ := 140 * 512

/-- `(uint)x` on a 32-bit machine. -/
def uint (x : ℤ) : ℕ := (x % 4294967296).toNat

theorem uint_small {x : ℕ} (h : x < 4294967296) : uint x = x := by
  have e : (x : ℤ) % 4294967296 = x := Int.emod_eq_of_lt (by omega) (by omega)
  simp [uint, e]

theorem uint_add {x y : ℕ} (h : x + y < 4294967296) : uint ((x : ℤ) + y) = x + y := by
  rw [← Int.natCast_add]
  exact uint_small h

def pgRoundDown (a : ℕ) : ℕ := a - a % pgSize
def pgRoundUp (a : ℕ) : ℕ := pgRoundDown (a + pgSize - 1)

def mapProtRead (flags : ℕ) : Bool := flags.testBit 0
def mapProtWrite (flags : ℕ) : Bool := flags.testBit 1
def mapPopulate (flags : ℕ) : Bool := flags.testBit 4

/-- A page table entry: the frame it names and the flags `PTE_P`, `PTE_W`, `PTE_U`, `PTE_D`. -/
structure Pte where
  frame : ℕ
  p : Bool
  w : Bool
  u : Bool
  d : Bool
  deriving DecidableEq, Repr

/-- The word 0 as an entry. -/
def Pte.zero : Pte := ⟨0, false, false, false, false⟩

inductive FileType where
  | none
  | pipe
  | inode
  deriving DecidableEq

/-- `struct file`. -/
structure File where
  type : FileType
  ref : ℤ
  readable : Bool
  writable : Bool
  ip : ℕ
  off : ℕ

/-- The content of an inode; `dev` marks a device. -/
structure Inode where
  dev : Bool
  size : ℕ
  data : ℕ → ℕ

/-- `struct mmap_region`; a slot whose `fd` is 0 counts as free. -/
structure Region where
  fd : ℤ
  startVa : ℕ
  endVa : ℕ
  f : Option ℕ
  offset : ℕ
  flags : ℕ

inductive ProcState where
  | running
  | zombie
  deriving DecidableEq

/-- The part of `struct proc` that memory mapping uses. `table` gives the page-table page
of each page-directory entry, `pte` the entries by virtual page number. -/
structure Proc where
  sz : ℕ
  mmSz : ℕ
  mmCnt : ℤ
  mmArr : ℕ → Region
  ofile : ℕ → Option ℕ
  state : ProcState
  table : ℕ → Option ℕ
  pte : ℕ → Pte

/-- The machine while one process is in the kernel; `kend` is the first frame after the
kernel image, `input` what pipes and devices deliver to the reads to come, in order. -/
structure Sys where
  kend : ℕ
  input : List (List ℕ)
  freelist : List ℕ
  mem : ℕ → ℕ → ℕ
  file : ℕ → File
  inode : ℕ → Inode
  outstanding : ℕ
  proc : Proc

/-- Page-directory index and virtual page number of an address. -/
def pdx (va : ℕ) : ℕ := va / 4194304
def vpn (va : ℕ) : ℕ := va / pgSize

def Sys.setProc (s : Sys) (p : Proc) : Sys := { s with proc := p }

def Sys.setFile (s : Sys) (f : ℕ) (file : File) : Sys :=
  { s with file := Function.update s.file f file }

/-- `memset(mem, 0, PGSIZE)` and the like. -/
def Sys.memset (s : Sys) (f v : ℕ) : Sys :=
  { s with mem := Function.update s.mem f (fun _ => v) }

def kalloc (s : Sys) : Option ℕ × Sys :=
  match s.freelist with
  | [] => (none, s)
  | f :: rest => (some f, { s with freelist := rest })

/-- Puts a frame back; a frame outside the allocator's range is a panic. -/
def kfree (s : Sys) (f : ℕ) : Option Sys :=
  if f < s.kend ∨ phystop ≤ f then none
  else
    let s := s.memset f 1
    some { s with freelist := f :: s.freelist }

/-- `walkpgdir(pgdir, va, 0)`: the entry of an address whose page-table page exists. -/
def Proc.walkpgdir (p : Proc) (va : ℕ) : Option Pte :=
  (p.table (pdx va)).map fun _ => p.pte (vpn va)

def Proc.setPte (p : Proc) (va : ℕ) (e : Pte) : Proc :=
  { p with pte := Function.update p.pte (vpn va) e }

/-- `walkpgdir(pgdir, va, 1)` up to the existence of the page-table page: `false` when
there is no memory for it. -/
def ensureTable (s : Sys) (va : ℕ) : Bool × Sys :=
  match s.proc.table (pdx va) with
  | some _ => (true, s)
  | none =>
    match kalloc s with
    | (none, s) => (false, s)
    | (some t, s) =>
      let s := s.memset t 0
      (true, s.setProc { s.proc with
        table := Function.update s.proc.table (pdx va) (some t)
        pte := fun v => if v / 1024 = pdx va then Pte.zero else s.proc.pte v })

/-- `mappages` for one page at an aligned address: the result, and `none` for the panic
on an address that is already mapped. -/
def mappages (s : Sys) (va frame : ℕ) (w : Bool) : Option (ℤ × Sys) :=
  match ensureTable s va with
  | (false, s) => some (-1, s)
  | (true, s) =>
    if (s.proc.pte (vpn va)).p then none
    else some (0, s.setProc (s.proc.setPte va ⟨frame, true, w, true, false⟩))

/-- The `off` field behind a `struct file *`. The null pointer names the word at user
address 20, which is reachable exactly while page 0 is mapped. -/
def Sys.fileOff (s : Sys) : Option ℕ → Option ℕ
  | some f => some (s.file f).off
  | none =>
    match s.proc.walkpgdir 20 with
    | none => none
    | some e =>
      if e.p then
        some (s.mem e.frame 20 + 256 * s.mem e.frame 21 + 65536 * s.mem e.frame 22
          + 16777216 * s.mem e.frame 23)
      else none

/-- The assignment `fp->off = v` through a `struct file *`. -/
def Sys.setFileOff (s : Sys) (v : ℕ) : Option ℕ → Option Sys
  | some f => some (s.setFile f { s.file f with off := v })
  | none =>
    match s.proc.walkpgdir 20 with
    | none => none
    | some e =>
      if e.p then
        some { s with mem := Function.update s.mem e.frame (fun i =>
          if 20 ≤ i ∧ i < 24 then v / 256 ^ (i - 20) % 256 else s.mem e.frame i) }
      else none

/-- A read of at most `n` bytes from a pipe or a device into the start of a frame. -/
def Sys.deliver (s : Sys) (frame n : ℕ) : ℤ × Sys :=
  let bytes := (s.input.headD []).take n
  (bytes.length, { s with
    input := s.input.tail
    mem := Function.update s.mem frame (fun i => bytes.getD i (s.mem frame i)) })

/-- `readi` into the start of a frame. -/
def readi (s : Sys) (ip frame off n : ℕ) : ℤ × Sys :=
  let node := s.inode ip
  if node.dev then s.deliver frame n
  else if node.size < off ∨ uint (off + n) < off then (-1, s)
  else
    let n := if node.size < uint (off + n) then node.size - off else n
    (n, { s with mem := Function.update s.mem frame (fun i =>
      if i < n then node.data (off + i) else s.mem frame i) })

/-- `fileread` into the start of a frame. -/
def fileread (s : Sys) (f frame n : ℕ) : Option (ℤ × Sys) :=
  let fp := s.file f
  if fp.readable = false then some (-1, s)
  else
    match fp.type with
    | .pipe => some (s.deliver frame n)
    | .inode =>
      let (r, s) := readi s fp.ip frame fp.off n
      if 0 < r then some (r, s.setFile f { fp with off := uint (fp.off + r) })
      else some (r, s)
    | .none => none

/-- `writei` from the start of a frame; it panics outside a transaction. -/
def writei (s : Sys) (ip frame off n : ℕ) : Option (ℤ × Sys) :=
  let node := s.inode ip
  if node.dev then some (n, s)
  else if uint (off + n) < off then some (-1, s)
  else if node.size < off then some (-1, s)
  else if maxFileBytes < uint (off + n) then some (-1, s)
  else if n = 0 then some (0, s)
  else if s.outstanding = 0 then none
  else
    let node' : Inode := ⟨false, max node.size (off + n), fun i =>
      if off ≤ i ∧ i < off + n then s.mem frame (i - off) else node.data i⟩
    some (n, { s with inode := Function.update s.inode ip node' })

/-- `fileclose`: drops one reference, and panics when there is none. -/
def fileclose (s : Sys) (f : ℕ) : Option Sys :=
  let fp := s.file f
  if fp.ref < 1 then none
  else if 0 < fp.ref - 1 then some (s.setFile f { fp with ref := fp.ref - 1 })
  else some (s.setFile f { fp with ref := 0, type := .none })

/-- One round of the loop of `deallocuvm`. -/
def dropPage (s : Sys) (v : ℕ) : Option Sys :=
  match s.proc.table (v / 1024) with
  | none => some s
  | some _ =>
    if (s.proc.pte v).p then
      if (s.proc.pte v).frame = 0 then none
      else do
        let s ← kfree s (s.proc.pte v).frame
        some (s.setProc { s.proc with pte := Function.update s.proc.pte v Pte.zero })
    else some s

/-- The virtual pages of `[from, to)` when `from` is page aligned. -/
def pageRange (lo hi : ℕ) : List ℕ :=
  (List.range ((hi - lo + pgSize - 1) / pgSize)).map (lo / pgSize + ·)

def deallocuvm (s : Sys) (oldsz newsz : ℕ) : Option (ℕ × Sys) :=
  if oldsz ≤ newsz then some (oldsz, s)
  else do
    let s ← (pageRange (pgRoundUp newsz) oldsz).foldlM dropPage s
    some (newsz, s)

/-- The loop of `allocuvm` over the pages to add: `false` when memory runs out. -/
def growPages (oldsz newsz : ℕ) : List ℕ → Sys → Option (Bool × Sys)
  | [], s => some (true, s)
  | v :: vs, s =>
    match kalloc s with
    | (none, s) => do
      let (_, s) ← deallocuvm s newsz oldsz
      some (false, s)
    | (some m, s) => do
      let (r, s) ← mappages (s.memset m 0) (v * pgSize) m true
      if r < 0 then
        let (_, s) ← deallocuvm s newsz oldsz
        let s ← kfree s m
        some (false, s)
      else growPages oldsz newsz vs s

def allocuvm (s : Sys) (oldsz newsz : ℕ) : Option (ℕ × Sys) :=
  if kernBase ≤ newsz then some (0, s)
  else if newsz < oldsz then some (oldsz, s)
  else do
    let (ok, s) ← growPages oldsz newsz (pageRange (pgRoundUp oldsz) newsz) s
    some (if ok then newsz else 0, s)

def growproc (s : Sys) (n : ℤ) : Option (ℤ × Sys) :=
  let sz := s.proc.sz
  if 0 < n then do
    let (sz, s) ← allocuvm s sz (uint (sz + n))
    if sz = 0 then some (-1, s) else some (0, s.setProc { s.proc with sz := sz })
  else if n < 0 then do
    let (sz, s) ← deallocuvm s sz (uint (sz + n))
    if sz = 0 then some (-1, s) else some (0, s.setProc { s.proc with sz := sz })
  else some (0, s.setProc { s.proc with sz := sz })

end Mmap
