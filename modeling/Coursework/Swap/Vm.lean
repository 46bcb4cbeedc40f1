import Coursework.Swap.Kalloc

/-! Address spaces: `setupkvm`, `inituvm`, `allocuvm`, `deallocuvm`, `freevm` and `copyuvm`,
the page fault that enters `swapin`, and the steps of the system. -/
namespace Swap
open Program

/-- `walkpgdir` with allocation: afterwards the page `v` has a page table. -/
def walkpgdirAlloc (d v : ℕ) : M Unit := do
  let s ← read
  match s.dirs d with
  | none => stop .fault
  | some D =>
    match D.table (v / 1024) with
    | some _ => pure ()
    | none => do
      let pgtab ← kalloc
      change fun s => s.addTable d (v / 1024) pgtab

/-- `mappages` for one page. -/
def mappages (d v : ℕ) (e : Pte) : M Unit := do
  walkpgdirAlloc d v
  let s ← read
  if (s.look d v).p then stop .remap
  else change fun s => s.setPte d v { e with p := true }

/-- The page tables of the ranges in `kmap`: `KERNBASE` to `KERNBASE + PHYSTOP`, and the
devices from `DEVSPACE` on. -/
def kernelTables : List ℕ := [512, 513, 1016, 1017, 1018, 1019, 1020, 1021, 1022, 1023]

/-- `setupkvm`. The entries of the kernel half never change and no address of it is swapped,
so only its page tables are kept. -/
def setupkvm : M ℕ := do
  let pgdir ← kalloc
  change fun s => s.addDir pgdir
  kernelTables.forM fun i => walkpgdirAlloc pgdir (1024 * i)
  return pgdir

def inituvm (d : ℕ) (init : ℕ → ℕ) (sz : ℕ) : M Unit :=
  if 4096 ≤ sz then stop .morePage
  else do
    let mem ← kalloc
    change fun s => s.setMem mem fun _ => 0
    mappages d 0 ⟨mem, true, true, true, false, false⟩
    change fun s => s.setMem mem fun o => if o < sz then init o else s.mem mem o
    initLru
    lruAppend d 0

/-- The pages whose addresses lie in `[lo, hi)`. -/
def pageRange (lo hi : ℕ) : List ℕ :=
  List.range' ((lo + 4095) / 4096) ((hi + 4095) / 4096 - (lo + 4095) / 4096)

/-- One round of `allocuvm`. -/
def allocPage (d v : ℕ) : M Unit := do
  let mem ← kalloc
  change fun s => s.setMem mem fun _ => 0
  mappages d v ⟨mem, true, true, true, false, false⟩
  lruAppend d (4096 * v)

def allocuvm (d oldsz newsz : ℕ) : M ℕ :=
  if 0x80000000 ≤ newsz then pure 0
  else if newsz < oldsz then pure oldsz
  else do
    (pageRange oldsz newsz).forM fun v => allocPage d v
    return newsz

/-- One round of `deallocuvm`. Pages without a page table are passed by. -/
def deallocPage (d v : ℕ) : M Unit := do
  let s ← read
  match s.walkpgdir d v with
  | none => pure ()
  | some pte =>
    if pte.p then
      if pte.pfn = 0 then stop .kfree
      else do
        kfree pte.pfn
        change fun s => s.setPte d v Pte.zero
    else pure ()

def deallocuvm (d oldsz newsz : ℕ) : M ℕ :=
  if oldsz ≤ newsz then pure oldsz
  else do
    (pageRange newsz oldsz).forM fun v => deallocPage d v
    return newsz

/-- One round of the loop of `freevm` over the directory. -/
def freeTable (d i : ℕ) : M Unit := do
  let s ← read
  match (s.dirs d).bind fun D => D.table i with
  | none => pure ()
  | some t => do
    kfree t
    change fun s => s.dropTable d i

def freevm (d : ℕ) : M Unit := do
  let _ ← deallocuvm d 0x80000000 0
  (List.range' 0 1024).forM fun i => freeTable d i
  kfree d
  change fun s => s.dropDir d

/-- One round of `copyuvm`, which does not append the page to the ring. -/
def copyPage (d child v : ℕ) : M Unit := do
  let s ← read
  match s.walkpgdir d v with
  | none => stop .noPte
  | some pte =>
    if pte.p then do
      let mem ← kalloc
      change fun s => s.setMem mem (s.mem pte.pfn)
      mappages child v { pte with pfn := mem }
    else stop .notPresent

def copyuvm (d sz : ℕ) : M ℕ := do
  let child ← setupkvm
  (pageRange 0 sz).forM fun v => copyPage d child v
  return child

/-- `swapread` if the bitmap has the slot. -/
def readSlot (f blockNumber : ℕ) : M Unit := do
  let s ← read
  if s.bitmap blockNumber then swapread f blockNumber else pure ()

/-- `swapin` at the address `fltAddr`; `-1` has the process killed. -/
def swapin (d fltAddr : ℕ) : M ℤ := do
  walkpgdirAlloc d (fltAddr / 4096)
  let s ← read
  let pte := s.look d (fltAddr / 4096)
  if pte.Swapped then do
    let mem ← kalloc
    readSlot mem pte.pfn
    change fun s =>
      s.setPte d (fltAddr / 4096) { s.look d (fltAddr / 4096) with pfn := mem, p := true }
    lruAppend d fltAddr
    changeBitmap pte.pfn false
    return 0
  else return -1

/-- An access of a process to the address `va`, a store if a byte is given. The processor
sets the flags of the entry, or raises the fault that enters `swapin`. -/
def access (d va : ℕ) (byte : Option ℕ) : M Unit := do
  let s ← read
  let pte := s.look d (va / 4096)
  if pte.p && pte.u && (byte.isNone || pte.w) then
    change fun s =>
      (s.setPte d (va / 4096) { pte with a := true, d := pte.d || byte.isSome }).setMem pte.pfn
        fun o => if o = va % 4096 then byte.getD (s.mem pte.pfn o) else s.mem pte.pfn o
  else do
    let _ ← swapin d va
    pure ()

/-- The steps of the system. `kalloc` and `kfree` are calls from other parts of the kernel,
which hold the frames listed in `kernel`. -/
inductive Op where
  | kalloc
  | kfree (k : ℕ)
  | setupkvm
  | inituvm (d : ℕ) (init : ℕ → ℕ) (sz : ℕ)
  | allocuvm (d oldsz newsz : ℕ)
  | deallocuvm (d oldsz newsz : ℕ)
  | copyuvm (d sz : ℕ)
  | freevm (d : ℕ)
  | access (d va : ℕ) (byte : Option ℕ)

/-- A frame taken for another part of the kernel. -/
def kernelAlloc : M Unit := do
  let f ← kalloc
  change fun s => { s with kernel := f :: s.kernel }

/-- The `k`-th frame that other parts of the kernel hold, freed. -/
def kernelFree (k : ℕ) : M Unit := do
  let s ← read
  match s.kernel[k]? with
  | none => pure ()
  | some f => do
    kfree f
    change fun s => { s with kernel := s.kernel.erase f }

/-- The step `op`. -/
def exec : Op → M Unit
  | .kalloc => kernelAlloc
  | .kfree k => kernelFree k
  | .setupkvm => do
    let _ ← setupkvm
    pure ()
  | .inituvm d init sz => inituvm d init sz
  | .allocuvm d oldsz newsz => do
    let _ ← allocuvm d oldsz newsz
    pure ()
  | .deallocuvm d oldsz newsz => do
    let _ ← deallocuvm d oldsz newsz
    pure ()
  | .copyuvm d sz => do
    let _ ← copyuvm d sz
    pure ()
  | .freevm d => freevm d
  | .access d va byte => access d va byte

/-- What the callers see to: the directory exists, and sizes and addresses are in range. -/
def Legal (s : Kernel) : Op → Prop
  | .kalloc | .kfree _ | .setupkvm => True
  | .inituvm d _ _ | .allocuvm d _ _ | .freevm d => (s.dirs d).isSome
  | .deallocuvm d oldsz _ => (s.dirs d).isSome ∧ oldsz ≤ 0x80000000
  | .copyuvm d sz => (s.dirs d).isSome ∧ sz ≤ 0x80000000
  | .access d va _ => (s.dirs d).isSome ∧ va < 2 ^ 32

/-- The state after `main` has set up the allocator and before the first process: the frames
in use are those of the kernel itself, and the ring and the bitmap are zero. -/
structure Boot (s : Kernel) : Prop where
  nodup : s.freelist.Nodup
  frames : ∀ f ∈ s.freelist, f < 1536
  kernel : s.kernel.Nodup
  kernel_frames : ∀ f ∈ s.kernel, f < 1536
  held : s.held = s.kernel
  apart : ∀ f ∈ s.freelist, f ∉ s.kernel
  dirs : ∀ d, s.dirs d = none
  node : ∀ i, s.node i = Page.zero
  head : s.head = none
  numFree : s.numFree = 0
  numLru : s.numLru = 0
  bitmap : ∀ k, s.bitmap k = false

end Swap
