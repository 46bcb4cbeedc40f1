import Coursework.Swap.Core

/-! The page allocator with swapping: the swap bitmap, the LRU ring, `kalloc`, `kfree`,
`swapout` and `clock`, with `swapread` and `swapwrite` of the file system. -/
namespace Swap
open Program

/-- The address of a `struct page`. -/
def pageAddr (base : ℕ) : Option ℕ → ℕ
  | none => 0
  | some i => base + 16 * i

/-- `P2V` of a frame, with `0` for `NULL`. -/
def kernelAddr (f : ℕ) : ℕ := if f = 0 then 0 else 0x80000000 + 4096 * f

/-- The four words of a `struct page`. -/
def Page.word (base : ℕ) (n : Page) : ℕ → ℕ
  | 0 => pageAddr base n.next
  | 1 => pageAddr base n.prev
  | 2 => kernelAddr n.pgdir
  | _ => n.vaddr

/-- `is_struct_page_available`. -/
def Page.isAvailable (n : Page) : Bool :=
  n.vaddr == 0 && n.pgdir == 0 && n.next == none && n.prev == none

namespace Kernel

/-- The byte at distance `o` from the start of `linked_list`, which has 1536 nodes. -/
def listByte (s : Kernel) (o : ℕ) : ℕ :=
  if o < 24576 then ((s.node (o / 16)).word s.listBase (o % 16 / 4) / 256 ^ (o % 4)) % 256
  else s.behind s.swapouts (o - 24576)

/-- The memory from a `struct page` on. -/
def structBytes (s : Kernel) (i o : ℕ) : ℕ := s.listByte (16 * i + o)

def setBitmap (s : Kernel) (idx : ℕ) (val : Bool) : Kernel :=
  { s with bitmap := Function.update s.bitmap idx val }

def setSector (s : Kernel) (n : ℕ) (bytes : ℕ → ℕ) : Kernel :=
  { s with disk := Function.update s.disk n bytes }

/-- `get_available_bitmap`, which passes by slot `0`. -/
def getAvailableBitmap (s : Kernel) : ℤ :=
  match (List.range' 1 32766).find? fun i => !s.bitmap i with
  | some i => i
  | none => -1

def getAvailableLinkedList (s : Kernel) : Option ℕ :=
  (List.range' 0 1536).find? fun i => (s.node i).isAvailable

/-- The page `v` filled with junk and put on the free list. -/
def pushFree (s : Kernel) (v : ℕ) : Kernel :=
  { s.setMem v (fun _ => 1) with freelist := v :: s.freelist, held := s.held.erase v }

/-- The record of an eviction. -/
def evict (s : Kernel) (d v : ℕ) (e : Eviction) : Kernel :=
  { s with
    evicted := Function.update s.evicted d (Function.update (s.evicted d) v (some e))
    swapouts := s.swapouts + 1 }

end Kernel

def changeBitmap (idx : ℕ) (val : Bool) : M Unit := change fun s => s.setBitmap idx val

def initLru : M Unit :=
  change fun s => { s with node := fun _ => Page.zero, head := none, numFree := 1536, numLru := 0 }

/-- The links of `lru_append`: `insert` goes between `head` and its successor and becomes
`head`. -/
def linkHead (insert : ℕ) : M Unit := do
  let s ← read
  if s.numLru = 0 then
    change fun s =>
      { (s.setPrev insert (some insert)).setNext insert (some insert) with head := some insert }
  else
    match s.head with
    | none => stop .fault
    | some head =>
      if s.numLru = 1 then
        change fun s =>
          { (((s.setNext head (some insert)).setPrev head (some insert)).setPrev insert
              (some head)).setNext insert (some head) with head := some insert }
      else
        match (s.node head).next with
        | none => stop .fault
        | some tmp =>
          change fun s =>
            { (((s.setNext head (some insert)).setPrev insert (some head)).setPrev tmp
                (some insert)).setNext insert (some tmp) with head := some insert }

def lruAppend (pgdir vaddr : ℕ) : M Unit := do
  let s ← read
  match s.getAvailableLinkedList with
  | none => stop .noLinkedList
  | some idx =>
    if s.numFree = 0 then stop .lruFull
    else do
      change fun s => s.setNode idx { s.node idx with pgdir := pgdir, vaddr := vaddr }
      linkHead idx
      change fun s => { s with numFree := s.numFree - 1, numLru := s.numLru + 1 }

/-- If the head is deleted, its successor inherits. -/
def passHead (node : ℕ) : M Unit :=
  change fun s => if s.head = some node then { s with head := (s.node node).next } else s

/-- The links of `lru_delete`. -/
def unlink (node : ℕ) : M Unit := do
  let s ← read
  if s.numLru = 1 then change fun s => { s with head := none }
  else
    match (s.node node).prev, (s.node node).next with
    | some prev, some next => change fun s => (s.setNext prev (some next)).setPrev next (some prev)
    | _, _ => stop .fault

def lruDelete (node : ℕ) : M Unit := do
  let s ← read
  if s.numLru = 0 then stop .lruEmpty
  else do
    passHead node
    unlink node
    change fun s =>
      { s.setNode node Page.zero with numFree := s.numFree + 1, numLru := s.numLru - 1 }

/-- The scan of `kfree` over the ring, from `cur` on, for a node whose entry has the frame
`v`. -/
def scanLru (v : ℕ) : ℕ → Option ℕ → M Unit
  | 0, _ => pure ()
  | _ + 1, none => stop .fault
  | n + 1, some cur => do
    let s ← read
    match s.walkpgdir (s.node cur).pgdir ((s.node cur).vaddr / 4096) with
    | none => stop .fault
    | some pte => if pte.pfn = v then lruDelete cur else scanLru v n (s.node cur).next

/-- The frame `v` taken off the ring, unless the ring is empty. -/
def unlist (v : ℕ) : M Unit := do
  let s ← read
  match s.head with
  | none => pure ()
  | some head => scanLru v s.numLru (some head)

def kfree (v : ℕ) : M Unit := do
  let s ← read
  if v < s.kend ∨ 1536 ≤ v then stop .kfree
  else do
    unlist v
    change fun s => s.pushFree v

/-- The loop of `clock`, which clears accessed bits on its way. A walk that needs a page
table would enter `kalloc` with its lock held. -/
def clockFrom : ℕ → M ℕ
  | 0 => stop .spin
  | n + 1 => do
    let s ← read
    match s.head with
    | none => stop .fault
    | some head =>
      if (s.node head).vaddr = 0 then stop .invalidHead
      else
        match s.walkpgdir (s.node head).pgdir ((s.node head).vaddr / 4096) with
        | none => stop .acquire
        | some pte =>
          if pte.a then do
            change fun s =>
              { s.setPte (s.node head).pgdir ((s.node head).vaddr / 4096) { pte with a := false }
                with head := (s.node head).prev }
            clockFrom n
          else do
            change fun s => { s with head := (s.node head).prev }
            return head

/-- `clock`: once around the ring all accessed bits are clear. -/
def clock : M ℕ := do
  let s ← read
  clockFrom (s.numLru + 1)

def swapwrite (ptr : ℕ → ℕ) (blkno : ℤ) : M Unit :=
  if blkno < 0 ∨ 12437 ≤ blkno then stop (.swapRange blkno)
  else
    (List.range' 0 8).forM fun i =>
      change fun s => s.setSector (blkno.toNat * 8 + 500 + i) fun o => ptr (i * 512 + o)

/-- `swapread` into the frame `f`. -/
def swapread (f : ℕ) (blkno : ℤ) : M Unit :=
  if blkno < 0 ∨ 12437 ≤ blkno then stop (.swapRange blkno)
  else
    (List.range' 0 8).forM fun i =>
      change fun s => s.setMem f fun o =>
        if i * 512 ≤ o ∧ o < (i + 1) * 512 then
          s.disk (blkno.toNat * 8 + 500 + i) (o - i * 512)
        else s.mem f o

/-- The part of `swapout` after the choice of slot and victim. It hands `swapwrite` the
address of the `struct page`. -/
def evictVictim (victim : ℕ) (blockNumber : ℤ) : M ℕ := do
  let s ← read
  let pgdir := (s.node victim).pgdir
  let v := (s.node victim).vaddr / 4096
  match s.walkpgdir pgdir v with
  | none => stop .acquire
  | some pte => do
    swapwrite (s.structBytes victim) blockNumber
    change fun s => s.evict pgdir v ⟨s.mem pte.pfn, s.structBytes victim, pte⟩
    changeBitmap blockNumber.toNat true
    kfree pte.pfn
    change fun s => s.setPte pgdir v { s.look pgdir v with pfn := blockNumber.toNat, p := false }
    return pte.pfn

def swapout : M ℕ := do
  let s ← read
  if s.numFree = 0 then stop .oom
  else do
    let victim ← clock
    evictVictim victim s.getAvailableBitmap

/-- The frame that `kalloc` returns: the head of the free list, or a page swapped out. -/
def takeFrame : M ℕ := do
  let s ← read
  match s.freelist with
  | [] => swapout
  | r :: rest => do
    change fun s => { s with freelist := rest }
    return r

/-- `kalloc`. From its return on the caller holds the frame. -/
def kalloc : M ℕ := do
  let before ← read
  let r ← takeFrame
  let after ← read
  emit ⟨before, r, after⟩
  change fun s => { s with held := r :: s.held }
  return r

end Swap
