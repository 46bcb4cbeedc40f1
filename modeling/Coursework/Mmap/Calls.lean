import Coursework.Mmap.Core

/-! `mmap`, `munmap` and the page-fault handler. -/
namespace Mmap

/-- `get_valid_mmarr`: the first slot whose `fd` is 0. -/
def getValidMmarr (p : Proc) : Option ℕ :=
  (List.range nRegion).find? fun i => (p.mmArr i).fd = 0

def Proc.setRegion (p : Proc) (i : ℕ) (r : Region) : Proc :=
  { p with mmArr := Function.update p.mmArr i r }

/-- The address both kinds of `mmap` hand out. -/
def Proc.mapStart (p : Proc) : ℕ := uint (p.sz + p.mmSz + margin)

/-- The record of a successful `mmap` in slot `i`. -/
def Proc.record (p : Proc) (i : ℕ) (fd : ℤ) (offset : ℕ) (length : ℤ) (flags : ℕ)
    (f : Option ℕ) : Proc :=
  { p with
    mmCnt := p.mmCnt + 1
    mmSz := uint (p.mmSz + length)
    mmArr := Function.update p.mmArr i
      ⟨fd, p.mapStart, uint (p.sz + p.mmSz + margin + length), f, offset, flags⟩ }

def isMmapAvailable (s : Sys) (fd : ℤ) (flags : ℕ) (f : Option ℕ) : Option Bool :=
  if !(mapProtRead flags || mapProtWrite flags) then some false
  else if fd = -1 then some true
  else
    f.map fun f =>
      !((s.file f).readable && !(s.file f).writable
        && (mapProtRead flags && !mapProtWrite flags))

/-- A fresh page before it is mapped: zeroed, then read from the file unless the mapping
is anonymous. -/
def fillPage (s : Sys) (fd : ℤ) (f : Option ℕ) (m : ℕ) : Option Sys :=
  let s := s.memset m 0
  if fd = -1 then some s
  else
    match f with
    | none => none
    | some f => (fileread s f m pgSize).map Prod.snd

/-- The loop of `mmap_eager` over the pages of the region: `false` when memory runs out. -/
def eagerPages (fd : ℤ) (flags : ℕ) (f : Option ℕ) : List ℕ → Sys → Option (Bool × Sys)
  | [], s => some (true, s)
  | v :: vs, s =>
    match kalloc s with
    | (none, s) => some (false, s)
    | (some m, s) => do
      let s ← fillPage s fd f m
      let (_, s) ← mappages s (v * pgSize) m (mapProtWrite flags)
      eagerPages fd flags f vs s

/-- `mmap_eager`: the address, or `none` inside for `MAP_FAILED`. Past `0xFFFFF000` the
loop counter wraps and the loop has no end. -/
def mmapEager (s : Sys) (fd : ℤ) (offset : ℕ) (length : ℤ) (flags : ℕ) (f : Option ℕ) :
    Option (Option ℕ × Sys) :=
  let start := s.proc.mapStart
  let stop := uint (s.proc.sz + s.proc.mmSz + margin + length)
  match getValidMmarr s.proc with
  | none => some (none, s)
  | some i => do
    let saved ← s.fileOff f
    let s ← s.setFileOff offset f
    if 0xFFFFF000 < stop then none
    else
      let (ok, s) ← eagerPages fd flags f (pageRange (pgRoundDown start) stop) s
      if ok then
        let s ← s.setFileOff saved f
        some (some start, s.setProc (s.proc.record i fd offset length flags f))
      else some (none, s)

def mmapLazy (s : Sys) (fd : ℤ) (offset : ℕ) (length : ℤ) (flags : ℕ) (f : Option ℕ) :
    Option ℕ × Sys :=
  match getValidMmarr s.proc with
  | none => (none, s)
  | some i =>
    (some s.proc.mapStart, s.setProc (s.proc.record i fd offset length flags f))

/-- The entry of `ofile` at a descriptor. Index -1 is the word `killed` in front of the
table, which is 0 in a process that makes a system call. -/
def Proc.ofileAt (p : Proc) (fd : ℤ) : Option ℕ :=
  if 0 ≤ fd ∧ fd < nOfile then p.ofile fd.toNat else none

def mmap (s : Sys) (fd : ℤ) (offset : ℤ) (length : ℤ) (flags : ℕ) : Option (Option ℕ × Sys) :=
  if length.tmod 4096 ≠ 0 then some (none, s)
  else do
    let offset := uint (if fd = -1 then 0 else offset)
    let f := s.proc.ofileAt fd
    let ok ← isMmapAvailable s fd flags f
    if !ok then some (none, s)
    else if mapPopulate flags then mmapEager s fd offset length flags f
    else some (mmapLazy s fd offset length flags f)

/-- The loop of `munmap`: each page is freed, its entry stays as it is. `false` when a
page is not present. -/
def unmapPages : List ℕ → Sys → Option (Bool × Sys)
  | [], s => some (true, s)
  | v :: vs, s =>
    match s.proc.walkpgdir (v * pgSize) with
    | none => some (false, s)
    | some e =>
      if e.p then do
        let s ← kfree s e.frame
        unmapPages vs s
      else some (false, s)

/-- The region of `munmap`: the first recorded one that covers the range. -/
def coveringRegion (p : Proc) (startVa endVa : ℕ) : Option ℕ :=
  (List.range nRegion).find? fun i =>
    (p.mmArr i).fd ≠ 0 ∧ (p.mmArr i).startVa ≤ startVa ∧ endVa ≤ (p.mmArr i).endVa

/-- What `munmap` does to the region it found: dropped, cut at one end, or split. A split
without a free slot writes in front of `mm_arr`, which is left out. -/
def cutRegion (p : Proc) (i startVa endVa : ℕ) (length : ℤ) : Option Proc :=
  let r := p.mmArr i
  if r.startVa = startVa ∧ endVa = r.endVa then
    some { p.setRegion i { r with fd := 0 } with mmCnt := p.mmCnt - 1 }
  else if r.startVa = startVa then
    some (p.setRegion i { r with endVa := uint (r.endVa - length) })
  else if endVa = r.endVa then
    some (p.setRegion i { r with startVa := uint (r.startVa + length) })
  else
    match getValidMmarr p with
    | none => none
    | some j =>
      let p := p.setRegion i { r with endVa := startVa }
      some { p.setRegion j { r with startVa := endVa } with
        mmCnt := p.mmCnt + 1
        mmSz := uint (p.mmSz + ((r.endVa : ℤ) - endVa)) }

def munmap (s : Sys) (addr : ℕ) (length : ℤ) : Option (ℤ × Sys) :=
  if addr % 4096 ≠ 0 then some (-1, s)
  else if length.tmod 4096 ≠ 0 then some (-1, s)
  else
    let startVa := pgRoundDown addr
    let endVa := pgRoundDown (uint (addr + length))
    match coveringRegion s.proc startVa endVa with
    | none => some (0, s)
    | some i => do
      let r := s.proc.mmArr i
      let saved ← s.fileOff r.f
      let s ← s.setFileOff r.offset r.f
      let (ok, s) ← unmapPages (pageRange startVa endVa) s
      if ok then
        let s ← s.setFileOff saved r.f
        let p ← cutRegion s.proc i startVa endVa length
        some (0, s.setProc p)
      else some (-1, s)

/-- The region of the fault handler: the first recorded one that holds the address. -/
def faultRegion (p : Proc) (addr : ℕ) : Option ℕ :=
  (List.range nRegion).find? fun i =>
    (p.mmArr i).fd ≠ 0 ∧ (p.mmArr i).startVa ≤ addr ∧ addr < (p.mmArr i).endVa

/-- `page_fault_handler`; `write` is bit 1 of the error code. -/
def pageFaultHandler (s : Sys) (addr : ℕ) (write : Bool) : Option (ℤ × Sys) :=
  if kernBase ≤ addr then some (-1, s)
  else
    match faultRegion s.proc addr with
    | none => some (-1, s)
    | some i =>
      let r := s.proc.mmArr i
      if write && !mapProtWrite r.flags then some (-1, s)
      else do
        let s ← s.setFileOff r.offset r.f
        match kalloc s with
        | (none, s) => some (-1, s)
        | (some m, s) => do
          let s ← fillPage s r.fd r.f m
          let (_, s) ← mappages s (pgRoundDown addr) m (mapProtWrite r.flags)
          some (0, s)

/-- A process of five pages without regions or open files. -/
def fivePages : Sys where
  kend := 256
  freelist := []
  mem := fun _ _ => 0
  input := []
  file := fun _ => ⟨.none, 0, false, false, 0, 0⟩
  inode := fun _ => ⟨false, 0, fun _ => 0⟩
  outstanding := 0
  proc :=
    { sz := 0x5000
      mmSz := 0
      mmCnt := 0
      mmArr := fun _ => ⟨0, 0, 0, none, 0, 0⟩
      ofile := fun _ => none
      state := .running
      table := fun i => if i = 0 then some 300 else none
      pte := fun v => if v < 5 then ⟨310 + v, true, true, true, false⟩ else Pte.zero }

end Mmap
