import Coursework.Nand.View
import Coursework.Sector.Request

/-! The page-mapping core of the FTLs of labs 2 and 3: `get_victim_pblk`,
`garbage_collection` and `write_through_lpn`. The two labs differ in their geometry
and in the block ages lab 3 keeps, so the core is generic in both. Every function of
the core is called for one bank and touches only that bank's row of each array. -/
namespace PageMap
open Nand Sector

/-- The macros of `ftl.h` that the core uses. The reserved block and the pages of the
others leave room for every logical page and one more. -/
structure Geometry where
  blksPerBank : ℕ
  pagesPerBlk : ℕ
  nLpnsPb : ℕ
  pages_pos : 0 < pagesPerBlk
  spare_room : nLpnsPb < (blksPerBank - 1) * pagesPerBlk

/-- What else a lab records when a block gets its first page and when it is erased. -/
structure Hooks (α : Type) where
  opened : (freePblk blk : ℕ) → α → α
  erased : (blk : ℕ) → α → α

/-- One bank's row of the global arrays. A mapping entry is `-1` or a page number. -/
structure Row (α : Type) where
  l2p : ℕ → ℤ
  isValid : ℕ → Bool
  nextPpn : ℕ
  gcTriggerPpn : ℕ
  freePblk : ℕ
  aux : α

/-- `isValid[bank][ppn] = 0`. -/
def Row.invalidate {α : Type} (r : Row α) (ppn : ℕ) : Row α :=
  { r with isValid := Function.update r.isValid ppn false }

/-- `L2P[bank][lpn] = -1`. -/
def Row.reset {α : Type} (r : Row α) (lpn : ℕ) : Row α :=
  { r with l2p := Function.update r.l2p lpn (-1) }

/-- `struct ftl_stats`. -/
structure Stats where
  gcCnt : ℕ
  hostWrite : ℕ
  nandWrite : ℕ
  gcWrite : ℕ

/-- What a call for one bank works on: its row, the NAND, the statistics, the contents
of an uninitialised local page, and (a ghost) the NAND return codes the code ignores. -/
structure Bank (α : Type) extends Row α where
  nand : Device Sectors ℕ
  stats : Stats
  stack : Page Sectors ℕ
  codes : List Code

variable {α : Type}

/-- The number of pages of a block flagged invalid. -/
def invalidCnt (g : Geometry) (isValid : ℕ → Bool) (pblk : ℕ) : ℕ :=
  Paging.clearCount g.pagesPerBlk isValid pblk

/-- The loop of `get_victim_pblk` over the blocks `n - 1, …, 0`, with
`(max_invalid_cnt, ret_pblk)` so far. -/
def scanVictim (cnt : ℕ → ℕ) : ℕ → ℕ × ℕ → ℕ × ℕ
  | 0, acc => acc
  | n + 1, acc => scanVictim cnt n (if acc.1 ≤ cnt n then (cnt n, n) else acc)

/-- `get_victim_pblk` (lab 2) and `get_victim_pblk_greedy` (lab 3). The local `ret_pblk`
starts uninitialised, but the first block examined always sets it. -/
def getVictimPblk (g : Geometry) (isValid : ℕ → Bool) : ℕ :=
  (scanVictim (invalidCnt g isValid) g.blksPerBank (0, 0)).2

/-- One round of the copy loop of `garbage_collection`: page `i` of the victim. -/
def gcPage (g : Geometry) (h : Hooks α) (bank victim : ℕ) (st : Bank α × ℕ) (i : ℕ) :
    Bank α × ℕ :=
  let s := st.1
  let immigrantsCnt := st.2
  if s.isValid (victim * g.pagesPerBlk + i) then
    let rd := nandRead s.nand bank victim i s.stack.data s.stack.spare
    let aux := if immigrantsCnt = 0 then h.opened s.freePblk s.freePblk s.aux else s.aux
    let wr := nandWrite s.nand bank s.freePblk immigrantsCnt rd.2.data rd.2.spare
    ({ s with
        nand := wr.1
        aux := aux
        stats := { s.stats with gcWrite := s.stats.gcWrite + 1 }
        l2p := Function.update s.l2p rd.2.spare
          ((s.freePblk * g.pagesPerBlk + immigrantsCnt : ℕ) : ℤ)
        codes := wr.2 :: rd.1 :: s.codes }, immigrantsCnt + 1)
  else st

/-- The copy loop after its first `i` rounds, with `immigrants_cnt`. -/
def gcLoop (g : Geometry) (h : Hooks α) (bank victim : ℕ) (s : Bank α) : ℕ → Bank α × ℕ
  | 0 => (s, 0)
  | i + 1 => gcPage g h bank victim (gcLoop g h bank victim s i) i

/-- `garbage_collection` with the victim already chosen. -/
def collect (g : Geometry) (h : Hooks α) (bank victim : ℕ) (s : Bank α) : Bank α :=
  let st := gcLoop g h bank victim s g.pagesPerBlk
  let s' := st.1
  let er := nandErase s'.nand bank victim
  { s' with
    isValid := fun p => if victim * g.pagesPerBlk ≤ p ∧
      p < victim * g.pagesPerBlk + g.pagesPerBlk then true else s'.isValid p
    nextPpn := s'.freePblk * g.pagesPerBlk + st.2
    gcTriggerPpn := s'.freePblk * g.pagesPerBlk + g.pagesPerBlk
    aux := h.erased victim s'.aux
    nand := er.1
    codes := er.2 :: s'.codes
    freePblk := victim }

/-- `garbage_collection` under the greedy policy. -/
def garbageCollection (g : Geometry) (h : Hooks α) (bank : ℕ) (s : Bank α) : Bank α :=
  collect g h bank (getVictimPblk g s.isValid)
    { s with stats := { s.stats with gcCnt := s.stats.gcCnt + 1 } }

/-- `write_through_lpn` once the next page may be used. -/
def appendLpn (g : Geometry) (h : Hooks α) (bank lpn : ℕ) (data : Sectors) (s : Bank α) :
    Bank α :=
  let isValid := if s.l2p lpn ≠ -1 then Function.update s.isValid (s.l2p lpn).toNat false
    else s.isValid
  let aux := if s.nextPpn % g.pagesPerBlk = 0 then
      h.opened s.freePblk (s.nextPpn / g.pagesPerBlk) s.aux
    else s.aux
  let wr := nandWrite s.nand bank ((s.nextPpn : ℤ) / g.pagesPerBlk)
    ((s.nextPpn : ℤ) % g.pagesPerBlk) data lpn
  { s with
    isValid := isValid
    l2p := Function.update s.l2p lpn s.nextPpn
    aux := aux
    nand := wr.1
    codes := wr.2 :: s.codes
    stats := { s.stats with nandWrite := s.stats.nandWrite + 1 }
    nextPpn := s.nextPpn + 1 }

def writeThroughLpn (g : Geometry) (h : Hooks α) (bank lpn : ℕ) (data : Sectors)
    (s : Bank α) : Bank α :=
  appendLpn g h bank lpn data
    (if s.nextPpn = s.gcTriggerPpn then garbageCollection g h bank s else s)

end PageMap
