import Coursework.Lib.Slots
import Coursework.Nand.View
import Coursework.Sector.Request

/-! The demand-paged FTL of project 1 (`PRJ1/workspace/ftl.c`, `ftl.h`): its state, and the
translation of logical pages through cached and evicted map pages. Every function of the
FTL is called for one bank and touches only that bank's row of each array. -/
namespace Dftl
open Nand Sector

def nBuffers : ℕ := 10
def nBanks : ℕ := 8
def blksPerBank : ℕ := 40
def pagesPerBlk : ℕ := 16
def opRatio : ℕ := 7
def mapEntrySize : ℕ := 4
def nMapEntriesPerPage : ℕ := 32 / mapEntrySize
def cmtRatio : ℕ := 5
def cmtSizePb : ℕ := blksPerBank * pagesPerBlk * 4 * cmtRatio / 100
def nSlotPb : ℕ :=
  let nCachedMapPagePbTemp := cmtSizePb / (mapEntrySize * nMapEntriesPerPage)
  if 0 < nCachedMapPagePbTemp then nCachedMapPagePbTemp else 1
def nPpnsPb : ℕ := blksPerBank * pagesPerBlk
def nMapPagesPb : ℕ := nPpnsPb / nMapEntriesPerPage
def nMapBlocksPb : ℕ := nMapPagesPb / pagesPerBlk
def nUserBlocksPb : ℕ := (blksPerBank - nMapBlocksPb) * 100 / (100 + opRatio)
def nOpBlocksPb : ℕ := blksPerBank - nMapBlocksPb - nUserBlocksPb
def nUserOpBlocksPb : ℕ := nOpBlocksPb * 6 / 10
def nPhyDataBlk : ℕ := nUserOpBlocksPb + nUserBlocksPb
def nLpnsPb : ℕ := nUserBlocksPb * pagesPerBlk
def nLpns : ℕ := nLpnsPb * nBanks

/-- `EMPTY`, `DATA` and `MAP` of `Block_Status`. -/
inductive Status where
  | empty | data | map
  deriving DecidableEq

/-- One bank's row of the global arrays; `-1` stands for no page in the integer ones. -/
structure Row where
  nextDataPpn : ℕ
  gcTriggerDataPpn : ℕ
  blockStatus : ℕ → Status
  isValid : ℕ → Bool
  isVpnFirstTime : ℕ → Bool
  cmtVpn : ℕ → ℤ
  cmtDirty : ℕ → Bool
  cmtData : ℕ → Sectors
  gtd : ℕ → ℤ
  nextMapPpn : ℕ
  gcTriggerMapPpn : ℕ
  bufferS2l : ℕ → ℤ
  bufferData : ℕ → Sectors
  bufferSpare : ℕ → ℤ

/-- `struct ftl_stats`. -/
structure Stats where
  gcCnt : ℕ
  mapGcCnt : ℕ
  hostWrite : ℕ
  nandWrite : ℕ
  gcWrite : ℕ
  mapWrite : ℕ
  mapGcWrite : ℕ
  cacheHit : ℕ
  cacheMiss : ℕ
  cmtHit : ℕ
  cmtMiss : ℕ

/-- One more look-up in the CMT. -/
def Stats.lookup (t : Stats) (hit : Bool) : Stats :=
  if hit then { t with cmtHit := t.cmtHit + 1 } else { t with cmtMiss := t.cmtMiss + 1 }

/-- What a run shows beside the globals: whether all assertions held, the NAND return codes
the code ignores, for each programmed page its kind and the kind of its block when the
function that programmed it ends, and the two data cursors at each return of data GC. -/
structure Trace where
  asserted : Bool
  codes : List Code
  placed : List (Status × Status)
  gcReturns : List (ℕ × ℕ)

/-- What all banks share. The two streams are the values `rand` will give to the two victim
selectors, and `stack` is the contents of an uninitialised local page. -/
structure Shared where
  nand : Device Sectors ℤ
  stats : Stats
  stack : Page Sectors ℤ
  dataVictims : ℕ → ℕ
  slotVictims : ℕ → ℕ
  trace : Trace

/-- What a call for one bank works on. -/
structure Bank extends Row, Shared

namespace Bank

/-- `assert(p)`. -/
def require (s : Bank) (p : Prop) [Decidable p] : Bank :=
  { s with trace := { s.trace with asserted := s.trace.asserted && decide p } }

/-- Note the return code of a NAND operation. -/
def returned (s : Bank) (c : Code) : Bank :=
  { s with trace := { s.trace with codes := c :: s.trace.codes } }

/-- Note that `n` pages of kind `k` went to block `blk`. -/
def place (s : Bank) (n : ℕ) (k : Status) (blk : ℕ) : Bank :=
  { s with trace := { s.trace with
    placed := List.replicate n (k, s.blockStatus blk) ++ s.trace.placed } }

/-- `isValid[bank][ppn] = INVALID`. -/
def invalidate (s : Bank) (ppn : ℕ) : Bank :=
  { s with isValid := Function.update s.isValid ppn false }

/-- `if(ppn >= 0) isValid[bank][ppn] = INVALID`. -/
def discard (s : Bank) (ppn : ℤ) : Bank :=
  { s with isValid := if 0 ≤ ppn then Function.update s.isValid ppn.toNat false else s.isValid }

/-- `isValid[bank][blk * PAGES_PER_BLK + i] = VALID` for all pages of the block. -/
def revalidate (s : Bank) (blk : ℕ) : Bank :=
  { s with isValid := fun p => if p / pagesPerBlk = blk then true else s.isValid p }

/-- `Block_Status[bank][blk] = k`. -/
def setStatus (s : Bank) (blk : ℕ) (k : Status) : Bank :=
  { s with blockStatus := Function.update s.blockStatus blk k }

/-- Set `Next_Map_PPN[bank]` and `GC_Trigger_Map_PPN[bank]`. -/
def setMapPpns (s : Bank) (next trig : ℕ) : Bank :=
  { s with nextMapPpn := next, gcTriggerMapPpn := trig }

/-- Set `Next_Data_PPN[bank]` and `GC_Trigger_Data_PPN[bank]`. -/
def setDataPpns (s : Bank) (next trig : ℕ) : Bank :=
  { s with nextDataPpn := next, gcTriggerDataPpn := trig }

/-- `GTD[bank][vpn] = ppn`. -/
def setGtd (s : Bank) (vpn ppn : ℕ) : Bank := { s with gtd := Function.update s.gtd vpn ppn }

/-- `CMT_Data[bank][slot][i] = data[i]` for all entries. -/
def loadSlot (s : Bank) (slot : ℕ) (data : Sectors) : Bank :=
  { s with cmtData := Function.update s.cmtData slot data }

/-- `is_VPN_first_time[bank][vpn] = 0`. -/
def touch (s : Bank) (vpn : ℕ) : Bank :=
  { s with isVpnFirstTime := Function.update s.isVpnFirstTime vpn false }

/-- `nand_write`, with the return code noted. -/
def write (s : Bank) (bank : ℕ) (blk page : ℤ) (data : Sectors) (spare : ℤ) : Bank :=
  let wr := nandWrite s.nand bank blk page data spare
  { s.returned wr.2 with nand := wr.1 }

/-- `nand_erase`, with the return code noted. -/
def eraseBlk (s : Bank) (bank blk : ℕ) : Bank :=
  let er := nandErase s.nand bank blk
  { s.returned er.2 with nand := er.1 }

/-- Add to the statistics. -/
def count (s : Bank) (f : Stats → Stats) : Bank := { s with stats := f s.stats }

end Bank

/-- The number of pages of a block flagged invalid. -/
def invalidCnt (isValid : ℕ → Bool) (pblk : ℕ) : ℕ :=
  Paging.clearCount pagesPerBlk isValid pblk

def lpn2vpn (lpn : ℕ) : ℕ := lpn / nMapEntriesPerPage

/-- `get_LRU_slot`: a random slot. -/
def getLruSlot (s : Bank) : ℕ × Bank :=
  (s.slotVictims 0 % nSlotPb, { s with slotVictims := fun k => s.slotVictims (k + 1) })

def getFreeSlot (r : Row) : Option ℕ := Slots.find nSlotPb r.cmtVpn (-1)

/-- The loop of `greedy_map_blk` after its first `n` rounds, with `(biggest_invalid, victim)`. -/
def scanMapBlk (r : Row) : ℕ → ℤ × Option ℕ
  | 0 => (-1, none)
  | n + 1 =>
    let acc := scanMapBlk r n
    if r.blockStatus n ≠ .map then acc
    else if acc.1 < invalidCnt r.isValid n then (invalidCnt r.isValid n, some n) else acc

def greedyMapBlk (r : Row) : Option ℕ := (scanMapBlk r blksPerBank).2

/-- `get_free_blk_map`, which searches backwards. -/
def getFreeBlkMap (r : Row) : Option ℕ :=
  (List.range blksPerBank).reverse.find? fun blk => r.blockStatus blk = .empty

/-- The slot `is_vpn_cached` finds. -/
def slotOf (r : Row) (vpn : ℤ) : Option ℕ := Slots.find nSlotPb r.cmtVpn vpn

def isVpnCached (vpn : ℤ) (s : Bank) : Option ℕ × Bank :=
  (slotOf s.toRow vpn, s.count fun t => t.lookup (slotOf s.toRow vpn).isSome)

/-- The locals of the copy loop of `map_garbage_collection`: `tmp_data`, `vpn`, `copy_cnt`. -/
structure MapCopy where
  state : Bank
  tmp : Page Sectors ℤ
  copyCnt : ℕ

/-- Round `pg` of the copy loop of `map_garbage_collection`. -/
def mapGcPage (bank victimBlk freeBlk : ℕ) (st : MapCopy) (pg : ℕ) : MapCopy :=
  let s := st.state
  if s.isValid (victimBlk * pagesPerBlk + pg) then
    let rd := nandRead s.nand bank victimBlk pg st.tmp.data st.tmp.spare
    let vpn := rd.2.spare
    let s := (s.returned rd.1).require (vpn ≠ -1)
    let (offset, s) := isVpnCached vpn s
    let data := match offset with
      | some o => s.cmtData o
      | none => rd.2.data
    let s := s.write bank freeBlk st.copyCnt data vpn
    let s := s.count fun t => { t with mapGcWrite := t.mapGcWrite + 1 }
    { state := s.setGtd vpn.toNat (freeBlk * pagesPerBlk + st.copyCnt)
      tmp := rd.2
      copyCnt := st.copyCnt + 1 }
  else st

/-- The copy loop of `map_garbage_collection` after its first `n` rounds. -/
def mapGcLoop (bank victimBlk freeBlk : ℕ) (s : Bank) : ℕ → MapCopy
  | 0 => ⟨s, s.stack, 0⟩
  | n + 1 => mapGcPage bank victimBlk freeBlk (mapGcLoop bank victimBlk freeBlk s n) n

/-- `map_garbage_collection` with victim and free block chosen. -/
def mapCollect (bank victimBlk freeBlk : ℕ) (s : Bank) : Bank :=
  let st := mapGcLoop bank victimBlk freeBlk s pagesPerBlk
  let s := st.state.setMapPpns (freeBlk * pagesPerBlk + st.copyCnt) ((freeBlk + 1) * pagesPerBlk)
  let s := (s.revalidate victimBlk).eraseBlk bank victimBlk
  let s := (s.setStatus victimBlk .empty).setStatus freeBlk .map
  s.place st.copyCnt .map freeBlk

/-- `map_garbage_collection`. Without a victim or a free block the code would index its
arrays by `-1`, which counts as a failed assertion here. -/
def mapGarbageCollection (bank : ℕ) (s : Bank) : Bank :=
  let s := s.require (s.nextMapPpn = s.gcTriggerMapPpn)
  let s := s.count fun t => { t with mapGcCnt := t.mapGcCnt + 1 }
  match greedyMapBlk s.toRow, getFreeBlkMap s.toRow with
  | some victimBlk, some freeBlk => mapCollect bank victimBlk freeBlk s
  | _, _ => s.require False

/-- Write the map page of a slot to the next map page and redirect its GTD entry. -/
def appendMapPage (bank victimSlot : ℕ) (s : Bank) : Bank :=
  let ppn := s.nextMapPpn
  let vpn := s.cmtVpn victimSlot
  let data := s.cmtData victimSlot
  let s := (s.discard (s.gtd vpn.toNat)).setGtd vpn.toNat ppn
  let s := s.require (s.isValid ppn = true)
  let s := s.write bank ((ppn : ℤ) / pagesPerBlk) ((ppn : ℤ) % pagesPerBlk) data vpn
  let s := s.count fun t => { t with mapWrite := t.mapWrite + 1 }
  (s.place 1 .map (ppn / pagesPerBlk)).setMapPpns (ppn + 1) s.gcTriggerMapPpn

/-- `original_make_free_slot` for a dirty slot. -/
def writeBack (bank victimSlot : ℕ) (s : Bank) : Bank :=
  let s := s.require (s.nextMapPpn ≤ pagesPerBlk * blksPerBank)
  let s := s.require (s.gcTriggerMapPpn ≤ pagesPerBlk * blksPerBank)
  appendMapPage bank victimSlot
    (if s.nextMapPpn = s.gcTriggerMapPpn then mapGarbageCollection bank s else s)

/-- `CMT_vpn[bank][slot] = -1; CMT_dirty[bank][slot] = CLEAN`. -/
def clearSlot (victimSlot : ℕ) (s : Bank) : Bank :=
  { s with
    cmtVpn := Function.update s.cmtVpn victimSlot (-1)
    cmtDirty := Function.update s.cmtDirty victimSlot false }

def originalMakeFreeSlot (bank : ℕ) (vpn : ℤ) (victimSlot : ℕ) (s : Bank) : Bank :=
  let s := s.require (vpn = s.cmtVpn victimSlot)
  let s := if s.cmtDirty victimSlot then writeBack bank victimSlot s else s
  clearSlot victimSlot s

def makeFreeSlot (bank victimSlot : ℕ) (s : Bank) : Bank :=
  originalMakeFreeSlot bank (s.cmtVpn victimSlot) victimSlot s

/-- What `use_free_slot` puts into the slot: the map page in NAND, or an empty one the first
time the page is used. -/
def fillSlot (bank vpn freeSlot : ℕ) (s : Bank) : Bank :=
  let ppn := s.gtd vpn
  if ppn ≥ 0 then
    let rd := nandRead s.nand bank (ppn / pagesPerBlk) (ppn % pagesPerBlk) s.stack.data
      s.stack.spare
    let s := (s.returned rd.1).require (∀ i, rd.2.data i ≥ -1)
    s.loadSlot freeSlot rd.2.data
  else if s.isVpnFirstTime vpn then (s.touch vpn).loadSlot freeSlot fun _ => -1
  else s

def useFreeSlot (bank vpn freeSlot : ℕ) (s : Bank) : Bank :=
  let s := fillSlot bank vpn freeSlot (s.require (s.cmtVpn freeSlot = -1))
  { s with
    cmtVpn := Function.update s.cmtVpn freeSlot (vpn : ℤ)
    cmtDirty := Function.update s.cmtDirty freeSlot true }

/-- `if(get_free_slot(bank) == -1) make_free_slot(bank, get_LRU_slot(bank))`. -/
def ensureFreeSlot (bank : ℕ) (s : Bank) : Bank :=
  if getFreeSlot s.toRow = none then
    let (victimSlot, s) := getLruSlot s
    makeFreeSlot bank victimSlot s
  else s

/-- The first half of `lpn2ppn` and of `update_L2P`: the slot of a map page, which is brought
into the CMT if need be. -/
def cacheVpn (bank vpn : ℕ) (s : Bank) : ℕ × Bank :=
  let (offset, s) := isVpnCached vpn s
  match offset with
  | some offset => (offset, s)
  | none =>
    let s := ensureFreeSlot bank s
    match getFreeSlot s.toRow with
    | none => (0, s.require False)
    | some freeSlot =>
      let s := useFreeSlot bank vpn freeSlot s
      let (offset, s) := isVpnCached vpn s
      (offset.getD 0, s.require (offset = some freeSlot))

def lpn2ppn (bank lpn : ℕ) (s : Bank) : ℤ × Bank :=
  let (offset, s) := cacheVpn bank (lpn2vpn lpn) s
  ((s.cmtData offset).get (lpn % nMapEntriesPerPage), s)

/-- The second half of `update_L2P`. -/
def setEntry (vpn offset lpn : ℕ) (ppn : ℤ) (s : Bank) : Bank :=
  let s := if s.isVpnFirstTime vpn then (s.touch vpn).loadSlot offset fun _ => -1 else s
  let entries := (s.cmtData offset).patch (lpn % nMapEntriesPerPage) 1 fun _ => ppn
  let s := (s.loadSlot offset entries).require (ppn ≥ 0)
  { s with cmtDirty := Function.update s.cmtDirty offset true }

def updateL2p (bank lpn : ℕ) (ppn : ℤ) (s : Bank) : Bank :=
  let (offset, s) := cacheVpn bank (lpn2vpn lpn) s
  setEntry (lpn2vpn lpn) offset lpn ppn s

/-- All banks of the FTL. -/
structure Ftl extends Shared where
  row : ℕ → Row

namespace Ftl

/-- The view of the state that a call for one bank works on. -/
def bank (s : Ftl) (b : ℕ) : Bank where
  toRow := s.row b
  toShared := s.toShared

/-- The state after a call for bank `b` left it at `x`. -/
def put (s : Ftl) (b : ℕ) (x : Bank) : Ftl where
  toShared := x.toShared
  row := Function.update s.row b x.toRow

end Ftl

/-- The state of one bank when `ftl_open` returns. -/
def initRow : Row where
  nextDataPpn := 0
  gcTriggerDataPpn := pagesPerBlk * (nUserBlocksPb + nUserOpBlocksPb - 1)
  blockStatus := fun blk =>
    if blk < nUserBlocksPb + nUserOpBlocksPb - 1 then .data
    else if blk = nUserBlocksPb + nUserOpBlocksPb - 1 then .empty
    else if blk = blksPerBank - 1 then .empty
    else .map
  isValid := fun _ => true
  isVpnFirstTime := fun _ => true
  cmtVpn := fun _ => -1
  cmtDirty := fun _ => false
  cmtData := fun _ _ => -1
  gtd := fun _ => -1
  nextMapPpn := (nUserBlocksPb + nUserOpBlocksPb) * pagesPerBlk
  gcTriggerMapPpn := pagesPerBlk * (blksPerBank - 1)
  bufferS2l := fun _ => -1
  bufferData := fun _ _ => -1
  bufferSpare := fun _ => -1

/-- The NAND after the `nand_init` of `ftl_open`. -/
def initNand (mem : ℕ → Page Sectors ℤ) : Device Sectors ℤ :=
  (nandInit mem nBanks blksPerBank pagesPerBlk).get rfl

/-- `ftl_open`; `mem` is the storage `nand_init` gets from `malloc`. -/
def ftlOpen (mem : ℕ → Page Sectors ℤ) (stack : Page Sectors ℤ)
    (dataVictims slotVictims : ℕ → ℕ) : Ftl where
  nand := initNand mem
  stats := ⟨0, 0, 0, 0, 0, 0, 0, 0, 0, 0, 0⟩
  stack := stack
  dataVictims := dataVictims
  slotVictims := slotVictims
  trace := ⟨true, [], [], []⟩
  row := fun _ => initRow

end Dftl
