import Coursework.Dftl.Core

/-! The data path of the demand-paged FTL: write buffers, data garbage collection, `ftl_read`
and `ftl_write`. -/
namespace Dftl
open Nand Sector

def simBufferL2s (r : Row) (lpn : ℕ) : Option ℕ := Slots.find nBuffers r.bufferS2l lpn

def getEmptyDataSlot (r : Row) : Option ℕ := Slots.find nBuffers r.bufferS2l (-1)

/-- `get_victim_data_slot`: a random slot. -/
def getVictimDataSlot (s : Bank) : ℕ × Bank :=
  (s.dataVictims 0 % nBuffers, { s with dataVictims := fun k => s.dataVictims (k + 1) })

/-- The loop of `greedy_data_blk` over the blocks `n - 1, …, 0`, with
`(biggest_invalid, victim)` so far. -/
def scanDataBlk (r : Row) : ℕ → ℕ × Option ℕ → ℕ × Option ℕ
  | 0, acc => acc
  | n + 1, acc => scanDataBlk r n <|
    if r.blockStatus n ≠ .data then acc
    else if acc.1 ≤ invalidCnt r.isValid n then (invalidCnt r.isValid n, some n) else acc

def greedyDataBlk (r : Row) : Option ℕ := (scanDataBlk r blksPerBank (0, none)).2

/-- `get_free_blk_data`, which searches forwards. -/
def getFreeBlkData (r : Row) : Option ℕ :=
  (List.range blksPerBank).find? fun blk => r.blockStatus blk = .empty

/-- The state during `garbage_collection`, with `immigrants_cnt`. -/
structure DataCopy where
  state : Bank
  immigrantsCnt : ℕ

/-- Round `pageOffset` of the copy loop of `garbage_collection`. -/
def gcPage (bank victimPblk freePblk : ℕ) (st : DataCopy) (pageOffset : ℕ) : DataCopy :=
  let s := st.state
  if s.isValid (victimPblk * pagesPerBlk + pageOffset) then
    let rd := nandRead s.nand bank victimPblk pageOffset s.stack.data s.stack.spare
    let s := (s.returned rd.1).write bank freePblk st.immigrantsCnt rd.2.data rd.2.spare
    let s := s.count fun t => { t with gcWrite := t.gcWrite + 1 }
    { state := updateL2p bank rd.2.spare.toNat
        ((freePblk * pagesPerBlk + st.immigrantsCnt : ℕ) : ℤ) s
      immigrantsCnt := st.immigrantsCnt + 1 }
  else st

/-- The copy loop of `garbage_collection` after its first `n` rounds. -/
def gcLoop (bank victimPblk freePblk : ℕ) (s : Bank) : ℕ → DataCopy
  | 0 => ⟨s, 0⟩
  | n + 1 => gcPage bank victimPblk freePblk (gcLoop bank victimPblk freePblk s n) n

/-- Note the two data cursors. -/
def Bank.noteGc (s : Bank) : Bank :=
  { s with trace := { s.trace with
    gcReturns := (s.nextDataPpn, s.gcTriggerDataPpn) :: s.trace.gcReturns } }

/-- `garbage_collection` with victim and free block chosen. -/
def collect (bank victimPblk freePblk : ℕ) (s : Bank) : Bank :=
  let st := gcLoop bank victimPblk freePblk s pagesPerBlk
  let s := (st.state.revalidate victimPblk).setDataPpns
    (freePblk * pagesPerBlk + st.immigrantsCnt) (freePblk * pagesPerBlk + pagesPerBlk)
  let s := s.eraseBlk bank victimPblk
  let s := (s.setStatus victimPblk .empty).setStatus freePblk .data
  (s.place st.immigrantsCnt .data freePblk).noteGc

def garbageCollection (bank : ℕ) (s : Bank) : Bank :=
  let s := s.require (s.nextDataPpn = s.gcTriggerDataPpn)
  let s := s.count fun t => { t with gcCnt := t.gcCnt + 1 }
  match greedyDataBlk s.toRow, getFreeBlkData s.toRow with
  | some victimPblk, some freePblk => collect bank victimPblk freePblk s
  | _, _ => s.require False

/-- `buffer_S2L[bank][slot] = -1`. -/
def Bank.emptySlot (s : Bank) (slot : ℕ) : Bank :=
  { s with bufferS2l := Function.update s.bufferS2l slot (-1) }

/-- Write the page of a buffer slot to the next data page and translate it there. A slot that
is evicted is in use, so its `buffer_S2L` is a page number. -/
def appendSlot (bank victimSlot : ℕ) (s : Bank) : Bank :=
  let ppn := s.nextDataPpn
  let spare := s.bufferS2l victimSlot
  let data := s.bufferData victimSlot
  let (beforePpn, s) := lpn2ppn bank spare.toNat s
  let s := if beforePpn ≠ -1 then s.invalidate beforePpn.toNat else s
  let s := updateL2p bank spare.toNat ppn s
  let s := s.write bank ((ppn : ℤ) / pagesPerBlk) ((ppn : ℤ) % pagesPerBlk) data spare
  let s := s.count fun t => { t with nandWrite := t.nandWrite + 1 }
  let s := (s.place 1 .data (ppn / pagesPerBlk)).setDataPpns (ppn + 1) s.gcTriggerDataPpn
  s.emptySlot victimSlot

/-- The eviction in `write_through_lpn`. -/
def evict (bank : ℕ) (s : Bank) : Bank :=
  let (victimSlot, s) := getVictimDataSlot s
  appendSlot bank victimSlot
    (if s.nextDataPpn = s.gcTriggerDataPpn then garbageCollection bank s else s)

/-- Put a page into a buffer slot. -/
def Bank.fillBuffer (s : Bank) (dstSlot lpn : ℕ) (data : Sectors) : Bank :=
  { s with
    bufferData := Function.update s.bufferData dstSlot data
    bufferSpare := Function.update s.bufferSpare dstSlot (lpn : ℤ)
    bufferS2l := Function.update s.bufferS2l dstSlot (lpn : ℤ) }

def writeThroughLpn (bank lpn : ℕ) (data : Sectors) (s : Bank) : Bank :=
  match simBufferL2s s.toRow lpn with
  | some dstSlot =>
    (s.count fun t => { t with cacheHit := t.cacheHit + 1 }).fillBuffer dstSlot lpn data
  | none =>
    let s := s.count fun t => { t with cacheMiss := t.cacheMiss + 1 }
    let s := if getEmptyDataSlot s.toRow = none then evict bank s else s
    match getEmptyDataSlot s.toRow with
    | some dstSlot => s.fillBuffer dstSlot lpn data
    | none => s.require False

/-- `lpn2ppn` on the bank of the device. -/
def Ftl.lpn2ppn (s : Ftl) (bank lpn : ℕ) : ℤ × Ftl :=
  ((Dftl.lpn2ppn bank lpn (s.bank bank)).1, s.put bank (Dftl.lpn2ppn bank lpn (s.bank bank)).2)

/-- `nand_read(bank, ppn/PAGES_PER_BLK, ppn%PAGES_PER_BLK, data, &spare)`. -/
def Ftl.readPpn (s : Ftl) (bank : ℕ) (ppn : ℤ) (data : Sectors) : Sectors × Ftl :=
  let rd := nandRead s.nand bank (ppn / pagesPerBlk) (ppn % pagesPerBlk) data s.stack.spare
  (rd.2.data, s.put bank ((s.bank bank).returned rd.1))

/-- `assert(p)`. -/
def Ftl.require (s : Ftl) (p : Prop) [Decidable p] : Ftl :=
  { s with trace := { s.trace with asserted := s.trace.asserted && decide p } }

/-- Add to the statistics. -/
def Ftl.count (s : Ftl) (f : Stats → Stats) : Ftl := { s with stats := f s.stats }

/-- The locals of `ftl_read`: the caller's buffer, the position of `current_read_buffer` in it,
and `data`. -/
structure Reading where
  ftl : Ftl
  buf : ℕ → Word
  cur : ℕ
  data : Sectors

/-- What a page of a read comes down to once it is not in the buffer: `n` sectors from offset
`off` on. -/
def Reading.miss (st : Reading) (bank : ℕ) (ppn : ℤ) (off n : ℕ) : Reading :=
  let s := st.ftl.count fun t => { t with cacheMiss := t.cacheMiss + 1 }
  if ppn = -1 then { st with ftl := s, buf := store st.buf st.cur n fun _ => blank }
  else
    let (data, s) := s.readPpn bank ppn st.data
    { st with ftl := s, data := data, buf := store st.buf st.cur n fun i => data.get (off + i) }

/-- The same for a page in the buffer. -/
def Reading.hit (st : Reading) (bank slot off n : ℕ) : Reading :=
  { st with
    ftl := st.ftl.count fun t => { t with cacheHit := t.cacheHit + 1 }
    buf := store st.buf st.cur n fun i => ((st.ftl.row bank).bufferData slot).get (off + i) }

/-- The single-page case of `ftl_read`. -/
def readSingle (r : Request) (st : Reading) : Reading :=
  let bank := r.firstPageFirstLba / 8 % nBanks
  let lpn := r.firstPageFirstLba / 8 / nBanks
  match simBufferL2s (st.ftl.row bank) lpn with
  | some dstSlot => st.hit bank dstSlot r.firstLbaOffset r.nsect
  | none =>
    let (ppn, s) := st.ftl.lpn2ppn bank lpn
    { st with ftl := s }.miss bank ppn r.firstLbaOffset r.nsect

/-- `sector_kazu` sectors of a page of the page loop, and the step to the next page. -/
def readSectors (bank lpn off sectorKazu : ℕ) (st : Reading) : Reading :=
  let (ppn, s) := st.ftl.lpn2ppn bank lpn
  let st := { st with ftl := s }
  let st := match simBufferL2s (st.ftl.row bank) lpn with
    | some dstSlot => st.hit bank dstSlot off sectorKazu
    | none => st.miss bank ppn off sectorKazu
  { st with cur := st.cur + sectorKazu }

/-- Round `pageOffset` of the page loop of `ftl_read`. -/
def readPage (r : Request) (pageOffset : ℕ) (st : Reading) : Reading :=
  let lpn := (pageOffset + r.firstPageFirstLba / 8) / nBanks
  let bank := (pageOffset + r.firstPageFirstLba / 8) % nBanks
  if pageOffset = 0 then readSectors bank lpn r.firstLbaOffset (8 - r.firstLbaOffset) st
  else if pageOffset = r.sendKazu - 1 then readSectors bank lpn 0 (r.lastLbaOffset + 1) st
  else readSectors bank lpn 0 8 st

/-- The page loop of `ftl_read` after its first `n` rounds. -/
def readLoop (r : Request) (st : Reading) : ℕ → Reading
  | 0 => st
  | n + 1 => readPage r n (readLoop r st n)

/-- `ftl_read`; `buf` is what the caller's buffer holds before the call. -/
def ftlRead (s : Ftl) (lba nsect : ℕ) (buf : ℕ → Word) : Ftl × (ℕ → Word) :=
  let r : Request := ⟨lba, nsect⟩
  let s := s.require (nsect > 0)
  let st : Reading := ⟨s, buf, 0, s.stack.data⟩
  let st := if r.sendKazu = 1 then readSingle r st else readLoop r st r.sendKazu
  (st.ftl, st.buf)

/-- The locals of `ftl_write`: the position of `current_write_buffer`, and `data`. -/
structure Writing where
  ftl : Ftl
  cur : ℕ
  data : Sectors

/-- `nand_read` of the page behind an entry into `data`. -/
def Writing.fetch (w : Writing) (bank : ℕ) (ppn : ℤ) : Writing :=
  let (data, s) := w.ftl.readPpn bank ppn w.data
  { w with ftl := s, data := data }

/-- The old contents of the page: from the buffer, or from NAND, or `pad`. -/
def Writing.load (w : Writing) (bank lpn : ℕ) (pad : Sectors) : Writing :=
  let (ppn, s) := w.ftl.lpn2ppn bank lpn
  let w := { w with ftl := s }
  match simBufferL2s (w.ftl.row bank) lpn with
  | some slot => { w with data := (w.ftl.row bank).bufferData slot }
  | none => if ppn = -1 then { w with data := pad } else w.fetch bank ppn

/-- The same in the middle of a request, where what was copied from the buffer is replaced. -/
def Writing.loadMiddle (w : Writing) (bank lpn : ℕ) : Writing :=
  let (ppn, s) := w.ftl.lpn2ppn bank lpn
  let w := { w with ftl := s }
  let w := match simBufferL2s (w.ftl.row bank) lpn with
    | some slot => { w with data := (w.ftl.row bank).bufferData slot }
    | none => w
  if ppn = -1 then { w with data := fun _ => blank } else w.fetch bank ppn

/-- Fill in the `n` sectors of the request and write the page. -/
def Writing.send (w : Writing) (buf : ℕ → Word) (bank lpn off n : ℕ) : Writing :=
  let data := w.data.patch off n fun i => buf (w.cur + i)
  { ftl := w.ftl.put bank (writeThroughLpn bank lpn data (w.ftl.bank bank))
    cur := w.cur + n
    data := data }

/-- The single-page case of `ftl_write`. -/
def writeSingle (r : Request) (buf : ℕ → Word) (w : Writing) : Writing :=
  let lpn := r.firstPageFirstLba / 8 / nBanks
  let bank := r.firstPageFirstLba / 8 % nBanks
  let head := w.data.patch 0 r.firstLbaOffset fun _ => blank
  let pad := head.patch (r.lastLbaOffset + 1) (7 - r.lastLbaOffset) fun _ => blank
  (w.load bank lpn pad).send buf bank lpn r.firstLbaOffset r.nsect

/-- Round `pageOffset` of the page loop of `ftl_write`. -/
def writePage (r : Request) (buf : ℕ → Word) (pageOffset : ℕ) (w : Writing) : Writing :=
  let lpn := (pageOffset + r.firstPageFirstLba / 8) / nBanks
  let bank := (pageOffset + r.firstPageFirstLba / 8) % nBanks
  if pageOffset = 0 then
    let pad := w.data.patch 0 r.firstLbaOffset fun _ => blank
    (w.load bank lpn pad).send buf bank lpn r.firstLbaOffset (8 - r.firstLbaOffset)
  else if pageOffset = r.sendKazu - 1 then
    let pad := w.data.patch (r.lastLbaOffset + 1) (7 - r.lastLbaOffset) fun _ => blank
    (w.load bank lpn pad).send buf bank lpn 0 (r.lastLbaOffset + 1)
  else (w.loadMiddle bank lpn).send buf bank lpn 0 8

/-- The page loop of `ftl_write` after its first `n` rounds. -/
def writeLoop (r : Request) (buf : ℕ → Word) (w : Writing) : ℕ → Writing
  | 0 => w
  | n + 1 => writePage r buf n (writeLoop r buf w n)

def ftlWrite (s : Ftl) (lba nsect : ℕ) (buf : ℕ → Word) : Ftl :=
  let r : Request := ⟨lba, nsect⟩
  let w : Writing := ⟨s, 0, s.stack.data⟩
  let w := if r.sendKazu = 1 then writeSingle r buf w else writeLoop r buf w r.sendKazu
  w.ftl.count fun t => { t with hostWrite := t.hostWrite + nsect }

/-- A call of the driver; `stack` is what the uninitialised locals hold. -/
inductive Op where
  | read (lba nsect : ℕ) (buf : ℕ → Word) (stack : Page Sectors ℤ)
  | write (lba nsect : ℕ) (buf : ℕ → Word) (stack : Page Sectors ℤ)

/-- A request of at least one sector inside the logical space. -/
def InRange (lba nsect : ℕ) : Prop := 0 < nsect ∧ lba + nsect ≤ nLpns * 8

def Op.InRange : Op → Prop
  | .read lba nsect _ _ => Dftl.InRange lba nsect
  | .write lba nsect _ _ => Dftl.InRange lba nsect

def step (s : Ftl) : Op → Ftl
  | .read lba nsect buf stack => (ftlRead { s with stack := stack } lba nsect buf).1
  | .write lba nsect buf stack => ftlWrite { s with stack := stack } lba nsect buf

/-- The flat array of sectors the device stands for. -/
def flatWrites (flat : ℕ → Word) : Op → ℕ → Word
  | .read _ _ _ _ => flat
  | .write lba nsect buf _ => writeFlat flat lba nsect buf

end Dftl
