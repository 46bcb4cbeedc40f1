import Coursework.Lib.Machine
import Coursework.PageMap.Transfer

/-! The page-mapping FTL of lab 3 (`HW3/ftl.c`, `ftl.h`), with block ages, a write buffer
and trim, under the configured policy `gc_greedy`. -/
namespace BufferedFtl
open Nand Sector PageMap

def nBanks : ℕ := 8
def blksPerBank : ℕ := 32
def pagesPerBlk : ℕ := 16
def nBuffers : ℕ := 32
def sectorSize : ℕ := 4
def sectorsPerPage : ℕ := 8
def bufferSize : ℕ := nBuffers * sectorsPerPage * sectorSize
def nGcBlocks : ℕ := 1
def opRatio : ℕ := 7
def nPpnsPb : ℕ := blksPerBank * pagesPerBlk
def nUserBlocksPb : ℕ := (blksPerBank - nGcBlocks) * 100 / (100 + opRatio)
def nLpnsPb : ℕ := nUserBlocksPb * pagesPerBlk
def nLpns : ℕ := nLpnsPb * nBanks

def geometry : Geometry where
  blksPerBank := blksPerBank
  pagesPerBlk := pagesPerBlk
  nLpnsPb := nLpnsPb
  pages_pos := by decide
  spare_room := by decide

/-- A bank's rows of `age` and `erase_count`. -/
structure Wear where
  age : ℕ → ℤ
  eraseCount : ℕ → ℕ

/-- `age_update`; the loop skips a block whose age equals the number of the free block. -/
def ageUpdate (freePblk targetPblk : ℕ) (w : Wear) : Wear :=
  if targetPblk ≥ blksPerBank then w
  else
    let aged := fun blk =>
      if blk < blksPerBank ∧ ¬(w.age blk = -1 ∨ w.age blk = freePblk) then w.age blk + 1
      else w.age blk
    { w with age := Function.update aged targetPblk 1 }

def hooks : Hooks Wear where
  opened := ageUpdate
  erased := fun blk w =>
    { age := Function.update w.age blk (-1)
      eraseCount := Function.update w.eraseCount blk (w.eraseCount blk + 1) }

/-- The globals of `ftl.c`. `buffer_L2P` is flat: `ftl_trim` also goes beyond the row of a
bank. With `astray` an access of `ftl_trim` has left its array: what the program does then is not
defined, and what the cells outside of the arrays hold here says nothing about it. -/
structure Ftl extends Banks Wear where
  bufferL2p : ℤ → ℤ
  bufferPblk : ℤ → Sectors
  bufferIsValid : ℤ → Sectors
  astray : Bool

/-- The place of `buffer_L2P[bank][i]` in the flat array. -/
def linkIdx (bank : ℕ) (i : ℤ) : ℤ := bank * nLpnsPb + i

/-- `buffer_L2P[lpn % N_BANKS][lpn / N_BANKS]`. -/
def Ftl.link (s : Ftl) (lpn : ℕ) : ℤ := s.bufferL2p (linkIdx (lpn % nBanks) (lpn / nBanks : ℕ))

def getVictimPblkGreedy (s : Bank Wear) : ℕ := getVictimPblk geometry s.isValid

def garbageCollection (bank : ℕ) (s : Bank Wear) : Bank Wear :=
  PageMap.garbageCollection geometry hooks bank s

def writeThroughLpn (s : Ftl) (bank halvedLpn : ℕ) (data : Sectors) : Ftl :=
  { s with toBanks := s.toBanks.writeThroughLpn geometry hooks bank halvedLpn data }

/-- `ftl_open`; `mem` is the storage `nand_init` gets from `malloc`, and `outside` the
memory around `buffer_L2P`. -/
def ftlOpen (mem : ℕ → Page Sectors ℕ) (stack : Page Sectors ℕ) (outside : ℤ → ℤ) : Ftl where
  row := fun _ => Banks.initRow geometry ⟨fun _ => -1, fun _ => 0⟩
  nand := (Banks.initNand geometry nBanks mem).get rfl
  stats := ⟨0, 0, 0, 0⟩
  stack := stack
  codes := []
  bufferL2p := fun i => if 0 ≤ i ∧ i < nBanks * nLpnsPb then -1 else outside i
  bufferPblk := fun _ _ => 0
  bufferIsValid := fun _ _ => -1
  astray := false

/-! Reading: the page in NAND, with the buffered sectors stored over it. -/

/-- `for (i = 0; i < n; i++)`, store the sector at `off + i` if it is buffered. -/
def overlay (marks pblk : Sectors) (buf : ℕ → Word) (cur off n : ℕ) : ℕ → Word := fun j =>
  if (cur ≤ j ∧ j < cur + n) ∧ marks.get (j - cur + off) ≠ -1 then pblk.get (j - cur + off)
  else buf j

/-- What every page of a read comes down to: `n` sectors of page `lpn`, from offset `off`
on. A mapped page delivers `m` sectors, an unmapped one `n` times the erased pattern. -/
def readSectors (s : Ftl) (lpn off n m : ℕ) (st : Reading) : Reading :=
  let bank := lpn % nBanks
  let halvedLpn := lpn / nBanks
  let ppn := (s.row bank).l2p halvedLpn
  let st := if ppn = -1 then { st with buf := store st.buf st.cur n fun _ => blank }
    else
      let rd := s.readPpn geometry bank ppn st.data
      { st with
        buf := store st.buf st.cur m fun i => rd.2.data.get (off + i)
        data := rd.2.data
        codes := rd.1 :: st.codes }
  let entry := s.link lpn
  if entry ≠ -1 then
    { st with buf :=
        overlay (s.bufferIsValid entry) (s.bufferPblk entry) st.buf st.cur off n }
  else st

/-- The single-page case of `ftl_read`. -/
def readSingle (s : Ftl) (r : Request) (st : Reading) : Reading :=
  readSectors s (r.firstPageFirstLba / 8) r.firstLbaOffset r.nsect
    (r.lastLbaOffset + 1 - r.firstLbaOffset) st

/-- Round `pp` of the page loop of `ftl_read`. -/
def readPage (s : Ftl) (r : Request) (pp : ℕ) (st : Reading) : Reading :=
  let lpn := pp + r.firstPageFirstLba / 8
  if pp = 0 then
    let sectorKazu := 8 - r.firstLbaOffset
    { readSectors s lpn r.firstLbaOffset sectorKazu sectorKazu st with
      cur := st.cur + sectorKazu }
  else if pp = r.sendKazu - 1 then
    let sectorKazu := r.lastLbaOffset + 1
    { readSectors s lpn 0 sectorKazu sectorKazu st with cur := st.cur + sectorKazu }
  else
    let sectorKazu := 8
    { readSectors s lpn 0 sectorKazu sectorKazu st with cur := st.cur + sectorKazu }

/-- The page loop of `ftl_read` after its first `pp` rounds. -/
def readLoop (s : Ftl) (r : Request) (st : Reading) : ℕ → Reading
  | 0 => st
  | pp + 1 => readPage s r pp (readLoop s r st pp)

/-- `ftl_read`; `buf` is what the caller's buffer holds before the call. -/
def ftlRead (s : Ftl) (lba nsect : ℕ) (buf : ℕ → Word) : Ftl × (ℕ → Word) :=
  let r : Request := ⟨lba, nsect⟩
  let st : Reading := ⟨buf, 0, s.stack.data, []⟩
  let st := if r.sendKazu = 1 then readSingle s r st else readLoop s r st r.sendKazu
  ({ s with codes := st.codes ++ s.codes }, st.buf)

/-! `write_directly_nand`. -/

/-- The locals of a write: the position of `current_write_buffer` and `data`. -/
structure Writing where
  ftl : Ftl
  cur : ℕ
  data : Sectors

/-- `data` from the page in NAND, or `pad` if the page is unmapped. -/
def Writing.load (w : Writing) (bank halvedLpn : ℕ) (pad : Sectors) : Writing :=
  let ppn := (w.ftl.row bank).l2p halvedLpn
  if ppn = -1 then { w with data := pad }
  else
    let rd := w.ftl.readPpn geometry bank ppn w.data
    { w with data := rd.2.data, ftl := { w.ftl with codes := rd.1 :: w.ftl.codes } }

def writeDirectlyNandBufferCheck (s : Ftl) (bank halvedLpn : ℕ) (data : Sectors) :
    Ftl × Sectors :=
  let entry := s.bufferL2p (linkIdx bank halvedLpn)
  let marks := s.bufferIsValid entry
  ({ s with
      bufferIsValid := Function.update s.bufferIsValid entry
        fun k => if marks k ≠ -1 then -1 else marks k
      bufferL2p := Function.update s.bufferL2p (linkIdx bank halvedLpn) (-1) },
    fun k => if marks k ≠ -1 then s.bufferPblk entry k else data k)

/-- The call of `write_directly_nand_buffer_check`, if the page is buffered. -/
def Writing.absorb (w : Writing) (bank halvedLpn : ℕ) : Writing :=
  if w.ftl.bufferL2p (linkIdx bank halvedLpn) ≠ -1 then
    let st := writeDirectlyNandBufferCheck w.ftl bank halvedLpn w.data
    { w with ftl := st.1, data := st.2 }
  else w

/-! The calls that write pages, for any `write_through_lpn`. -/
section WriteThrough
variable (wt : Ftl → ℕ → ℕ → Sectors → Ftl)

/-- Fill in the `n` sectors of the request and write the page. -/
def Writing.sendBy (w : Writing) (buf : ℕ → Word) (bank halvedLpn off n : ℕ) : Writing :=
  let data := w.data.patch off n fun i => buf (w.cur + i)
  { ftl := wt w.ftl bank halvedLpn data, cur := w.cur + n, data := data }

/-- The single-page case of `write_directly_nand`. -/
def directSingleBy (r : Request) (buf : ℕ → Word) (w : Writing) : Writing :=
  let lpn := r.firstPageFirstLba / 8
  let bank := lpn % nBanks
  let halvedLpn := lpn / nBanks
  let head := w.data.patch 0 r.firstLbaOffset fun _ => blank
  let pad := head.patch (r.lastLbaOffset + 1) (7 - r.lastLbaOffset) fun _ => blank
  ((w.load bank halvedLpn pad).absorb bank halvedLpn).sendBy wt buf bank halvedLpn
    r.firstLbaOffset (r.lastLbaOffset - r.firstLbaOffset + 1)

/-- Round `pp` of the page loop of `write_directly_nand`. -/
def directPageBy (r : Request) (buf : ℕ → Word) (pp : ℕ) (w : Writing) : Writing :=
  let lpn := pp + r.firstPageFirstLba / 8
  let bank := lpn % nBanks
  let halvedLpn := lpn / nBanks
  if pp = 0 then
    let pad := w.data.patch 0 r.firstLbaOffset fun _ => blank
    ((w.load bank halvedLpn pad).absorb bank halvedLpn).sendBy wt buf bank halvedLpn
      r.firstLbaOffset (8 - r.firstLbaOffset)
  else if pp = r.sendKazu - 1 then
    let pad := w.data.patch (r.lastLbaOffset + 1) (7 - r.lastLbaOffset) fun _ => blank
    ((w.load bank halvedLpn pad).absorb bank halvedLpn).sendBy wt buf bank halvedLpn
      0 (r.lastLbaOffset + 1)
  else (w.absorb bank halvedLpn).sendBy wt buf bank halvedLpn 0 8

/-- The page loop of `write_directly_nand` after its first `pp` rounds. -/
def directLoopBy (r : Request) (buf : ℕ → Word) (w : Writing) : ℕ → Writing
  | 0 => w
  | pp + 1 => directPageBy wt r buf pp (directLoopBy r buf w pp)

/-- `write_directly_nand`. -/
def writeDirectlyNandBy (s : Ftl) (lba nsect : ℕ) (buf : ℕ → Word) : Ftl :=
  let r : Request := ⟨lba, nsect⟩
  let w : Writing := ⟨s, 0, s.stack.data⟩
  (if r.sendKazu = 1 then directSingleBy wt r buf w
    else directLoopBy wt r buf w r.sendKazu).ftl

end WriteThrough

/-! The buffer. An entry is free if none of its sectors is marked. -/

/-- The scan of `buffer_isValid[i]` ends at `SECTORS_PER_PAGE`. -/
def Ftl.entryFree (s : Ftl) (i : ℕ) : Bool := decide (∀ k, s.bufferIsValid i k = -1)

def neededBufferPageCalculate (s : Ftl) (lpnStart sendKazu : ℕ) : ℕ :=
  ((List.range sendKazu).filter fun i => s.link (lpnStart + i) = -1).length

def usableBufferPageCalculate (s : Ftl) : ℕ := ((List.range nBuffers).filter s.entryFree).length

def int32Max : ℕ := 2147483647

/-- `frontend` after the loop of `frontend_buffer_page_calculate` has seen `n` entries. -/
def frontendScan (entryFree : ℕ → Bool) : ℕ → ℕ
  | 0 => int32Max
  | n + 1 =>
    let frontend := frontendScan entryFree n
    if entryFree n ∧ frontend > n then n else frontend

def frontendBufferPageCalculate (s : Ftl) : ℕ := frontendScan s.entryFree nBuffers

/-- The first marked sector of an entry, as `ftl_flush` looks for it. -/
def firstMark (marks : Sectors) : ℤ :=
  ((List.finRange 8).find? fun k => marks k ≠ -1).elim (-1) marks

section WriteThrough
variable (wt : Ftl → ℕ → ℕ → Sectors → Ftl)

/-- Round `buffer_ppn` of `ftl_flush`. -/
def flushEntryBy (s : Ftl) (bufferPpn : ℕ) : Ftl :=
  let marks := s.bufferIsValid bufferPpn
  let pblk := s.bufferPblk bufferPpn
  let lpn := firstMark marks
  if lpn = -1 then s
  else
    let bank := (lpn % nBanks).toNat
    let halvedLpn := (lpn / nBanks).toNat
    let st := if (s.row bank).l2p halvedLpn ≠ -1 then
        let rd := ftlRead s (lpn * 8).toNat 8 s.stack.data.get
        (rd.1, fun k => if marks k ≠ -1 then pblk k else rd.2 k.val)
      else (s, fun k => if marks k ≠ -1 then pblk k else blank)
    let s := { st.1 with
      bufferIsValid := Function.update st.1.bufferIsValid bufferPpn fun _ => -1 }
    let s := wt s bank halvedLpn st.2
    { s with bufferL2p := Function.update s.bufferL2p (linkIdx bank halvedLpn) (-1) }

/-- The loop of `ftl_flush` after its first `n` rounds. -/
def flushLoopBy (s : Ftl) : ℕ → Ftl
  | 0 => s
  | n + 1 => flushEntryBy wt (flushLoopBy s n) n

/-- `ftl_flush`. -/
def ftlFlushBy (s : Ftl) : Ftl := flushLoopBy wt s nBuffers

end WriteThrough

/-- The loop state of `write_to_buffer`: the position of `current_write_buffer`, and
whether the function has returned because no entry was free. -/
structure Buffering where
  ftl : Ftl
  cur : ℕ
  returned : Bool

/-- Mark `n` sectors of an entry from `off` on and fill them in. -/
def Buffering.put (w : Buffering) (buf : ℕ → Word) (entry : ℤ) (lpn off n : ℕ) : Buffering :=
  { w with
    ftl := { w.ftl with
      bufferIsValid := Function.update w.ftl.bufferIsValid entry
        ((w.ftl.bufferIsValid entry).patch off n fun _ => lpn)
      bufferPblk := Function.update w.ftl.bufferPblk entry
        ((w.ftl.bufferPblk entry).patch off n fun i => buf (w.cur + i)) }
    cur := w.cur + n }

/-- Round `pp` of the page loop of `write_to_buffer`. -/
def bufferPage (r : Request) (buf : ℕ → Word) (pp : ℕ) (w : Buffering) : Buffering :=
  let lpn := r.lpn pp
  let idx := linkIdx (lpn % nBanks) (lpn / nBanks : ℕ)
  let bufferNextPpn := frontendBufferPageCalculate w.ftl
  if w.returned then w
  else if w.ftl.link lpn = -1 ∧ bufferNextPpn = int32Max then { w with returned := true }
  else
    let w := if w.ftl.link lpn = -1 then
        { w with ftl := { w.ftl with
            bufferL2p := Function.update w.ftl.bufferL2p idx bufferNextPpn } }
      else w
    let entry := w.ftl.link lpn
    if r.sendKazu = 1 then
      w.put buf entry lpn r.firstLbaOffset (r.lastLbaOffset + 1 - r.firstLbaOffset)
    else if lpn ≠ r.firstPageFirstLba / 8 ∧ lpn ≠ r.lastPageFirstLba / 8 then
      w.put buf entry lpn 0 8
    else if lpn = r.firstPageFirstLba / 8 then
      w.put buf entry lpn r.firstLbaOffset (8 - r.firstLbaOffset)
    else w.put buf entry lpn 0 (r.lastLbaOffset + 1)

/-- The page loop of `write_to_buffer` after its first `pp` rounds. -/
def bufferLoop (r : Request) (buf : ℕ → Word) (w : Buffering) : ℕ → Buffering
  | 0 => w
  | pp + 1 => bufferPage r buf pp (bufferLoop r buf w pp)

section WriteThrough
variable (wt : Ftl → ℕ → ℕ → Sectors → Ftl)

/-- `write_to_buffer`. -/
def writeToBufferBy (s : Ftl) (lba nsect : ℕ) (buf : ℕ → Word) : Ftl :=
  let r : Request := ⟨lba, nsect⟩
  let bufferPageNeeded := neededBufferPageCalculate s (r.firstPageFirstLba / 8) r.sendKazu
  let bufferPageRemaining := usableBufferPageCalculate s
  let s := if bufferPageNeeded > bufferPageRemaining then ftlFlushBy wt s else s
  (bufferLoop r buf ⟨s, 0, false⟩ (r.lastPageFirstLba / 8 + 1 - r.firstPageFirstLba / 8)).ftl

/-- `ftl_write`. -/
def ftlWriteBy (s : Ftl) (lba nsect : ℕ) (buf : ℕ → Word) : Ftl :=
  let r : Request := ⟨lba, nsect⟩
  let s := if nsect > bufferSize ∨ r.sendKazu > nBuffers then
      writeDirectlyNandBy wt s lba nsect buf
    else writeToBufferBy wt s lba nsect buf
  { s with stats := { s.stats with hostWrite := s.stats.hostWrite + nsect } }

end WriteThrough

/-- `isValid[bank][ppn] = 0`; page `-1` is the last page of the bank before. -/
def clearValid (s : Ftl) (bank : ℕ) (ppn : ℤ) : Ftl :=
  let i := bank * nPpnsPb + ppn
  if i < 0 then s
  else
    let b := i.toNat / nPpnsPb
    { s with row := Function.update s.row b ((s.row b).invalidate (i.toNat % nPpnsPb)) }

/-- The places that a round of `ftl_trim` takes lie inside `isValid`, `buffer_L2P` and, if the page
is buffered, `buffer_isValid`. -/
def TrimIndices (bank : ℕ) (ppn entry : ℤ) : Prop :=
  (0 ≤ bank * nPpnsPb + ppn ∧ bank * nPpnsPb + ppn < nBanks * nPpnsPb) ∧
    (0 ≤ linkIdx bank ppn ∧ linkIdx bank ppn < nBanks * nLpnsPb) ∧
    (entry = -1 ∨ 0 ≤ entry ∧ entry < nBuffers)

instance (bank : ℕ) (ppn entry : ℤ) : Decidable (TrimIndices bank ppn entry) := by
  unfold TrimIndices
  infer_instance

/-- Round `ll` of `ftl_trim`. The buffer tables are indexed by the physical page. -/
def trimPage (s : Ftl) (ll : ℕ) : Ftl :=
  let bank := ll % nBanks
  let halvedLpn := ll / nBanks
  let ppn := (s.row bank).l2p halvedLpn
  let s := clearValid s bank ppn
  let entry := s.bufferL2p (linkIdx bank ppn)
  let s := if entry ≠ -1 then
      { s with bufferIsValid := Function.update s.bufferIsValid entry fun _ => -1 }
    else s
  { s with
    bufferL2p := Function.update s.bufferL2p (linkIdx bank ppn) (-1)
    row := Function.update s.row bank ((s.row bank).reset halvedLpn)
    astray := s.astray || !decide (TrimIndices bank ppn entry) }

/-- The loop of `ftl_trim` after its first `n` rounds. -/
def trimLoop (s : Ftl) (lpn : ℕ) : ℕ → Ftl
  | 0 => s
  | n + 1 => trimPage (trimLoop s lpn n) (lpn + n)

def ftlTrim (s : Ftl) (lpn npage : ℕ) : Ftl := trimLoop s lpn npage

/-- A call of the driver, with the contents of the caller's buffer; `stack` is what
uninitialised locals hold during the call. -/
inductive Op where
  | read (lba nsect : ℕ) (buf : ℕ → Word) (stack : Page Sectors ℕ)
  | write (lba nsect : ℕ) (buf : ℕ → Word) (stack : Page Sectors ℕ)
  | flush (stack : Page Sectors ℕ)
  | trim (lpn npage : ℕ)

/-- A request of at least one sector inside the logical space. -/
def InRange (lba nsect : ℕ) : Prop := 0 < nsect ∧ lba + nsect ≤ nLpns * 8

def Op.InRange : Op → Prop
  | .read lba nsect _ _ => BufferedFtl.InRange lba nsect
  | .write lba nsect _ _ => BufferedFtl.InRange lba nsect
  | .flush _ => True
  | .trim lpn npage => lpn + npage ≤ nLpns

def stepBy (wt : Ftl → ℕ → ℕ → Sectors → Ftl) (s : Ftl) : Op → Ftl
  | .read lba nsect buf stack => (ftlRead { s with stack := stack } lba nsect buf).1
  | .write lba nsect buf stack => ftlWriteBy wt { s with stack := stack } lba nsect buf
  | .flush stack => ftlFlushBy wt { s with stack := stack }
  | .trim lpn npage => ftlTrim s lpn npage

/-! The calls with the `write_through_lpn` of `gc_greedy`. -/

def Writing.send (w : Writing) (buf : ℕ → Word) (bank halvedLpn off n : ℕ) : Writing :=
  w.sendBy writeThroughLpn buf bank halvedLpn off n

def directSingle (r : Request) (buf : ℕ → Word) (w : Writing) : Writing :=
  directSingleBy writeThroughLpn r buf w

def directPage (r : Request) (buf : ℕ → Word) (pp : ℕ) (w : Writing) : Writing :=
  directPageBy writeThroughLpn r buf pp w

def directLoop (r : Request) (buf : ℕ → Word) (w : Writing) (n : ℕ) : Writing :=
  directLoopBy writeThroughLpn r buf w n

def writeDirectlyNand (s : Ftl) (lba nsect : ℕ) (buf : ℕ → Word) : Ftl :=
  writeDirectlyNandBy writeThroughLpn s lba nsect buf

def flushEntry (s : Ftl) (bufferPpn : ℕ) : Ftl := flushEntryBy writeThroughLpn s bufferPpn

def flushLoop (s : Ftl) (n : ℕ) : Ftl := flushLoopBy writeThroughLpn s n

def ftlFlush (s : Ftl) : Ftl := ftlFlushBy writeThroughLpn s

theorem flushLoop_succ (s : Ftl) (n : ℕ) :
    flushLoop s (n + 1) = flushEntry (flushLoop s n) n := rfl

theorem ftlFlush_eq (s : Ftl) : ftlFlush s = flushLoop s nBuffers := rfl

def writeToBuffer (s : Ftl) (lba nsect : ℕ) (buf : ℕ → Word) : Ftl :=
  writeToBufferBy writeThroughLpn s lba nsect buf

def ftlWrite (s : Ftl) (lba nsect : ℕ) (buf : ℕ → Word) : Ftl :=
  ftlWriteBy writeThroughLpn s lba nsect buf

def step (s : Ftl) (op : Op) : Ftl := stepBy writeThroughLpn s op

/-- Trimming `npage` pages of a flat array of sectors. -/
def trimFlat (flat : ℕ → Word) (lpn npage : ℕ) : ℕ → Word := fun a =>
  if lpn ≤ a / 8 ∧ a / 8 < lpn + npage then blank else flat a

/-- The flat array of sectors the device stands for. -/
def flatStep (flat : ℕ → Word) : Op → ℕ → Word
  | .read _ _ _ _ => flat
  | .write lba nsect buf _ => writeFlat flat lba nsect buf
  | .flush _ => flat
  | .trim lpn npage => trimFlat flat lpn npage

/-- What each sector should read as after a history of calls. -/
def expected (ops : List Op) : ℕ → Word := Machine.run flatStep (fun _ => blank) ops

end BufferedFtl
