import Coursework.Lib.Machine
import Coursework.PageMap.Transfer

/-! The page-mapping FTL of lab 2 (`HW2/HW2_Submit/ftl.c`, `ftl.h`). -/
namespace PageFtl
open Nand Sector PageMap

def nBanks : ℕ := 2
def blksPerBank : ℕ := 8
def pagesPerBlk : ℕ := 4
def nGcBlocks : ℕ := 1
def opRatio : ℕ := 7
def nUserBlocksPb : ℕ := (blksPerBank - nGcBlocks) * 100 / (100 + opRatio)
def nLpnsPb : ℕ := nUserBlocksPb * pagesPerBlk
def nLpns : ℕ := nLpnsPb * nBanks

def geometry : Geometry where
  blksPerBank := blksPerBank
  pagesPerBlk := pagesPerBlk
  nLpnsPb := nLpnsPb
  pages_pos := by decide
  spare_room := by decide

/-- Lab 2 keeps no block ages. -/
def hooks : Hooks Unit where
  opened := fun _ _ a => a
  erased := fun _ a => a

abbrev Ftl := Banks Unit

def getVictimPblk (s : Bank Unit) : ℕ := PageMap.getVictimPblk geometry s.isValid

def garbageCollection (bank : ℕ) (s : Bank Unit) : Bank Unit :=
  PageMap.garbageCollection geometry hooks bank s

def writeThroughLpn (s : Ftl) (bank halvedLpn : ℕ) (data : Sectors) : Ftl :=
  s.writeThroughLpn geometry hooks bank halvedLpn data

/-- `ftl_open`; `mem` is the storage `nand_init` gets from `malloc`. -/
def ftlOpen (mem : ℕ → Page Sectors ℕ) (stack : Page Sectors ℕ) : Ftl where
  row := fun _ => Banks.initRow geometry ()
  nand := (Banks.initNand geometry nBanks mem).get rfl
  stats := ⟨0, 0, 0, 0⟩
  stack := stack
  codes := []

/-- The single-page case of `ftl_read`. -/
def readSingle (s : Ftl) (r : Request) (st : Reading) : Reading :=
  let lpn := r.firstPageFirstLba / 8
  let bank := lpn % nBanks
  let halvedLpn := lpn / nBanks
  let ppn := (s.row bank).l2p halvedLpn
  if ppn = -1 then { st with buf := store st.buf st.cur r.nsect fun _ => blank }
  else
    let rd := s.readPpn geometry bank ppn st.data
    { st with
      buf := store st.buf st.cur (r.lastLbaOffset + 1 - r.firstLbaOffset)
        fun i => rd.2.data.get (r.firstLbaOffset + i)
      data := rd.2.data
      codes := rd.1 :: st.codes }

/-- Round `pp` of the page loop of `ftl_read`. -/
def readPage (s : Ftl) (r : Request) (pp : ℕ) (st : Reading) : Reading :=
  let lpn := pp + r.firstPageFirstLba / 8
  let bank := lpn % nBanks
  let halvedLpn := lpn / nBanks
  let ppn := (s.row bank).l2p halvedLpn
  let rd := s.readPpn geometry bank ppn st.data
  if pp = 0 then
    let sectorKazu := 8 - r.firstLbaOffset
    if ppn = -1 then
      { st with buf := store st.buf st.cur sectorKazu fun _ => blank, cur := st.cur + sectorKazu }
    else
      { buf := store st.buf st.cur (8 - r.firstLbaOffset)
          fun i => rd.2.data.get (r.firstLbaOffset + i)
        cur := st.cur + sectorKazu, data := rd.2.data, codes := rd.1 :: st.codes }
  else if pp = r.sendKazu - 1 then
    -- here `sector_kazu` is one less than the number of sectors on the page
    let sectorKazu := r.lastLbaOffset
    if ppn = -1 then
      { st with buf := store st.buf st.cur sectorKazu fun _ => blank, cur := st.cur + sectorKazu }
    else
      { buf := store st.buf st.cur (r.lastLbaOffset + 1) rd.2.data.get
        cur := st.cur + sectorKazu, data := rd.2.data, codes := rd.1 :: st.codes }
  else
    let sectorKazu := 8
    if ppn = -1 then
      { st with buf := store st.buf st.cur 8 fun _ => blank, cur := st.cur + sectorKazu }
    else
      { buf := store st.buf st.cur 8 rd.2.data.get
        cur := st.cur + sectorKazu, data := rd.2.data, codes := rd.1 :: st.codes }

/-- The page loop of `ftl_read` after its first `pp` rounds. -/
def readLoop (s : Ftl) (r : Request) (st : Reading) : ℕ → Reading
  | 0 => st
  | pp + 1 => readPage s r pp (readLoop s r st pp)

/-- `ftl_read`; `buf` is what the caller's buffer holds before the call, and `data` what
the uninitialised local of that name holds. -/
def ftlRead (s : Ftl) (lba nsect : ℕ) (buf : ℕ → Word) (data : Sectors) : Ftl × (ℕ → Word) :=
  let r : Request := ⟨lba, nsect⟩
  let st : Reading := ⟨buf, 0, data, []⟩
  let st := if r.sendKazu = 1 then readSingle s r st else readLoop s r st r.sendKazu
  ({ s with codes := st.codes ++ s.codes }, st.buf)

/-- The locals of `ftl_write` that live across pages: the position of
`current_write_buffer` and `data`. -/
structure Writing where
  ftl : Ftl
  cur : ℕ
  data : Sectors

/-- `nand_read` of the page behind a mapped entry into `data`. -/
def Writing.fetch (w : Writing) (bank : ℕ) (ppn : ℤ) : Writing :=
  let rd := w.ftl.readPpn geometry bank ppn w.data
  { w with data := rd.2.data, ftl := { w.ftl with codes := rd.1 :: w.ftl.codes } }

/-- The single-page case of `ftl_write`. -/
def writeSingle (r : Request) (buf : ℕ → Word) (w : Writing) : Writing :=
  let lpn := r.firstPageFirstLba / 8
  let bank := lpn % nBanks
  let halvedLpn := lpn / nBanks
  let ppn := (w.ftl.row bank).l2p halvedLpn
  let w := if ppn = -1 then
      let head := w.data.patch 0 r.firstLbaOffset fun _ => blank
      { w with data := head.patch (r.lastLbaOffset + 1) (7 - r.lastLbaOffset) fun _ => blank }
    else w.fetch bank ppn
  let n := r.lastLbaOffset - r.firstLbaOffset + 1
  let data := w.data.patch r.firstLbaOffset n fun i => buf (w.cur + i)
  { ftl := writeThroughLpn w.ftl bank halvedLpn data, cur := w.cur + n, data := data }

/-- Round `pp` of the page loop of `ftl_write`. -/
def writePage (r : Request) (buf : ℕ → Word) (pp : ℕ) (w : Writing) : Writing :=
  let lpn := pp + r.firstPageFirstLba / 8
  let bank := lpn % nBanks
  let halvedLpn := lpn / nBanks
  let ppn := (w.ftl.row bank).l2p halvedLpn
  if pp = 0 then
    let w := if ppn = -1 then { w with data := w.data.patch 0 r.firstLbaOffset fun _ => blank }
      else w.fetch bank ppn
    let n := 8 - r.firstLbaOffset
    let data := w.data.patch r.firstLbaOffset n fun i => buf (w.cur + i)
    { ftl := writeThroughLpn w.ftl bank halvedLpn data, cur := w.cur + n, data := data }
  else if pp = r.sendKazu - 1 then
    let w := if ppn = -1 then
        { w with data := w.data.patch (r.lastLbaOffset + 1) (7 - r.lastLbaOffset) fun _ => blank }
      else w.fetch bank ppn
    let n := r.lastLbaOffset + 1
    let data := w.data.patch 0 n fun i => buf (w.cur + i)
    { ftl := writeThroughLpn w.ftl bank halvedLpn data, cur := w.cur + n, data := data }
  else
    let data := w.data.patch 0 8 fun i => buf (w.cur + i)
    { ftl := writeThroughLpn w.ftl bank halvedLpn data, cur := w.cur + 8, data := data }

/-- The page loop of `ftl_write` after its first `pp` rounds. -/
def writeLoop (r : Request) (buf : ℕ → Word) (w : Writing) : ℕ → Writing
  | 0 => w
  | pp + 1 => writePage r buf pp (writeLoop r buf w pp)

/-- `ftl_write`; `data` is what the uninitialised local of that name holds. -/
def ftlWrite (s : Ftl) (lba nsect : ℕ) (buf : ℕ → Word) (data : Sectors) : Ftl :=
  let r : Request := ⟨lba, nsect⟩
  let w : Writing := ⟨s, 0, data⟩
  let w := if r.sendKazu = 1 then writeSingle r buf w else writeLoop r buf w r.sendKazu
  { w.ftl with stats := { w.ftl.stats with hostWrite := w.ftl.stats.hostWrite + nsect } }

/-- A call of the driver, with the contents of the caller's buffer and of the
uninitialised local `data`. -/
inductive Op where
  | read (lba nsect : ℕ) (buf : ℕ → Word) (data : Sectors)
  | write (lba nsect : ℕ) (buf : ℕ → Word) (data : Sectors)

/-- A request of at least one sector inside the logical space. -/
def InRange (lba nsect : ℕ) : Prop := 0 < nsect ∧ lba + nsect ≤ nLpns * 8

def Op.InRange : Op → Prop
  | .read lba nsect _ _ => PageFtl.InRange lba nsect
  | .write lba nsect _ _ => PageFtl.InRange lba nsect

def step (s : Ftl) : Op → Ftl
  | .read lba nsect buf data => (ftlRead s lba nsect buf data).1
  | .write lba nsect buf data => ftlWrite s lba nsect buf data

/-- The flat array of sectors the device stands for. -/
def flatStep (flat : ℕ → Word) : Op → ℕ → Word
  | .read _ _ _ _ => flat
  | .write lba nsect buf _ => writeFlat flat lba nsect buf

/-- What each sector should read as after a history of calls. -/
def expected (ops : List Op) : ℕ → Word := Machine.run flatStep (fun _ => blank) ops

end PageFtl
