import Coursework.Lib.Circular
import Coursework.Nand.Simulator
import Mathlib.Data.UInt

/-! The ZNS+ simulator (`zns.c`) over the NAND of `nand.c`. A page has `NSECT`, which is 8,
sectors of one word. -/
namespace Zns
open Nand

abbrev Word := UInt32

/-- What a sector holds that was not written. -/
def blank : Word := 0xFFFFFFFF

/-- The arguments of `zns_init`. -/
structure Geometry where
  nbank : ℕ
  nblk : ℕ
  npage : ℕ
  deg : ℕ
  maxOpen : ℕ
  nbank_pos : 0 < nbank
  nblk_pos : 0 < nblk
  npage_pos : 0 < npage
  deg_pos : 0 < deg

namespace Geometry

variable (g : Geometry)

def numFcg : ℕ := g.nbank / g.deg

def maxZone : ℕ := g.nbank / g.deg * (g.nblk - g.maxOpen)

def zoneSize : ℕ := g.deg * g.npage * 8

def slba (zone : ℕ) : ℕ := zone * g.zoneSize

def lbaToZone (lba : ℕ) : ℕ := lba / g.zoneSize

def zoneToFcg (zone : ℕ) : ℕ := zone % g.numFcg

def lbaToBank (fcg lba : ℕ) : ℕ := fcg * g.deg + lba / 8 % g.deg

def lbaToPage (lba : ℕ) : ℕ := lba / (g.deg * 8) % g.npage

end Geometry

/-- `enum zone_state`. -/
inductive ZoneState where
  | empty
  | opened
  | full
  | tlOpen
  deriving DecidableEq, Repr

/-- The globals of `zns.c`. `codes` has what the calls of `nand_write` in `buffer_flush` returned,
the last one first; the code does not look at it. -/
structure Dev where
  nand : Device (ℕ → Word) ℕ
  queue : ℕ → Circular ℤ
  openZoneCnt : ℤ
  z2Fbg : ℕ → ℤ
  z2LogFbg : ℕ → ℤ
  state : ℕ → ZoneState
  wp : ℕ → ℕ
  buffer : ℕ → ℕ → Word
  validMap : ℕ → ℕ → ℕ
  codes : List Code

variable (g : Geometry)

/-- `Queue_init` for one flash channel group; `slots` is what `malloc` returned. -/
def queueInit (slots : ℕ → ℤ) : Circular ℤ :=
  (List.range g.nblk).foldl (fun q (fbg : ℕ) => (q.push g.nblk fbg).getD q) ⟨slots, 0, 0, 0⟩

/-- `zns_init`; `mem` and `slots` are what `malloc` returned. -/
def znsInit (mem : ℕ → Page (ℕ → Word) ℕ) (slots : ℕ → ℕ → ℤ) : Option Dev :=
  (nandInit mem g.nbank g.nblk g.npage).map fun n =>
    { nand := n
      queue := fun fcg => queueInit g (slots fcg)
      openZoneCnt := 0
      z2Fbg := fun _ => -1
      z2LogFbg := fun _ => -1
      state := fun _ => .empty
      wp := g.slba
      buffer := fun _ _ => 0
      validMap := fun _ _ => 0
      codes := [] }

/-- `Queue_Push`; its result is not used. -/
def queuePush (s : Dev) (fcg : ℕ) (data : ℤ) : Dev :=
  { s with
    queue := Function.update s.queue fcg (((s.queue fcg).push g.nblk data).getD (s.queue fcg)) }

def queuePop (s : Dev) (fcg : ℕ) : ℤ × Dev :=
  match (s.queue fcg).pop g.nblk with
  | none => (-1, s)
  | some (data, q) => (data, { s with queue := Function.update s.queue fcg q })

def bufferFlush (s : Dev) (zone : ℕ) : Dev :=
  let startLba := s.wp zone - 8
  let bank := g.lbaToBank (g.zoneToFcg zone) startLba
  let fbg := if s.state zone = .tlOpen then s.z2LogFbg zone else s.z2Fbg zone
  let page := g.lbaToPage startLba
  let w := nandWrite s.nand bank fbg page (s.buffer zone) startLba
  let s := { s with
    nand := w.1
    codes := w.2 :: s.codes
    buffer := Function.update s.buffer zone fun _ => 0 }
  if s.wp zone = g.slba zone + g.zoneSize then
    { s with
      state := Function.update s.state zone .full
      openZoneCnt := s.openZoneCnt - 1 }
  else s

/-- `buffer[zone][i] = v; ZD[zone].wp++; if(ZD[zone].wp%NSECT==0) buffer_flush(zone);`. -/
def putSector (s : Dev) (zone i : ℕ) (v : Word) : Dev :=
  let s := { s with
    buffer := Function.update s.buffer zone (Function.update (s.buffer zone) i v)
    wp := Function.update s.wp zone (s.wp zone + 1) }
  if s.wp zone % 8 = 0 then bufferFlush g s zone else s

/-- The loop of `zns_write` over the data, from sector `lba` on. -/
def writeData (s : Dev) (zone lba : ℕ) : List Word → Dev
  | [] => s
  | v :: data => writeData (putSector g s zone (lba % 8) v) zone (lba + 1) data

/-- What `nand_read` leaves in `tmp_data` for the page of a sector. -/
def readPage (s : Dev) (fcg : ℕ) (fbg : ℤ) (lba : ℕ) (tmp : ℕ → Word) : ℕ → Word :=
  (nandRead s.nand (g.lbaToBank fcg lba) fbg (g.lbaToPage lba) tmp 0).2.data

/-- The last loop of `zns_write`, with the number of sectors up to the end of the zone. -/
def copyOff (zone : ℕ) (fbg : ℤ) : ℕ → (ℕ → Word) → Dev → Dev
  | 0, _, s => s
  | n + 1, tmp, s =>
    if s.validMap zone (s.wp zone % g.zoneSize) = 1 then
      let tmp := readPage g s (g.zoneToFcg zone) fbg (s.wp zone) tmp
      copyOff zone fbg n tmp (putSector g s zone (s.wp zone % 8) (tmp (s.wp zone % 8)))
    else s

/-- The `ZONE_OPEN` branch of `zns_write`. -/
def writeOpen (s : Dev) (zone startLba : ℕ) (data : List Word) : ℤ × Dev :=
  if startLba ≠ s.wp zone then (-1, s)
  else (0, writeData g s zone startLba data)

/-- The `ZONE_TLOPEN` branch of `zns_write`; `tmp` is what `tmp_data` holds at first. -/
def writeTlOpen (s : Dev) (tmp : ℕ → Word) (zone startLba : ℕ) (data : List Word) : ℤ × Dev :=
  if startLba ≠ s.wp zone then (-1, s)
  else if (List.range data.length).any fun i => s.validMap zone ((startLba + i) % g.zoneSize) == 1
  then (-1, s)
  else
    let fbg := s.z2Fbg zone
    let s := writeData g s zone startLba data
    (0, copyOff g zone fbg (g.slba zone + g.zoneSize - s.wp zone) tmp s)

/-- The group for an `EMPTY` zone, taken from the free queue, and its descriptor. -/
def openZone (s : Dev) (zone : ℕ) : Dev :=
  let (fbg, s) := queuePop g s (g.zoneToFcg zone)
  { s with
    openZoneCnt := s.openZoneCnt + 1
    z2Fbg := Function.update s.z2Fbg zone fbg
    state := Function.update s.state zone .opened
    wp := Function.update s.wp zone (g.slba zone) }

def znsWrite (s : Dev) (tmp : ℕ → Word) (startLba : ℕ) (data : List Word) : ℤ × Dev :=
  let zone := g.lbaToZone startLba
  match s.state zone with
  | .empty =>
    if startLba ≠ g.slba zone ∨ s.openZoneCnt ≥ g.maxOpen then (-1, s)
    else writeOpen g (openZone g s zone) zone startLba data
  | .opened => writeOpen g s zone startLba data
  | .full => (-1, s)
  | .tlOpen => writeTlOpen g s tmp zone startLba data

/-- The erase of a block group in every bank of its channel group. -/
def eraseGroup (n : Device (ℕ → Word) ℕ) (fcg : ℕ) (fbg : ℤ) : Device (ℕ → Word) ℕ :=
  (List.range g.deg).foldl (fun n i => (nandErase n ((fcg * g.deg + i : ℕ) : ℤ) fbg).1) n

/-- A block group pushed to the free queue and erased. -/
def release (s : Dev) (fcg : ℕ) (fbg : ℤ) : Dev :=
  let s := queuePush g s fcg fbg
  { s with nand := eraseGroup g s.nand fcg fbg }

/-- The group of a zone given back. -/
def releaseFbg (s : Dev) (zone : ℕ) : Dev :=
  let s := release g s (g.zoneToFcg zone) (s.z2Fbg zone)
  { s with z2Fbg := Function.update s.z2Fbg zone (-1) }

/-- The log group of a zone given back. -/
def releaseLog (s : Dev) (zone : ℕ) : Dev :=
  let s := release g s (g.zoneToFcg zone) (s.z2LogFbg zone)
  { s with z2LogFbg := Function.update s.z2LogFbg zone (-1) }

/-- The descriptor of a zone that is reset. -/
def clearZone (s : Dev) (zone : ℕ) : Dev :=
  { s with
    wp := Function.update s.wp zone (g.slba zone)
    state := Function.update s.state zone .empty }

def clearValid (s : Dev) (zone : ℕ) : Dev :=
  { s with validMap := Function.update s.validMap zone fun _ => 0 }

def znsReset (s : Dev) (lba : ℕ) : ℤ × Dev :=
  let zone := g.lbaToZone lba
  if s.state zone ≠ .full then (-1, s)
  else
    let s := releaseFbg g (clearZone g s zone) zone
    let s := if s.z2LogFbg zone ≠ -1 then releaseLog g s zone else s
    (0, clearValid s zone)

/-- The loop of `zns_izc` over the copy list. -/
def copySectors (srcZone destZone fcg : ℕ) (fbg : ℤ) : List ℕ → (ℕ → Word) → Dev → Dev
  | [], _, s => s
  | c :: list, tmp, s =>
    let lba := srcZone * g.zoneSize + c
    let tmp := readPage g s fcg fbg lba tmp
    copySectors srcZone destZone fcg fbg list tmp
      (putSector g s destZone (s.wp destZone % 8) (tmp (c % 8)))

def znsIzc (s : Dev) (tmp : ℕ → Word) (srcZone destZone : ℕ) (copyList : List ℕ) : ℤ × Dev :=
  if s.openZoneCnt = g.maxOpen ∨ s.state srcZone ≠ .full ∨ s.state destZone ≠ .empty ∨
      srcZone = destZone then (-1, s)
  else
    let fcg := g.zoneToFcg srcZone
    let fbg := s.z2Fbg srcZone
    let s := openZone g s destZone
    let s := { s with z2LogFbg := Function.update s.z2LogFbg destZone (-1) }
    let s := copySectors g srcZone destZone fcg fbg copyList tmp s
    (0, (znsReset g s (srcZone * g.zoneSize)).2)

/-- The end of the loop body of `zns_tl_open`, for a zone that has become full. -/
def closeLog (s : Dev) (zone : ℕ) : Dev :=
  let s := releaseLog g s zone
  clearValid { s with openZoneCnt := s.openZoneCnt - 1 } zone

/-- The loop of `zns_tl_open`, from sector `i` of the zone on. -/
def copyValid (zone : ℕ) (srcFbg : ℤ) : ℕ → ℕ → (ℕ → Word) → Dev → Dev
  | 0, _, _, s => s
  | n + 1, i, tmp, s =>
    if s.validMap zone i = 0 then s
    else
      let tmp := readPage g s (g.zoneToFcg zone) srcFbg (zone * g.zoneSize + i) tmp
      let s := putSector g s zone (s.wp zone % 8) (tmp (i % 8))
      let s := if s.wp zone % 8 = 0 ∧ s.state zone = .full then closeLog g s zone else s
      copyValid zone srcFbg n (i + 1) tmp s

/-- The log group for a `FULL` zone, taken from the free queue, and its descriptor. -/
def openLog (s : Dev) (zone : ℕ) (validArr : ℕ → ℕ) : Dev :=
  let (logFbg, s) := queuePop g s (g.zoneToFcg zone)
  { s with
    openZoneCnt := s.openZoneCnt + 1
    z2LogFbg := Function.update s.z2LogFbg zone logFbg
    state := Function.update s.state zone .tlOpen
    wp := Function.update s.wp zone (g.slba zone)
    validMap := Function.update s.validMap zone validArr }

def znsTlOpen (s : Dev) (tmp : ℕ → Word) (zone : ℕ) (validArr : ℕ → ℕ) : ℤ × Dev :=
  if s.openZoneCnt = g.maxOpen ∨ s.state zone ≠ .full then (-1, s)
  else
    let srcFbg := s.z2Fbg zone
    (0, copyValid g zone srcFbg g.zoneSize 0 tmp (openLog g s zone validArr))

end Zns
