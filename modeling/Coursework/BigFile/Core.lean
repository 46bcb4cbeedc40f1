import Mathlib.Data.List.Range
import Mathlib.Data.Int.Basic
import Mathlib.Logic.Function.Basic
import Mathlib.Algebra.Group.Nat.Defs

/-! The block layer and the file layer of the file system with double-indirect blocks:
block allocation, the block map of an inode, reads and writes of its bytes, and the
transactions of `filewrite`. `none` is a panic. -/
namespace BigFile

def bsize : ℕ := 512
def ndirect : ℕ := 11
def nindirect : ℕ := 128
def dindirect : ℕ := nindirect * nindirect
def maxfile : ℕ := ndirect + nindirect + dindirect

/-- Inodes and bitmap bits per block. -/
def ipb : ℕ := 8
def bpb : ℕ := 4096

def maxopblocks : ℕ := 10
def tDev : ℤ := 3
def ndev : ℤ := 10

/-- The fields of the superblock that the file layer reads. -/
structure Superblock where
  size : ℕ
  nblocks : ℕ
  ninodes : ℕ
  inodestart : ℕ
  bmapstart : ℕ

/-- The part of an in-memory inode that is a copy of the disk inode. -/
structure Inode where
  type : ℤ
  major : ℤ
  minor : ℤ
  nlink : ℤ
  size : ℕ
  addrs : ℕ → ℕ

/-- The file system: `disk` holds the bytes of each block, `log` the block numbers the open
transaction has logged, `commits` those of the finished transactions. `devsw` tells which
devices have a driver, `input` what the devices deliver and `pipewrite` what a pipe answers. -/
structure Fs where
  sb : Superblock
  disk : ℕ → ℕ → ℕ
  inode : ℕ → Inode
  log : List ℕ
  commits : List (List ℕ)
  devsw : ℕ → Bool
  input : List (List ℕ)
  pipewrite : ℤ → ℤ

/-- Entry `k` of a block read as an array of 32-bit words. -/
def getWord (d : ℕ → ℕ) (k : ℕ) : ℕ :=
  d (4 * k) + 256 * d (4 * k + 1) + 65536 * d (4 * k + 2) + 16777216 * d (4 * k + 3)

def putWord (d : ℕ → ℕ) (k w : ℕ) : ℕ → ℕ :=
  fun j => if j / 4 = k then w / 256 ^ (j % 4) % 256 else d j

theorem getWord_zero (k : ℕ) : getWord (fun _ => 0) k = 0 := rfl

theorem getWord_putWord_self (d : ℕ → ℕ) (k : ℕ) {w : ℕ} (hw : w < 4294967296) :
    getWord (putWord d k w) k = w := by
  have h0 : 4 * k / 4 = k := by omega
  have h1 : (4 * k + 1) / 4 = k := by omega
  have h2 : (4 * k + 2) / 4 = k := by omega
  have h3 : (4 * k + 3) / 4 = k := by omega
  have m0 : 4 * k % 4 = 0 := by omega
  have m1 : (4 * k + 1) % 4 = 1 := by omega
  have m2 : (4 * k + 2) % 4 = 2 := by omega
  have m3 : (4 * k + 3) % 4 = 3 := by omega
  simp only [getWord, putWord, h0, h1, h2, h3, m0, m1, m2, m3, if_true]
  omega

theorem getWord_putWord_of_ne (d : ℕ → ℕ) {j k : ℕ} (w : ℕ) (h : j ≠ k) :
    getWord (putWord d k w) j = getWord d j := by
  have h0 : 4 * j / 4 ≠ k := by omega
  have h1 : (4 * j + 1) / 4 ≠ k := by omega
  have h2 : (4 * j + 2) / 4 ≠ k := by omega
  have h3 : (4 * j + 3) / 4 ≠ k := by omega
  simp only [getWord, putWord, if_neg h0, if_neg h1, if_neg h2, if_neg h3]

def Fs.setBlock (s : Fs) (b : ℕ) (d : ℕ → ℕ) : Fs :=
  { s with disk := Function.update s.disk b d }

def Inode.setAddr (ip : Inode) (k a : ℕ) : Inode :=
  { ip with addrs := Function.update ip.addrs k a }

def Inode.setSize (ip : Inode) (n : ℕ) : Inode := { ip with size := n }

def Fs.setInode (s : Fs) (i : ℕ) (ip : Inode) : Fs :=
  { s with inode := Function.update s.inode i ip }

/-- `log_write`: a block the transaction has logged already is absorbed. The length of the
on-disk log is left open; `log` tells how much of it the transaction takes. -/
def Fs.logWrite (s : Fs) (b : ℕ) : Fs :=
  { s with log := if b ∈ s.log then s.log else s.log ++ [b] }

def Fs.iblock (s : Fs) (i : ℕ) : ℕ := i / ipb + s.sb.inodestart
def Fs.bblock (s : Fs) (b : ℕ) : ℕ := b / bpb + s.sb.bmapstart

def bzero (s : Fs) (b : ℕ) : Fs := (s.setBlock b fun _ => 0).logWrite b

/-- `(bp->data[bi/8] & (1 << (bi % 8))) == 0`. -/
def bitFree (d : ℕ → ℕ) (bi : ℕ) : Prop := d (bi / 8) &&& 1 <<< (bi % 8) = 0

instance (d : ℕ → ℕ) (bi : ℕ) : Decidable (bitFree d bi) :=
  inferInstanceAs (Decidable (_ = _))

def markBit (d : ℕ → ℕ) (bi : ℕ) : ℕ → ℕ :=
  Function.update d (bi / 8) (d (bi / 8) ||| 1 <<< (bi % 8))

/-- The inner loop of `balloc`, for the bits from `bi` on. -/
def scanBlock (d : ℕ → ℕ) (b size : ℕ) : ℕ → ℕ → Option ℕ
  | 0, _ => none
  | n + 1, bi =>
    if b + bi < size then
      if bitFree d bi then some bi else scanBlock d b size n (bi + 1)
    else none

/-- The outer loop of `balloc`, from block `b` on. -/
def ballocFrom (s : Fs) : ℕ → ℕ → Option (Fs × ℕ)
  | 0, _ => none
  | n + 1, b =>
    if b < s.sb.size then
      match scanBlock (s.disk (s.bblock b)) b s.sb.size bpb 0 with
      | some bi =>
        let bp := s.bblock b
        some (bzero ((s.setBlock bp (markBit (s.disk bp) bi)).logWrite bp) (b + bi), b + bi)
      | none => ballocFrom s n (b + bpb)
    else none

/-- Allocates a zeroed block; running out of blocks is a panic. -/
def balloc (s : Fs) : Option (Fs × ℕ) := ballocFrom s (s.sb.size / bpb + 1) 0

/-- The block in `ip->addrs[k]`, allocated if there is none. -/
def bmapAddr (s : Fs) (i k : ℕ) : Option (Fs × ℕ) :=
  if (s.inode i).addrs k = 0 then do
    let (s, addr) ← balloc s
    some (s.setInode i ((s.inode i).setAddr k addr), addr)
  else some (s, (s.inode i).addrs k)

/-- The block in entry `k` of the index block `blk`, allocated if there is none. -/
def bmapEntry (s : Fs) (blk k : ℕ) : Option (Fs × ℕ) :=
  if getWord (s.disk blk) k = 0 then do
    let (s, addr) ← balloc s
    some ((s.setBlock blk (putWord (s.disk blk) k addr)).logWrite blk, addr)
  else some (s, getWord (s.disk blk) k)

def bmap (s : Fs) (i bn : ℕ) : Option (Fs × ℕ) :=
  if bn < ndirect then bmapAddr s i bn
  else
    let bn := bn - ndirect
    if bn < nindirect then do
      let (s, addr) ← bmapAddr s i ndirect
      bmapEntry s addr bn
    else
      let bn := bn - nindirect
      if bn < dindirect then do
        let (s, addr) ← bmapAddr s i (ndirect + 1)
        let (s, addr) ← bmapEntry s addr (bn / 128)
        bmapEntry s addr (bn % 128)
      else none

/-- Word `k` of a disk inode. -/
def Inode.word (ip : Inode) : ℕ → ℕ
  | 0 => (ip.type % 65536).toNat + 65536 * (ip.major % 65536).toNat
  | 1 => (ip.minor % 65536).toNat + 65536 * (ip.nlink % 65536).toNat
  | 2 => ip.size
  | k + 3 => ip.addrs k

/-- Copies inode `i` into its place in its disk block. -/
def iupdate (s : Fs) (i : ℕ) : Fs :=
  let bp := s.iblock i
  let data := fun j =>
    if 64 * (i % ipb) ≤ j ∧ j < 64 * (i % ipb) + 64 then
      (s.inode i).word ((j - 64 * (i % ipb)) / 4) / 256 ^ (j % 4) % 256
    else s.disk bp j
  (s.setBlock bp data).logWrite bp

/-- The loop of `readi`, which reads `n` bytes from `off` on. -/
def readLoop : ℕ → Fs → ℕ → ℕ → ℕ → Option (Fs × List ℕ)
  | 0, s, _, _, _ => some (s, [])
  | fuel + 1, s, i, off, n =>
    if n = 0 then some (s, [])
    else do
      let (s, b) ← bmap s i (off / bsize)
      let m := min n (bsize - off % bsize)
      let dst := (List.range m).map fun k => s.disk b (off % bsize + k)
      let (s, rest) ← readLoop fuel s i (off + m) (n - m)
      some (s, dst ++ rest)

/-- The result of a device read and the bytes it delivers. -/
def devRead (s : Fs) (ip : Inode) (n : ℕ) : Fs × ℤ × List ℕ :=
  if ip.major < 0 ∨ ndev ≤ ip.major ∨ s.devsw ip.major.toNat = false then (s, -1, [])
  else
    let bytes := (s.input.headD []).take n
    ({ s with input := s.input.tail }, bytes.length, bytes)

def devWrite (s : Fs) (ip : Inode) (n : ℕ) : ℤ :=
  if ip.major < 0 ∨ ndev ≤ ip.major ∨ s.devsw ip.major.toNat = false then -1 else n

/-- The sum of two 32-bit numbers. -/
def uadd (a b : ℕ) : ℕ := (a + b) % 4294967296

/-- `readi`: its result and the bytes it has put at `dst`. -/
def readi (s : Fs) (i off n : ℕ) : Option (Fs × ℤ × List ℕ) :=
  let ip := s.inode i
  if ip.type = tDev then some (devRead s ip n)
  else if ip.size < off ∨ uadd off n < off then some (s, -1, [])
  else
    let n := if ip.size < uadd off n then ip.size - off else n
    do
      let (s, bytes) ← readLoop n s i off n
      some (s, n, bytes)

/-- The block that `memmove` leaves when it puts `m` bytes of `src` at `pos`. -/
def putBytes (d : ℕ → ℕ) (pos m : ℕ) (src : ℕ → ℕ) : ℕ → ℕ :=
  fun j => if pos ≤ j ∧ j < pos + m then src (j - pos) else d j

/-- The loop of `writei`, which writes `n` bytes of `src` from `off` on. -/
def writeLoop : ℕ → Fs → ℕ → (ℕ → ℕ) → ℕ → ℕ → Option Fs
  | 0, s, _, _, _, _ => some s
  | fuel + 1, s, i, src, off, n =>
    if n = 0 then some s
    else do
      let (s, b) ← bmap s i (off / bsize)
      let m := min n (bsize - off % bsize)
      let s := (s.setBlock b (putBytes (s.disk b) (off % bsize) m src)).logWrite b
      writeLoop fuel s i (fun k => src (m + k)) (off + m) (n - m)

/-- The end of `writei`: the size follows a write past the end. -/
def growSize (s : Fs) (i off n : ℕ) : Fs :=
  if 0 < n ∧ (s.inode i).size < off then iupdate (s.setInode i ((s.inode i).setSize off)) i else s

def writei (s : Fs) (i : ℕ) (src : ℕ → ℕ) (off n : ℕ) : Option (Fs × ℤ) :=
  let ip := s.inode i
  if ip.type = tDev then some (s, devWrite s ip n)
  else if ip.size < off ∨ uadd off n < off then some (s, -1)
  else if maxfile * bsize < uadd off n then some (s, -1)
  else do
    let s ← writeLoop n s i src off n
    some (growSize s i (off + n) n, n)

/-- A transaction opens with nothing logged. -/
def beginOp (s : Fs) : Fs := { s with log := [] }

def endOp (s : Fs) : Fs := { s with log := [], commits := s.commits ++ [s.log] }

inductive FileType where
  | none
  | pipe
  | inode
  deriving DecidableEq

/-- `struct file`. -/
structure File where
  type : FileType
  writable : Bool
  ip : ℕ
  off : ℕ

/-- `max` of `filewrite`. -/
def chunkMax : ℕ := (maxopblocks - 1 - 1 - 2) / 2 * 512

/-- The loop of `filewrite`: the state, the offset of the file and the number of bytes
written. -/
def writeChunks : ℕ → Fs → ℕ → (ℕ → ℕ) → ℕ → ℕ → Option (Fs × ℕ × ℕ)
  | 0, s, _, _, off, _ => some (s, off, 0)
  | fuel + 1, s, ip, src, off, n =>
    if n = 0 then some (s, off, 0)
    else
      let n1 := min n chunkMax
      do
        let (s, r) ← writei (beginOp s) ip src off n1
        let off := if 0 < r then uadd off r.toNat else off
        let s := endOp s
        if r < 0 then some (s, off, 0)
        else if r ≠ n1 then none
        else
          (writeChunks fuel s ip (fun k => src (n1 + k)) off (n - n1)).map
            fun (s, off, i) => (s, off, n1 + i)

def filewrite (s : Fs) (f : File) (src : ℕ → ℕ) (n : ℤ) : Option (Fs × File × ℤ) :=
  if f.writable = false then some (s, f, -1)
  else
    match f.type with
    | .pipe => some (s, f, s.pipewrite n)
    | .inode => do
      let (s, off, i) ← writeChunks n.toNat s f.ip src f.off n.toNat
      some (s, { f with off := off }, if (i : ℤ) = n then n else -1)
    | .none => none

end BigFile
