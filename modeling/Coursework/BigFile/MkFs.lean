import Coursework.BigFile.BlockMap

/-! `mkfs`: it builds the image of a file system with its own copy of the block layer. `none`
is a failed assertion, a failed read or an access behind the end of an array. -/
namespace BigFile.MkFs

def fssize : ℕ := 20000
def ninodes : ℕ := 200
def nlog : ℕ := maxopblocks * 3
def nbitmap : ℕ := fssize / (bsize * 8) + 1
def ninodeblocks : ℕ := ninodes / ipb + 1
def nmeta : ℕ := 2 + nlog + ninodeblocks + nbitmap
def tDir : ℤ := 1
def tFile : ℤ := 2
def rootino : ℕ := 1

/-- The image and the counters of `mkfs`. -/
structure Img where
  disk : ℕ → ℕ → ℕ
  freeblock : ℕ
  freeinode : ℕ

/-- The bytes of a sequence of 32-bit words. -/
def bytesOf (w : ℕ → ℕ) : ℕ → ℕ := fun j => w (j / 4) / 256 ^ (j % 4) % 256

/-- A 16-bit word as a `short`. -/
def short (w : ℕ) : ℤ := if w % 65536 < 32768 then w % 65536 else w % 65536 - 65536

/-- The disk inode in place `k` of an inode block. -/
def dinodeAt (d : ℕ → ℕ) (k : ℕ) : Inode where
  type := short (getWord d (16 * k))
  major := short (getWord d (16 * k) / 65536)
  minor := short (getWord d (16 * k + 1))
  nlink := short (getWord d (16 * k + 1) / 65536)
  size := getWord d (16 * k + 2)
  addrs j := if j < 13 then getWord d (16 * k + 3 + j) else 0

/-- The inode block with a disk inode in place `k`. -/
def putDinode (d : ℕ → ℕ) (k : ℕ) (ip : Inode) : ℕ → ℕ := fun j =>
  if 16 * k ≤ j / 4 ∧ j / 4 < 16 * k + 16 then bytesOf (fun w => ip.word (w - 16 * k)) j else d j

/-- The words of the superblock. -/
def superblock : ℕ → ℕ
  | 0 => fssize
  | 1 => fssize - nmeta
  | 2 => ninodes
  | 3 => nlog
  | 4 => 2
  | 5 => 2 + nlog
  | 6 => 2 + nlog + ninodeblocks
  | _ => 0

/-- The first block of the inodes and the block of the bitmap. -/
def inodestart : ℕ := superblock 5
def bmapstart : ℕ := superblock 6

def Img.rsect (m : Img) (sec : ℕ) : Option (ℕ → ℕ) :=
  if sec < fssize then some (m.disk sec) else none

def Img.wsect (m : Img) (sec : ℕ) (buf : ℕ → ℕ) : Img :=
  { m with disk := Function.update m.disk sec buf }

/-- `freeblock++`. -/
def Img.next (m : Img) : Img := { m with freeblock := m.freeblock + 1 }

def rinode (m : Img) (inum : ℕ) : Option Inode := do
  let buf ← m.rsect (inum / ipb + inodestart)
  some (dinodeAt buf (inum % ipb))

def winode (m : Img) (inum : ℕ) (ip : Inode) : Option Img := do
  let buf ← m.rsect (inum / ipb + inodestart)
  some (m.wsect (inum / ipb + inodestart) (putDinode buf (inum % ipb) ip))

def ialloc (m : Img) (type : ℤ) : Option Img :=
  winode { m with freeinode := m.freeinode + 1 } m.freeinode ⟨type, 0, 0, 1, 0, fun _ => 0⟩

/-- The bitmap block with the first `used` bits set. -/
def bitmap (used : ℕ) : ℕ → ℕ := (List.range used).foldl markBit fun _ => 0

def balloc (m : Img) (used : ℕ) : Option Img :=
  if used < bsize * 8 then some (m.wsect bmapstart (bitmap used)) else none

/-- The block of file block `fbn` in the loop of `iappend`, taken from `freeblock` if there is
none. The array `indirect` has `NINDIRECT` entries, and `fbn - NDIRECT` may lie behind it. -/
def blockOf (m : Img) (din : Inode) (fbn : ℕ) : Option (Img × Inode × ℕ) :=
  if maxfile ≤ fbn then none
  else if fbn < ndirect then
    if din.addrs fbn = 0 then some (m.next, din.setAddr fbn m.freeblock, m.freeblock)
    else some (m, din, din.addrs fbn)
  else
    let (m, din) := if din.addrs ndirect = 0 then (m.next, din.setAddr ndirect m.freeblock)
      else (m, din)
    do
      let indirect ← m.rsect (din.addrs ndirect)
      if nindirect ≤ fbn - ndirect then none
      else if getWord indirect (fbn - ndirect) = 0 then
        some (m.next.wsect (din.addrs ndirect) (putWord indirect (fbn - ndirect) m.freeblock),
          din, m.freeblock)
      else some (m, din, getWord indirect (fbn - ndirect))

/-- The loop of `iappend`, which appends `n` bytes of `p` at `off`. -/
def appendLoop : ℕ → Img → Inode → (ℕ → ℕ) → ℕ → ℕ → Option (Img × Inode × ℕ)
  | 0, m, din, _, off, _ => some (m, din, off)
  | fuel + 1, m, din, p, off, n =>
    if n = 0 then some (m, din, off)
    else do
      let (m, din, x) ← blockOf m din (off / bsize)
      let n1 := min n (bsize - off % bsize)
      let buf ← m.rsect x
      appendLoop fuel (m.wsect x (putBytes buf (off % bsize) n1 p)) din (fun k => p (n1 + k))
        (off + n1) (n - n1)

def iappend (m : Img) (inum : ℕ) (p : ℕ → ℕ) (n : ℕ) : Option Img := do
  let din ← rinode m inum
  let (m, din, off) ← appendLoop n m din p din.size n
  winode m inum (din.setSize off)

/-- A directory entry; the name is cut or filled up to `DIRSIZ` bytes. -/
def dirent (inum : ℕ) (name : List ℕ) : ℕ → ℕ
  | 0 => inum % 256
  | 1 => inum / 256 % 256
  | k + 2 => (name.take 14).getD k 0

/-- An argument of `mkfs`: the name of a file, which contains no '/', and the file as the
sequence of the pieces in which it is read. -/
structure SourceFile where
  name : List ℕ
  no_slash : 47 ∉ name
  pieces : List (List ℕ)

/-- The name without a leading '_'. -/
def SourceFile.entry (f : SourceFile) : List ℕ :=
  if f.name.head? = some 95 then f.name.tail else f.name

/-- The bytes of the file. -/
def SourceFile.bytes (f : SourceFile) : List ℕ := f.pieces.flatten

/-- Appends a list of bytes. -/
def append (m : Img) (inum : ℕ) (l : List ℕ) : Option Img :=
  iappend m inum (fun k => l.getD k 0) l.length

/-- One round of the loop of `main`. -/
def addFile (m : Img) (f : SourceFile) : Option Img := do
  let inum := m.freeinode
  let m ← ialloc m tFile
  let m ← iappend m rootino (dirent inum f.entry) 16
  f.pieces.foldlM (fun m l => append m inum l) m

/-- "fix size of root inode dir". -/
def fixRoot (m : Img) : Option Img := do
  let din ← rinode m rootino
  winode m rootino (din.setSize ((din.size / bsize + 1) * bsize))

/-- The image with nothing but a superblock. -/
def blank : Img where
  disk := Function.update (fun _ _ => 0) 1 (bytesOf superblock)
  freeblock := nmeta
  freeinode := 1

def main (files : List SourceFile) : Option Img := do
  let m ← ialloc blank tDir
  let m ← iappend m rootino (dirent rootino [46]) 16
  let m ← iappend m rootino (dirent rootino [46, 46]) 16
  let m ← files.foldlM addFile m
  let m ← fixRoot m
  balloc m m.freeblock

/-- `readsb` of the kernel. -/
def readsb (disk : ℕ → ℕ → ℕ) : Superblock where
  size := getWord (disk 1) 0
  nblocks := getWord (disk 1) 1
  ninodes := getWord (disk 1) 2
  inodestart := getWord (disk 1) 5
  bmapstart := getWord (disk 1) 6

/-- The inodes as `ilock` reads them. -/
def inodesOf (sb : Superblock) (disk : ℕ → ℕ → ℕ) (i : ℕ) : Inode :=
  if i < sb.ninodes then dinodeAt (disk (i / ipb + sb.inodestart)) (i % ipb)
  else ⟨0, 0, 0, 0, 0, fun _ => 0⟩

/-- The file system that the kernel finds on the image. -/
def mount (m : Img) : Fs where
  sb := readsb m.disk
  disk := m.disk
  inode := inodesOf (readsb m.disk) m.disk
  log := []
  commits := []
  devsw _ := false
  input := []
  pipewrite _ := -1

section Words

theorem getWord_of_bytes {d : ℕ → ℕ} {k v : ℕ} (h : ∀ r < 4, d (4 * k + r) = v / 256 ^ r % 256) :
    getWord d k = v % 4294967296 := by
  have h0 : d (4 * k) = v % 256 := by simpa using h 0 (by decide)
  have h1 : d (4 * k + 1) = v / 256 % 256 := by simpa using h 1 (by decide)
  have h2 : d (4 * k + 2) = v / 65536 % 256 := h 2 (by decide)
  have h3 : d (4 * k + 3) = v / 16777216 % 256 := h 3 (by decide)
  unfold getWord
  rw [h0, h1, h2, h3]
  omega

theorem getWord_bytesOf (w : ℕ → ℕ) (k : ℕ) : getWord (bytesOf w) k = w k % 4294967296 := by
  apply getWord_of_bytes
  intro r hr
  unfold bytesOf
  rw [show (4 * k + r) / 4 = k by omega, show (4 * k + r) % 4 = r by omega]

theorem getWord_congr {d d' : ℕ → ℕ} {k : ℕ} (h : ∀ r < 4, d (4 * k + r) = d' (4 * k + r)) :
    getWord d k = getWord d' k := by
  unfold getWord
  rw [h 1 (by decide), h 2 (by decide), h 3 (by decide), show 4 * k = 4 * k + 0 from rfl,
    h 0 (by decide)]

theorem getWord_putDinode (d : ℕ → ℕ) (k : ℕ) (ip : Inode) (w : ℕ) :
    getWord (putDinode d k ip) w =
      if 16 * k ≤ w ∧ w < 16 * k + 16 then ip.word (w - 16 * k) % 4294967296 else getWord d w := by
  have hdiv : ∀ r < 4, (4 * w + r) / 4 = w := fun r hr => by omega
  split
  · next h =>
    rw [← getWord_bytesOf fun w => ip.word (w - 16 * k)]
    apply getWord_congr
    intro r hr
    unfold putDinode
    rw [hdiv r hr, if_pos h]
  · next h =>
    apply getWord_congr
    intro r hr
    unfold putDinode
    rw [hdiv r hr, if_neg h]

/-- The fields have the sizes that they have on the disk. -/
structure Packed (ip : Inode) : Prop where
  type : -32768 ≤ ip.type ∧ ip.type < 32768
  major : -32768 ≤ ip.major ∧ ip.major < 32768
  minor : -32768 ≤ ip.minor ∧ ip.minor < 32768
  nlink : -32768 ≤ ip.nlink ∧ ip.nlink < 32768
  size : ip.size < 4294967296
  addrs : ∀ j, ip.addrs j < 4294967296
  out : ∀ j, 13 ≤ j → ip.addrs j = 0

theorem short_low {a b : ℤ} (ha : -32768 ≤ a ∧ a < 32768) :
    short (((a % 65536).toNat + 65536 * (b % 65536).toNat) % 4294967296) = a := by
  unfold short
  omega

theorem short_high {a b : ℤ} (hb : -32768 ≤ b ∧ b < 32768) :
    short (((a % 65536).toNat + 65536 * (b % 65536).toNat) % 4294967296 / 65536) = b := by
  unfold short
  omega

/-- A disk inode is read back as it was written. -/
theorem dinodeAt_putDinode_self (d : ℕ → ℕ) (k : ℕ) {ip : Inode} (h : Packed ip) :
    dinodeAt (putDinode d k ip) k = ip := by
  have hword : ∀ j < 16,
      getWord (putDinode d k ip) (16 * k + j) = ip.word j % 4294967296 := by
    intro j hj
    rw [getWord_putDinode, if_pos (by omega), Nat.add_sub_cancel_left]
  have h0 := hword 0 (by decide)
  have h1 := hword 1 (by decide)
  have h2 := hword 2 (by decide)
  unfold dinodeAt
  rw [Nat.add_zero] at h0
  rw [h0, h1, h2]
  obtain ⟨type, major, minor, nlink, size, addrs⟩ := ip
  rw [Inode.mk.injEq]
  refine ⟨short_low h.type, short_high h.major, short_low h.minor, short_high h.nlink,
    Nat.mod_eq_of_lt h.size, ?_⟩
  funext j
  split
  · next hj =>
    rw [Nat.add_assoc, hword (3 + j) (by omega), Nat.add_comm 3 j]
    exact Nat.mod_eq_of_lt (h.addrs j)
  · next hj => exact (h.out j (by omega)).symm

theorem dinodeAt_putDinode_of_ne (d : ℕ → ℕ) {j k : ℕ} (ip : Inode) (h : j ≠ k) :
    dinodeAt (putDinode d k ip) j = dinodeAt d j := by
  have hword : ∀ r < 16,
      getWord (putDinode d k ip) (16 * j + r) = getWord d (16 * j + r) := by
    intro r hr
    rw [getWord_putDinode, if_neg (by omega)]
  unfold dinodeAt
  have h0 := hword 0 (by decide)
  rw [Nat.add_zero] at h0
  rw [h0, hword 1 (by decide), hword 2 (by decide), Inode.mk.injEq]
  refine ⟨rfl, rfl, rfl, rfl, rfl, ?_⟩
  funext r
  split
  · next hr => rw [Nat.add_assoc, hword (3 + r) (by omega)]
  · rfl

end Words

section Bitmap

theorem bitmap_succ (n : ℕ) : bitmap (n + 1) = markBit (bitmap n) n := by
  unfold bitmap
  rw [List.range_succ, List.foldl_append]
  rfl

theorem testBit_bitmap (n b : ℕ) : (bitmap n (b / 8)).testBit (b % 8) = decide (b < n) := by
  induction n with
  | zero => simp [bitmap]
  | succ n ih =>
    rw [bitmap_succ, testBit_markBit, ih]
    have hiff : b < n + 1 ↔ b = n ∨ b < n := by omega
    simp [hiff]

end Bitmap

end BigFile.MkFs
