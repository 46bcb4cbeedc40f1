import Coursework.BigFile.Core
import Coursework.Lib.Program

/-! The log of the file system: the calls around a transaction, the commit, and the recovery
after a crash. A program emits the state after each write to the disk, since the machine may
crash there. -/
namespace Journal
open Program BigFile

def logsize : ℕ := maxopblocks * 3

abbrev Block := ℕ → ℕ

/-- `log.start` and `log.size`, which `initlog` takes from the superblock. -/
structure Area where
  start : ℕ
  size : ℕ

/-- `struct log`, the contents that `bread` returns, and those on the disk. `lh` is
`log.lh.block[0..log.lh.n)`. -/
structure Kernel where
  outstanding : ℤ
  committing : Bool
  lh : List ℕ
  buf : ℕ → Block
  disk : ℕ → Block

/-- New contents for block `b`, in the cache and on the disk. -/
def Kernel.put (s : Kernel) (b : ℕ) (data : Block) : Kernel :=
  { s with buf := Function.update s.buf b data, disk := Function.update s.disk b data }

section Put
variable (s : Kernel) (b : ℕ) (data : Block)

@[simp] theorem put_lh : (s.put b data).lh = s.lh := rfl

@[simp] theorem put_outstanding : (s.put b data).outstanding = s.outstanding := rfl

@[simp] theorem put_committing : (s.put b data).committing = s.committing := rfl

@[simp] theorem put_buf_self : (s.put b data).buf b = data := Function.update_self ..

@[simp] theorem put_disk_self : (s.put b data).disk b = data := Function.update_self ..

variable {b} {b' : ℕ}

theorem put_buf_of_ne (h : b' ≠ b) : (s.put b data).buf b' = s.buf b' :=
  Function.update_of_ne h ..

theorem put_disk_of_ne (h : b' ≠ b) : (s.put b data).disk b' = s.disk b' :=
  Function.update_of_ne h ..

end Put

inductive Panic where
  | tooBig
  | outsideOfTrans
  | committing
  deriving DecidableEq

abbrev M (α : Type) := Program Kernel Panic Kernel α

variable (a : Area)

/-- `bwrite` of a buffer whose data has been replaced. -/
def bwrite (b : ℕ) (data : Block) : M Unit := assign fun s => s.put b data

/-- Copies the blocks of the log to where they belong. -/
def installTrans : M Unit := do
  let s ← read
  (List.range s.lh.length).forM fun tail => do
    let s ← read
    bwrite (s.lh.getD tail 0) (s.buf (a.start + tail + 1))

/-- The header on the disk: `n`, then the block numbers. -/
def readHead : M Unit := change fun s =>
  { s with lh := (List.range (getWord (s.buf a.start) 0)).map fun i =>
      getWord (s.buf a.start) (i + 1) }

/-- The header with `n` and the first `n` block numbers replaced. -/
def putHead (lh : List ℕ) (d : Block) : Block :=
  (List.range lh.length).foldl (fun d i => putWord d (i + 1) (lh.getD i 0))
    (putWord d 0 lh.length)

def writeHead : M Unit := do
  let s ← read
  bwrite a.start (putHead s.lh (s.buf a.start))

def recoverFromLog : M Unit := do
  readHead a
  installTrans a
  change fun s => { s with lh := [] }
  writeHead a

/-- Returns whether the caller is let in; else it sleeps. -/
def beginOp : M Bool := do
  let s ← read
  if s.committing then pure false
  else if (logsize : ℤ) < s.lh.length + (s.outstanding + 1) * maxopblocks then pure false
  else do
    change fun s => { s with outstanding := s.outstanding + 1 }
    pure true

/-- Copies the modified blocks from the cache to the log. -/
def writeLog : M Unit := do
  let s ← read
  (List.range s.lh.length).forM fun tail => do
    let s ← read
    bwrite (a.start + tail + 1) (s.buf (s.lh.getD tail 0))

def commit : M Unit := do
  let s ← read
  if 0 < s.lh.length then do
    writeLog a
    writeHead a
    installTrans a
    change fun s => { s with lh := [] }
    writeHead a
  else pure ()

def endOp : M Unit := do
  change fun s => { s with outstanding := s.outstanding - 1 }
  let s ← read
  if s.committing then stop .committing
  else if s.outstanding = 0 then do
    change fun s => { s with committing := true }
    commit a
    change fun s => { s with committing := false }
  else pure ()

/-- A block that is in the log already is absorbed. -/
def logWrite (b : ℕ) : M Unit := do
  let s ← read
  if logsize ≤ s.lh.length ∨ a.size ≤ s.lh.length + 1 then stop .tooBig
  else if s.outstanding < 1 then stop .outsideOfTrans
  else change fun s => { s with lh := if b ∈ s.lh then s.lh else s.lh ++ [b] }

/-- The use of `log_write` that its comment describes: `bread`, modify the data, `log_write`. -/
def modify (b : ℕ) (data : Block) : M Unit := do
  change fun s => { s with buf := Function.update s.buf b data }
  logWrite a b

/-- The calls of the file system. -/
inductive Call where
  | begin
  | modify (b : ℕ) (data : Block)
  | finish

def exec : Call → M Unit
  | .begin => do
    let _ ← beginOp
    pure ()
  | .modify b data => modify a b data
  | .finish => endOp a

/-- The memory after a power failure. -/
def Kernel.booted (s : Kernel) : Kernel := ⟨0, false, [], s.disk, s.disk⟩

/-- The machine boots, and crashes and boots again any number of times before `initlog` gets
through the recovery. -/
inductive Reboots : Kernel → Kernel → Prop
  | done {s s'} (h : (recoverFromLog a s.booted).result = .ok () s') : Reboots s s'
  | again {s w s'} (hw : w ∈ s.booted :: (recoverFromLog a s.booted).events)
    (h : Reboots w s') : Reboots s s'

/-- A call that returns, or a call during which the machine crashes, with the reboot. -/
inductive Label where
  | call (c : Call)
  | crash (c : Call)

inductive Step : Kernel → Label → Kernel → Prop
  | call {s c s'} (h : (exec a c s).result = .ok () s') : Step s (.call c) s'
  | crash {s c w s'} (hw : w ∈ s :: (exec a c s).events) (h : Reboots a w s') :
    Step s (.crash c) s'

end Journal
