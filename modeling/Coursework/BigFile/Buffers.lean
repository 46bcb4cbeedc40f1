import Coursework.BigFile.Address
import Coursework.BigFile.Truncate
import Coursework.Lib.Handles

/-! The functions of the file system with the buffers that they read, use and release. A
buffer is always found: of `bread` only the wait for a locked buffer is left. -/
namespace BigFile.Buffers
open Handles

/-- A panic is the only error. -/
abbrev Code (α : Type) := Prog ℕ Unit Fs α

def bread (b : ℕ) : Code Unit := acquire b

def brelse (b : ℕ) : Code Unit := Handles.release b

def panic : Code α := fail ()

def readsb : Code Unit := do
  bread 1
  store 1 BigFile.readsb
  brelse 1

def bzero (bno : ℕ) : Code Unit := do
  bread bno
  store bno fun s => s.setBlock bno fun _ => 0
  store bno fun s => s.logWrite bno
  brelse bno

def ballocFrom : ℕ → ℕ → Code ℕ
  | 0, _ => panic
  | n + 1, b => do
    let s ← peek id
    if b < s.sb.size then do
      bread (s.bblock b)
      let bi ← look (s.bblock b) fun s =>
        scanBlock (s.disk (s.bblock b)) b s.sb.size bpb 0
      match bi with
      | some bi => do
        store (s.bblock b) fun s => s.setBlock (s.bblock b) (markBit (s.disk (s.bblock b)) bi)
        store (s.bblock b) fun s => s.logWrite (s.bblock b)
        brelse (s.bblock b)
        bzero (b + bi)
        pure (b + bi)
      | none => do
        brelse (s.bblock b)
        ballocFrom n (b + bpb)
    else panic

def balloc : Code ℕ := do
  let size ← peek fun s => s.sb.size
  ballocFrom (size / bpb + 1) 0

def bfree (b : ℕ) : Code Unit := do
  readsb
  let s ← peek id
  bread (s.bblock b)
  let free ← look (s.bblock b) fun s => decide (bitFree (s.disk (s.bblock b)) (b % bpb))
  if free then panic
  else do
    store (s.bblock b) fun s =>
      s.setBlock (s.bblock b) (clearBit (s.disk (s.bblock b)) (b % bpb))
    store (s.bblock b) fun s => s.logWrite (s.bblock b)
    brelse (s.bblock b)

def iupdate (i : ℕ) : Code Unit := do
  let s ← peek id
  bread (s.iblock i)
  store (s.iblock i) fun s => BigFile.iupdate s i
  brelse (s.iblock i)

def bmapAddr (i k : ℕ) : Code ℕ := do
  let addr ← peek fun s => (s.inode i).addrs k
  if addr = 0 then do
    let addr ← balloc
    poke fun s => s.setInode i ((s.inode i).setAddr k addr)
    pure addr
  else pure addr

/-- The entry of an index block whose buffer is held. -/
def fillEntry (blk k : ℕ) : Code ℕ := do
  let addr ← look blk fun s => getWord (s.disk blk) k
  if addr = 0 then do
    let addr ← balloc
    store blk fun s => s.setBlock blk (putWord (s.disk blk) k addr)
    store blk fun s => s.logWrite blk
    pure addr
  else pure addr

def bmapEntry (blk k : ℕ) : Code ℕ := do
  bread blk
  let addr ← fillEntry blk k
  brelse blk
  pure addr

def bmap (i bn : ℕ) : Code ℕ :=
  if bn < ndirect then bmapAddr i bn
  else
    let bn := bn - ndirect
    if bn < nindirect then do
      let addr ← bmapAddr i ndirect
      bmapEntry addr bn
    else
      let bn := bn - nindirect
      if bn < dindirect then do
        let addr ← bmapAddr i (ndirect + 1)
        let addr ← bmapEntry addr (bn / 128)
        bmapEntry addr (bn % 128)
      else panic

/-- A step of `bmap2` through an index block: a zero entry is returned with the buffer held. -/
def entryOf (blk k : ℕ) (next : ℕ → Code ℕ) : Code ℕ := do
  bread blk
  let addr ← look blk fun s => getWord (s.disk blk) k
  if addr = 0 then pure noBlock
  else do
    brelse blk
    next addr

def bmap2 (i bn : ℕ) : Code ℕ :=
  if bn < ndirect then do
    let addr ← peek fun s => (s.inode i).addrs bn
    if addr = 0 then pure noBlock else pure addr
  else
    let bn := bn - ndirect
    if bn < nindirect then do
      let addr ← peek fun s => (s.inode i).addrs ndirect
      if addr = 0 then pure noBlock else entryOf addr bn pure
    else
      let bn := bn - nindirect
      if bn < dindirect then do
        let addr ← peek fun s => (s.inode i).addrs (ndirect + 1)
        if addr = 0 then pure noBlock
        else entryOf addr (bn / 128) fun addr => entryOf addr (bn % 128) pure
      else panic

def truncDirect (i : ℕ) : ℕ → Code Unit
  | 0 => pure ()
  | n + 1 => do
    truncDirect i n
    let addr ← peek fun s => (s.inode i).addrs n
    if addr ≠ 0 then do
      bfree addr
      poke fun s => s.setInode i ((s.inode i).setAddr n 0)
    else pure ()

/-- The loop over the entries of an index block whose buffer is held. -/
def truncEntries (blk : ℕ) : ℕ → Code Unit
  | 0 => pure ()
  | n + 1 => do
    truncEntries blk n
    let addr ← look blk fun s => getWord (s.disk blk) n
    if addr ≠ 0 then bfree addr else pure ()

def truncIndirect (i : ℕ) : Code Unit := do
  let blk ← peek fun s => (s.inode i).addrs ndirect
  if blk ≠ 0 then do
    bread blk
    truncEntries blk nindirect
    brelse blk
    let blk ← peek fun s => (s.inode i).addrs ndirect
    bfree blk
    poke fun s => s.setInode i ((s.inode i).setAddr ndirect 0)
  else pure ()

def itrunc (i : ℕ) : Code Unit := do
  truncDirect i ndirect
  truncIndirect i
  poke fun s => s.setInode i ((s.inode i).setSize 0)
  iupdate i

def readLoop : ℕ → ℕ → ℕ → ℕ → Code (List ℕ)
  | 0, _, _, _ => pure []
  | fuel + 1, i, off, n =>
    if n = 0 then pure []
    else do
      let b ← bmap i (off / bsize)
      bread b
      let m := min n (bsize - off % bsize)
      let dst ← look b fun s => (List.range m).map fun k => s.disk b (off % bsize + k)
      brelse b
      let rest ← readLoop fuel i (off + m) (n - m)
      pure (dst ++ rest)

def readi (i off n : ℕ) : Code (ℤ × List ℕ) := do
  let s ← peek id
  if (s.inode i).type = tDev then do
    let r ← peek fun s => devRead s (s.inode i) n
    poke fun _ => r.1
    pure r.2
  else if (s.inode i).size < off ∨ uadd off n < off then pure (-1, [])
  else do
    let n := if (s.inode i).size < uadd off n then (s.inode i).size - off else n
    let bytes ← readLoop n i off n
    pure (n, bytes)

def writeLoop : ℕ → ℕ → (ℕ → ℕ) → ℕ → ℕ → Code Unit
  | 0, _, _, _, _ => pure ()
  | fuel + 1, i, src, off, n =>
    if n = 0 then pure ()
    else do
      let b ← bmap i (off / bsize)
      bread b
      let m := min n (bsize - off % bsize)
      store b fun s => s.setBlock b (putBytes (s.disk b) (off % bsize) m src)
      store b fun s => s.logWrite b
      brelse b
      writeLoop fuel i (fun k => src (m + k)) (off + m) (n - m)

def growSize (i off n : ℕ) : Code Unit := do
  let size ← peek fun s => (s.inode i).size
  if 0 < n ∧ size < off then do
    poke fun s => s.setInode i ((s.inode i).setSize off)
    iupdate i
  else pure ()

def writei (i : ℕ) (src : ℕ → ℕ) (off n : ℕ) : Code ℤ := do
  let s ← peek id
  if (s.inode i).type = tDev then pure (devWrite s (s.inode i) n)
  else if (s.inode i).size < off ∨ uadd off n < off then pure (-1)
  else if maxfile * bsize < uadd off n then pure (-1)
  else do
    writeLoop n i src off n
    growSize i (off + n) n
    pure n

/-! Each function computes what its model without buffers computes, and gives back every
buffer that it takes. -/

section Specifications
variable (v : Fs) (c : Locks ℕ)

theorem readsb_executes : Executes v c readsb (some (BigFile.readsb v)) := by
  refine Runs.acquire_bind fun hk => ?_
  refine Runs.store_bind (Locks.mem_lock_self c 1) ?_
  exact Runs.release hk rfl

theorem bzero_executes (bno : ℕ) : Executes v c (bzero bno) (some (BigFile.bzero v bno)) := by
  refine Runs.acquire_bind fun hk => ?_
  refine Runs.store_bind (Locks.mem_lock_self c bno) ?_
  refine Runs.store_bind (Locks.mem_lock_self c bno) ?_
  exact Runs.release hk rfl

theorem ballocFrom_computes (n b : ℕ) :
    Computes v c (ballocFrom n b) (BigFile.ballocFrom v n b) := by
  induction n generalizing b with
  | zero => exact Runs.fail
  | succ n ih =>
    refine Runs.peek_bind ?_
    rw [BigFile.ballocFrom]
    dsimp only [id]
    by_cases hb : b < v.sb.size
    · rw [if_pos hb, if_pos hb]
      refine Runs.acquire_bind fun hk => ?_
      have hmem := Locks.mem_lock_self c (v.bblock b)
      refine Runs.look_bind hmem ?_
      cases scanBlock (v.disk (v.bblock b)) b v.sb.size bpb 0 with
      | some bi =>
        refine Runs.store_bind hmem ?_
        refine Runs.store_bind hmem ?_
        refine Runs.release_bind hk ?_
        refine (bzero_executes _ c (b + bi)).bind fun _ v' hv' => Runs.pure ?_
        rw [Option.some.injEq] at hv'
        rw [← hv']
        rfl
      | none =>
        refine Runs.release_bind hk ?_
        exact ih (b + bpb)
    · rw [if_neg hb]
      exact Runs.fail

theorem balloc_computes : Computes v c balloc (BigFile.balloc v) :=
  Runs.peek_bind (ballocFrom_computes v c _ 0)

theorem bfree_executes (b : ℕ) : Executes v c (bfree b) (BigFile.bfree v b) := by
  refine (readsb_executes v c).bind fun _ v' hv' => ?_
  rw [Option.some.injEq] at hv'
  subst hv'
  refine Runs.peek_bind ?_
  dsimp only [id]
  refine Runs.acquire_bind fun hk => ?_
  have hmem := Locks.mem_lock_self c ((BigFile.readsb v).bblock b)
  refine Runs.look_bind hmem ?_
  by_cases hfree : bitFree ((BigFile.readsb v).disk ((BigFile.readsb v).bblock b)) (b % bpb)
  · rw [decide_eq_true hfree]
    exact Runs.fail
  · rw [decide_eq_false hfree]
    refine Runs.store_bind hmem ?_
    refine Runs.store_bind hmem ?_
    exact Runs.release hk (if_neg hfree)

theorem iupdate_executes (i : ℕ) : Executes v c (iupdate i) (some (BigFile.iupdate v i)) := by
  refine Runs.peek_bind ?_
  refine Runs.acquire_bind fun hk => ?_
  refine Runs.store_bind (Locks.mem_lock_self c _) ?_
  exact Runs.release hk rfl

theorem bmapAddr_computes (i k : ℕ) :
    Computes v c (bmapAddr i k) (BigFile.bmapAddr v i k) := by
  refine Runs.peek_bind ?_
  unfold BigFile.bmapAddr
  by_cases h0 : (v.inode i).addrs k = 0
  · rw [if_pos h0, if_pos h0]
    refine (balloc_computes v c).bind fun addr v' hv' => ?_
    refine Runs.poke_bind (Runs.pure ?_)
    rw [hv']
    rfl
  · rw [if_neg h0, if_neg h0]
    exact Runs.pure rfl

theorem bmapEntry_computes (blk k : ℕ) :
    Computes v c (bmapEntry blk k) (BigFile.bmapEntry v blk k) := by
  refine Runs.acquire_bind fun hk => ?_
  have hmem := Locks.mem_lock_self c blk
  have hfill : Runs v (c.lock blk) (fillEntry blk k) (c.lock blk) fun a v' =>
      BigFile.bmapEntry v blk k = some (v', a) := by
    refine Runs.look_bind hmem ?_
    unfold BigFile.bmapEntry
    by_cases h0 : getWord (v.disk blk) k = 0
    · rw [if_pos h0, if_pos h0]
      refine (balloc_computes v (c.lock blk)).bind fun addr v' hv' => ?_
      refine Runs.store_bind hmem ?_
      refine Runs.store_bind hmem (Runs.pure ?_)
      rw [hv']
      rfl
    · rw [if_neg h0, if_neg h0]
      exact Runs.pure rfl
  refine hfill.bind fun addr v' hv' => ?_
  exact Runs.release_bind hk (Runs.pure hv')

theorem bmap_computes (i bn : ℕ) : Computes v c (bmap i bn) (BigFile.bmap v i bn) := by
  unfold bmap BigFile.bmap
  dsimp only
  by_cases h1 : bn < ndirect
  · rw [if_pos h1, if_pos h1]
    exact bmapAddr_computes v c i bn
  · rw [if_neg h1, if_neg h1]
    by_cases h2 : bn - ndirect < nindirect
    · rw [if_pos h2, if_pos h2]
      refine (bmapAddr_computes v c i ndirect).bind fun addr v' hv' => ?_
      rw [hv']
      exact bmapEntry_computes v' c addr _
    · rw [if_neg h2, if_neg h2]
      by_cases h3 : bn - ndirect - nindirect < dindirect
      · rw [if_pos h3, if_pos h3]
        refine (bmapAddr_computes v c i (ndirect + 1)).bind fun addr v' hv' => ?_
        rw [hv']
        refine (bmapEntry_computes v' c addr _).bind fun addr' v'' hv'' => ?_
        rw [Option.bind_eq_bind, Option.bind_some, hv'']
        exact bmapEntry_computes v'' c addr' _
      · rw [if_neg h3]
        exact Runs.fail

theorem truncDirect_executes (i n : ℕ) :
    Executes v c (truncDirect i n) (BigFile.truncDirect v i n) := by
  induction n with
  | zero => exact Runs.pure rfl
  | succ n ih =>
    refine ih.bind fun _ v' hv' => ?_
    rw [BigFile.truncDirect, hv', Option.bind_eq_bind, Option.bind_some]
    refine Runs.peek_bind ?_
    by_cases h0 : (v'.inode i).addrs n ≠ 0
    · rw [if_pos h0, if_pos h0]
      refine (bfree_executes v' c _).bind fun _ v'' hv'' => Runs.poke ?_
      rw [hv'']
      rfl
    · rw [if_neg h0, if_neg h0]
      exact Runs.pure rfl

theorem truncEntries_executes {blk : ℕ} (hmem : blk ∈ c.own) (n : ℕ) :
    Executes v c (truncEntries blk n) (BigFile.truncEntries v blk n) := by
  induction n with
  | zero => exact Runs.pure rfl
  | succ n ih =>
    refine ih.bind fun _ v' hv' => ?_
    rw [BigFile.truncEntries, hv', Option.bind_eq_bind, Option.bind_some]
    refine Runs.look_bind hmem ?_
    by_cases h0 : getWord (v'.disk blk) n ≠ 0
    · rw [if_pos h0, if_pos h0]
      exact bfree_executes v' c _
    · rw [if_neg h0, if_neg h0]
      exact Runs.pure rfl

theorem truncIndirect_executes (i : ℕ) :
    Executes v c (truncIndirect i) (BigFile.truncIndirect v i) := by
  refine Runs.peek_bind ?_
  unfold BigFile.truncIndirect
  by_cases h0 : (v.inode i).addrs ndirect ≠ 0
  · rw [if_pos h0, if_pos h0]
    refine Runs.acquire_bind fun hk => ?_
    refine (truncEntries_executes v _ (Locks.mem_lock_self c _) nindirect).bind fun _ v' hv' => ?_
    refine Runs.release_bind hk (Runs.peek_bind ?_)
    rw [hv', Option.bind_eq_bind, Option.bind_some]
    refine (bfree_executes v' c _).bind fun _ v'' hv'' => Runs.poke ?_
    rw [hv'']
    rfl
  · rw [if_neg h0, if_neg h0]
    exact Runs.pure rfl

theorem itrunc_executes (i : ℕ) : Executes v c (itrunc i) (BigFile.itrunc v i) := by
  refine (truncDirect_executes v c i ndirect).bind fun _ v' hv' => ?_
  refine (truncIndirect_executes v' c i).bind fun _ v'' hv'' => ?_
  refine Runs.poke_bind ?_
  refine (iupdate_executes _ c i).mono fun _ t ht => ?_
  rw [BigFile.itrunc, hv', Option.bind_eq_bind, Option.bind_some, hv'']
  exact ht

theorem readLoop_computes (fuel i off n : ℕ) :
    Computes v c (readLoop fuel i off n) (BigFile.readLoop fuel v i off n) := by
  induction fuel generalizing v off n with
  | zero => exact Runs.pure rfl
  | succ fuel ih =>
    rw [readLoop, BigFile.readLoop]
    by_cases h0 : n = 0
    · rw [if_pos h0, if_pos h0]
      exact Runs.pure rfl
    · rw [if_neg h0, if_neg h0]
      refine (bmap_computes v c i _).bind fun b v' hv' => ?_
      rw [hv', Option.bind_eq_bind, Option.bind_some]
      refine Runs.acquire_bind fun hk => ?_
      refine Runs.look_bind (Locks.mem_lock_self c b) ?_
      refine Runs.release_bind hk ?_
      refine (ih v' _ _).bind fun rest v'' hv'' => Runs.pure ?_
      dsimp only
      rw [hv'']
      rfl

theorem readi_computes (i off n : ℕ) :
    Computes v c (readi i off n) (BigFile.readi v i off n) := by
  refine Runs.peek_bind ?_
  unfold BigFile.readi
  dsimp only [id]
  by_cases hdev : (v.inode i).type = tDev
  · rw [if_pos hdev, if_pos hdev]
    exact Runs.peek_bind (Runs.poke_bind (Runs.pure rfl))
  · rw [if_neg hdev, if_neg hdev]
    by_cases hout : (v.inode i).size < off ∨ uadd off n < off
    · rw [if_pos hout, if_pos hout]
      exact Runs.pure rfl
    · rw [if_neg hout, if_neg hout]
      refine (readLoop_computes v c _ i off _).bind fun bytes v' hv' => Runs.pure ?_
      rw [hv']
      rfl

theorem writeLoop_executes (fuel i : ℕ) (src : ℕ → ℕ) (off n : ℕ) :
    Executes v c (writeLoop fuel i src off n) (BigFile.writeLoop fuel v i src off n) := by
  induction fuel generalizing v src off n with
  | zero => exact Runs.pure rfl
  | succ fuel ih =>
    rw [writeLoop, BigFile.writeLoop]
    by_cases h0 : n = 0
    · rw [if_pos h0, if_pos h0]
      exact Runs.pure rfl
    · rw [if_neg h0, if_neg h0]
      refine (bmap_computes v c i _).bind fun b v' hv' => ?_
      rw [hv', Option.bind_eq_bind, Option.bind_some]
      have hmem := Locks.mem_lock_self c b
      refine Runs.acquire_bind fun hk => ?_
      refine Runs.store_bind hmem ?_
      refine Runs.store_bind hmem ?_
      refine Runs.release_bind hk ?_
      exact ih _ _ _ _

theorem growSize_executes (i off n : ℕ) :
    Executes v c (growSize i off n) (some (BigFile.growSize v i off n)) := by
  refine Runs.peek_bind ?_
  unfold BigFile.growSize
  by_cases hgrow : 0 < n ∧ (v.inode i).size < off
  · rw [if_pos hgrow, if_pos hgrow]
    exact Runs.poke_bind (iupdate_executes _ c i)
  · rw [if_neg hgrow, if_neg hgrow]
    exact Runs.pure rfl

theorem writei_computes (i : ℕ) (src : ℕ → ℕ) (off n : ℕ) :
    Computes v c (writei i src off n) (BigFile.writei v i src off n) := by
  refine Runs.peek_bind ?_
  unfold BigFile.writei
  dsimp only [id]
  by_cases hdev : (v.inode i).type = tDev
  · rw [if_pos hdev, if_pos hdev]
    exact Runs.pure rfl
  · rw [if_neg hdev, if_neg hdev]
    by_cases hout : (v.inode i).size < off ∨ uadd off n < off
    · rw [if_pos hout, if_pos hout]
      exact Runs.pure rfl
    · rw [if_neg hout, if_neg hout]
      by_cases hmax : maxfile * bsize < uadd off n
      · rw [if_pos hmax, if_pos hmax]
        exact Runs.pure rfl
      · rw [if_neg hmax, if_neg hmax]
        refine (writeLoop_executes v c n i src off n).bind fun _ v' hv' => ?_
        refine (growSize_executes v' c i (off + n) n).bind fun _ v'' hv'' => Runs.pure ?_
        rw [Option.some.injEq] at hv''
        rw [hv', ← hv'']
        rfl

end Specifications

section Lookup
variable {s : State ℕ Fs} {blk k i bn : ℕ} {next : ℕ → Code ℕ}

theorem entryOf_locked (hk : blk ∈ s.locked) :
    entryOf blk k next s = ⟨[], .error .deadlock s⟩ := by
  have hacq : bread blk s = ⟨[], .error .deadlock s⟩ := if_pos hk
  exact Program.bind_error hacq

theorem entryOf_zero (hk : blk ∉ s.locked) (h0 : getWord (s.val.disk blk) k = 0) :
    entryOf blk k next s =
      ⟨[.acquire blk, .use blk], .ok noBlock ⟨s.val, insert blk s.locked⟩⟩ := by
  have hacq : bread blk s = ⟨[.acquire blk], .ok () ⟨s.val, insert blk s.locked⟩⟩ := if_neg hk
  have hlook : look blk (fun s : Fs => getWord (s.disk blk) k)
      (⟨s.val, insert blk s.locked⟩ : State ℕ Fs) =
      (⟨[.use blk], .ok 0 ⟨s.val, insert blk s.locked⟩⟩ : Outcome _ (Fault Unit) _ _) := by
    rw [← h0]
    rfl
  rw [entryOf, Program.bind_ok hacq, Program.bind_ok hlook, if_pos rfl]
  rfl

theorem entryOf_next (hk : blk ∉ s.locked) (h0 : getWord (s.val.disk blk) k ≠ 0) :
    entryOf blk k next s =
      ⟨.acquire blk :: .use blk :: .release blk :: (next (getWord (s.val.disk blk) k) s).events,
        (next (getWord (s.val.disk blk) k) s).result⟩ := by
  have hacq : bread blk s = ⟨[.acquire blk], .ok () ⟨s.val, insert blk s.locked⟩⟩ := if_neg hk
  have hlook : look blk (fun s : Fs => getWord (s.disk blk) k)
      (⟨s.val, insert blk s.locked⟩ : State ℕ Fs) =
      (⟨[.use blk], .ok (getWord (s.val.disk blk) k) ⟨s.val, insert blk s.locked⟩⟩ :
        Outcome _ (Fault Unit) _ _) := rfl
  have hrel : brelse blk ⟨s.val, insert blk s.locked⟩ = ⟨[.release blk], .ok () s⟩ := by
    have herase : (insert blk s.locked).erase blk = s.locked := Finset.erase_insert hk
    have hcode : brelse blk ⟨s.val, insert blk s.locked⟩ =
        ⟨[.release blk], .ok () ⟨s.val, (insert blk s.locked).erase blk⟩⟩ :=
      if_pos (Finset.mem_insert_self blk _)
    rw [hcode, herase]
  rw [entryOf, Program.bind_ok hacq, Program.bind_ok hlook, if_neg h0, Program.bind_ok hrel]
  rfl

/-- A step through an index block is disciplined if it does not end there. -/
theorem disciplined_entryOf : Disciplined (entryOf blk k next) s ↔
    (blk ∉ s.locked → getWord (s.val.disk blk) k ≠ 0 ∧
      Disciplined (next (getWord (s.val.disk blk) k)) s) := by
  unfold Disciplined
  by_cases hk : blk ∈ s.locked
  · rw [entryOf_locked hk]
    refine iff_of_true ?_ fun hk' => absurd hk hk'
    rintro a s' hr
    cases hr
  · by_cases h0 : getWord (s.val.disk blk) k = 0
    · rw [entryOf_zero hk h0]
      refine iff_of_false (fun h => ?_) fun h => (h hk).1 h0
      have hheld := (h noBlock _ rfl).1
      simp [holds] at hheld
    · rw [entryOf_next hk h0]
      have hheld : ∀ ws : List (Event ℕ),
          holds ∅ (.acquire blk :: .use blk :: .release blk :: ws) = holds ∅ ws := by
        intro ws
        simp [holds]
      simp only [hheld, hk, not_false_eq_true, true_implies, ne_eq, h0, true_and]

theorem entryOf_returns {a : ℕ} {s' : State ℕ Fs}
    (hr : (entryOf blk k next s).result = .ok a s') :
    (getWord (s.val.disk blk) k = 0 ∧ a = noBlock ∧ s'.val = s.val) ∨
      (getWord (s.val.disk blk) k ≠ 0 ∧
        (next (getWord (s.val.disk blk) k) s).result = .ok a s') := by
  by_cases hk : blk ∈ s.locked
  · rw [entryOf_locked hk] at hr
    cases hr
  · by_cases h0 : getWord (s.val.disk blk) k = 0
    · rw [entryOf_zero hk h0] at hr
      cases hr
      exact .inl ⟨h0, rfl, rfl⟩
    · rw [entryOf_next hk h0] at hr
      exact .inr ⟨h0, hr⟩

/-- `bmap2` returns what it computes without buffers. -/
theorem bmap2_returns {a : ℕ} {s' : State ℕ Fs} (hr : (bmap2 i bn s).result = .ok a s') :
    BigFile.bmap2 s.val i bn = some (s'.val, a) := by
  have hpure : ∀ {b : ℕ}, ((pure b : Code ℕ) s).result = .ok a s' → some (s.val, b) =
      some (s'.val, a) := by
    rintro b hb
    cases hb
    rfl
  unfold bmap2 at hr
  unfold BigFile.bmap2
  dsimp only at hr ⊢
  by_cases h1 : bn < ndirect
  · rw [if_pos h1] at hr ⊢
    change ((if (s.val.inode i).addrs bn = 0 then pure noBlock
      else pure ((s.val.inode i).addrs bn) : Code ℕ) s).result = .ok a s' at hr
    by_cases h0 : (s.val.inode i).addrs bn = 0
    · rw [if_pos h0] at hr ⊢
      exact hpure hr
    · rw [if_neg h0] at hr ⊢
      exact hpure hr
  · rw [if_neg h1] at hr ⊢
    by_cases h2 : bn - ndirect < nindirect
    · rw [if_pos h2] at hr ⊢
      change ((if (s.val.inode i).addrs ndirect = 0 then pure noBlock
        else entryOf ((s.val.inode i).addrs ndirect) (bn - ndirect) pure : Code ℕ) s).result =
          .ok a s' at hr
      by_cases h0 : (s.val.inode i).addrs ndirect = 0
      · rw [if_pos h0] at hr ⊢
        exact hpure hr
      · rw [if_neg h0] at hr ⊢
        obtain ⟨h, rfl, hval⟩ | ⟨h, hr⟩ := entryOf_returns hr
        · rw [if_pos h, hval]
        · rw [if_neg h]
          exact hpure hr
    · rw [if_neg h2] at hr ⊢
      by_cases h3 : bn - ndirect - nindirect < dindirect
      · rw [if_pos h3] at hr ⊢
        change ((if (s.val.inode i).addrs (ndirect + 1) = 0 then pure noBlock
          else entryOf ((s.val.inode i).addrs (ndirect + 1)) ((bn - ndirect - nindirect) / 128)
            fun addr => entryOf addr ((bn - ndirect - nindirect) % 128) pure : Code ℕ) s).result =
          .ok a s' at hr
        by_cases h0 : (s.val.inode i).addrs (ndirect + 1) = 0
        · rw [if_pos h0] at hr ⊢
          exact hpure hr
        · rw [if_neg h0] at hr ⊢
          obtain ⟨h, rfl, hval⟩ | ⟨h, hr⟩ := entryOf_returns hr
          · rw [if_pos h, hval]
          · rw [if_neg h]
            obtain ⟨h', rfl, hval⟩ | ⟨h', hr⟩ := entryOf_returns hr
            · rw [if_pos h', hval]
            · rw [if_neg h']
              exact hpure hr
      · rw [if_neg h3] at hr
        cases hr

/-- The walk comes to an index block that is not locked, and finds no entry in it. -/
def EndsAt (s : State ℕ Fs) (blk k : ℕ) : Prop :=
  blk ≠ 0 ∧ blk ∉ s.locked ∧ getWord (s.val.disk blk) k = 0

/-- The walk of `bmap2` for file block `bn` ends inside an index block. -/
def Leaks (s : State ℕ Fs) (i bn : ℕ) : Prop :=
  if bn < ndirect then False
  else if bn - ndirect < nindirect then EndsAt s ((s.val.inode i).addrs ndirect) (bn - ndirect)
  else
    bn - ndirect - nindirect < dindirect ∧
      (EndsAt s ((s.val.inode i).addrs (ndirect + 1)) ((bn - ndirect - nindirect) / 128) ∨
        ((s.val.inode i).addrs (ndirect + 1) ≠ 0 ∧
          (s.val.inode i).addrs (ndirect + 1) ∉ s.locked ∧
          EndsAt s (getWord (s.val.disk ((s.val.inode i).addrs (ndirect + 1)))
            ((bn - ndirect - nindirect) / 128)) ((bn - ndirect - nindirect) % 128)))

/-- `bmap2` forgets the buffer of the index block in which its walk ends. -/
theorem disciplined_bmap2_iff : Disciplined (bmap2 i bn) s ↔ ¬ Leaks s i bn := by
  unfold bmap2 Leaks
  dsimp only
  by_cases h1 : bn < ndirect
  · rw [if_pos h1, if_pos h1]
    refine iff_of_true ?_ id
    change Disciplined (if (s.val.inode i).addrs bn = 0 then pure noBlock
      else pure ((s.val.inode i).addrs bn) : Code ℕ) s
    split
    · exact disciplined_pure _
    · exact disciplined_pure _
  · rw [if_neg h1, if_neg h1]
    by_cases h2 : bn - ndirect < nindirect
    · rw [if_pos h2, if_pos h2]
      change Disciplined (if (s.val.inode i).addrs ndirect = 0 then pure noBlock
        else entryOf ((s.val.inode i).addrs ndirect) (bn - ndirect) pure : Code ℕ) s ↔ _
      unfold EndsAt
      by_cases h0 : (s.val.inode i).addrs ndirect = 0
      · rw [if_pos h0]
        exact iff_of_true (disciplined_pure _) fun h => h.1 h0
      · rw [if_neg h0, disciplined_entryOf]
        simp [h0, disciplined_pure]
    · rw [if_neg h2, if_neg h2]
      by_cases h3 : bn - ndirect - nindirect < dindirect
      · rw [if_pos h3, and_iff_right h3]
        change Disciplined (if (s.val.inode i).addrs (ndirect + 1) = 0 then pure noBlock
          else entryOf ((s.val.inode i).addrs (ndirect + 1)) ((bn - ndirect - nindirect) / 128)
            fun addr => entryOf addr ((bn - ndirect - nindirect) % 128) pure : Code ℕ) s ↔ _
        unfold EndsAt
        by_cases h0 : (s.val.inode i).addrs (ndirect + 1) = 0
        · rw [if_pos h0]
          refine iff_of_true (disciplined_pure _) ?_
          rintro (h | h)
          · exact h.1 h0
          · exact h.1 h0
        · rw [if_neg h0, disciplined_entryOf, disciplined_entryOf]
          generalize getWord (s.val.disk ((s.val.inode i).addrs (ndirect + 1)))
            ((bn - ndirect - nindirect) / 128) = blk
          by_cases hk : (s.val.inode i).addrs (ndirect + 1) ∈ s.locked
          · simp [hk]
          · by_cases hb : blk = 0
            · simp [h0, hk, hb]
            · simp [h0, hk, hb, disciplined_pure]
      · rw [if_neg h3]
        exact iff_of_true (disciplined_fail ()) fun h => h3 h.1

end Lookup

/-- The calls that the file layer makes. -/
inductive Call where
  | bmap (i bn : ℕ)
  | bmap2 (i bn : ℕ)
  | itrunc (i : ℕ)
  | readi (i off n : ℕ)
  | writei (i : ℕ) (src : ℕ → ℕ) (off n : ℕ)

namespace Call

def Disciplined (s : State ℕ Fs) : Call → Prop
  | bmap i bn => Handles.Disciplined (Buffers.bmap i bn) s
  | bmap2 i bn => Handles.Disciplined (Buffers.bmap2 i bn) s
  | itrunc i => Handles.Disciplined (Buffers.itrunc i) s
  | readi i off n => Handles.Disciplined (Buffers.readi i off n) s
  | writei i src off n => Handles.Disciplined (Buffers.writei i src off n) s

/-- Only `bmap2` can leave a buffer behind. -/
def Leaks (s : State ℕ Fs) : Call → Prop
  | bmap2 i bn => Buffers.Leaks s i bn
  | _ => False

end Call

/-- Every returning call gives back each buffer that it has read, once and after its last use,
unless it is a `bmap2` that ends inside an index block. -/
theorem call_disciplined_iff (s : State ℕ Fs) (c : Call) : c.Disciplined s ↔ ¬ c.Leaks s := by
  cases c with
  | bmap i bn => exact iff_of_true (bmap_computes s.val _ i bn).disciplined id
  | bmap2 i bn => exact disciplined_bmap2_iff
  | itrunc i => exact iff_of_true (itrunc_executes s.val _ i).disciplined id
  | readi i off n => exact iff_of_true (readi_computes s.val _ i off n).disciplined id
  | writei i src off n => exact iff_of_true (writei_computes s.val _ i src off n).disciplined id

/-- The index block of a file of 138 blocks has no entry for block 138; its buffer stays locked. -/
theorem bmap2_forgets_buffer : ¬ ∀ (s : State ℕ Fs) (i bn : ℕ), bn < maxfile →
    (Call.bmap2 i bn).Disciplined s := by
  intro h
  have hd : Disciplined (bmap2 1 138) ⟨scattered, ∅⟩ := h ⟨scattered, ∅⟩ 1 138 (by decide)
  have hrun : (bmap2 1 138 ⟨scattered, ∅⟩).result = .ok noBlock ⟨scattered, {74}⟩ := rfl
  exact Finset.singleton_ne_empty 74 (hd _ _ hrun).2

end BigFile.Buffers
