import Mathlib
import Coursework.Lib.Machine

/-! The buffer cache, with the sleep lock of each buffer and the disk that is kept in memory: the
steps of the processes that use blocks. `none` is a panic. -/
namespace Cache

def nbuf : ℕ := 30

/-- The device of the disk. -/
def disk1 : ℕ := 1

abbrev Block := ℕ → ℕ

/-- `struct buf` with its sleep lock. -/
structure Buf where
  valid : Bool
  dirty : Bool
  dev : ℕ
  blockno : ℕ
  locked : Bool
  pid : ℕ
  refcnt : ℕ
  data : Block

/-- The buffers, their order from `head.next` on, and the disk. -/
structure Bcache where
  buf : Fin nbuf → Buf
  lru : List (Fin nbuf)
  disk : ℕ → Block

def Bcache.set (c : Bcache) (b : Fin nbuf) (x : Buf) : Bcache :=
  { c with buf := Function.update c.buf b x }

/-- `bget` up to `acquiresleep`: the buffer of the block, or an unused one from the other end of
the list. -/
def bget (dev blockno : ℕ) (c : Bcache) : Option (Fin nbuf × Bcache) :=
  match c.lru.find? fun b => decide ((c.buf b).dev = dev ∧ (c.buf b).blockno = blockno) with
  | some b => some (b, c.set b { c.buf b with refcnt := (c.buf b).refcnt + 1 })
  | none =>
    (c.lru.reverse.find? fun b => decide ((c.buf b).refcnt = 0 ∧ (c.buf b).dirty = false)).map
      fun b => (b, c.set b { c.buf b with
        dev := dev, blockno := blockno, valid := false, dirty := false, refcnt := 1 })

/-- `acquiresleep`; `none` while the process has to sleep. -/
def acquiresleep (pid : ℕ) (b : Fin nbuf) (c : Bcache) : Option Bcache :=
  if (c.buf b).locked = true then none
  else some (c.set b { c.buf b with locked := true, pid := pid })

def holdingsleep (pid : ℕ) (b : Fin nbuf) (c : Bcache) : Prop :=
  (c.buf b).locked = true ∧ (c.buf b).pid = pid

instance (pid : ℕ) (b : Fin nbuf) (c : Bcache) : Decidable (holdingsleep pid b c) :=
  inferInstanceAs (Decidable (_ ∧ _))

def iderw (disksize pid : ℕ) (b : Fin nbuf) (c : Bcache) : Option Bcache :=
  if ¬ holdingsleep pid b c then none
  else if (c.buf b).valid = true ∧ (c.buf b).dirty = false then none
  else if (c.buf b).dev ≠ disk1 then none
  else if disksize ≤ (c.buf b).blockno then none
  else if (c.buf b).dirty = true then
    some { c.set b { c.buf b with dirty := false, valid := true } with
      disk := Function.update c.disk (c.buf b).blockno (c.buf b).data }
  else some (c.set b { c.buf b with data := c.disk (c.buf b).blockno, valid := true })

/-- The rest of `bread`, for a process that holds the lock. -/
def bread (disksize pid : ℕ) (b : Fin nbuf) (c : Bcache) : Option Bcache :=
  if (c.buf b).valid = false then iderw disksize pid b c else some c

def bwrite (disksize pid : ℕ) (b : Fin nbuf) (c : Bcache) : Option Bcache :=
  if ¬ holdingsleep pid b c then none
  else iderw disksize pid b (c.set b { c.buf b with dirty := true })

/-- `brelse` up to the end of `releasesleep`. -/
def brelse (pid : ℕ) (b : Fin nbuf) (c : Bcache) : Option Bcache :=
  if ¬ holdingsleep pid b c then none
  else some (c.set b { c.buf b with locked := false, pid := 0 })

/-- The rest of `brelse`. -/
def unref (b : Fin nbuf) (c : Bcache) : Bcache :=
  let refcnt := (c.buf b).refcnt - 1
  let c := c.set b { c.buf b with refcnt := refcnt }
  if refcnt = 0 then { c with lru := b :: c.lru.erase b } else c

/-- Where a process is between `bread` and the end of `brelse`: it waits for the lock, it has got
it, it uses the buffer, which it has changed or not since it last called `bwrite` or `log_write`,
or it has given the lock back. -/
inductive Phase where
  | waiting
  | locked
  | using (changed : Bool)
  | unlocked
  deriving DecidableEq

structure Session where
  pid : ℕ
  buf : Fin nbuf
  blockno : ℕ
  phase : Phase

structure Sys where
  cache : Bcache
  sessions : Multiset Session

/-- What the users of the blocks see of a step. -/
inductive Label where
  | none
  | lock (pid blockno : ℕ)
  | read (pid blockno : ℕ) (data : Block)
  | write (pid blockno : ℕ) (data : Block)
  | unlock (pid blockno : ℕ)

/-- A process that has changed a buffer calls `bwrite` or `log_write` before `brelse`. -/
inductive Step (disksize : ℕ) (s : Sys) : Label → Sys → Prop
  | get {pid n b c} (hn : n < disksize) (h : bget disk1 n s.cache = some (b, c)) :
    Step disksize s .none ⟨c, ⟨pid, b, n, .waiting⟩ ::ₘ s.sessions⟩
  | lock {pid b n r c} (hs : s.sessions = ⟨pid, b, n, .waiting⟩ ::ₘ r)
    (h : acquiresleep pid b s.cache = some c) :
    Step disksize s (.lock pid n) ⟨c, ⟨pid, b, n, .locked⟩ ::ₘ r⟩
  | read {pid b n r c} (hs : s.sessions = ⟨pid, b, n, .locked⟩ ::ₘ r)
    (h : bread disksize pid b s.cache = some c) :
    Step disksize s (.read pid n (c.buf b).data) ⟨c, ⟨pid, b, n, .using false⟩ ::ₘ r⟩
  | write {pid b n r changed} (data : Block)
    (hs : s.sessions = ⟨pid, b, n, .using changed⟩ ::ₘ r) :
    Step disksize s (.write pid n data)
      ⟨s.cache.set b { s.cache.buf b with data := data }, ⟨pid, b, n, .using true⟩ ::ₘ r⟩
  | bwrite {pid b n r changed c} (hs : s.sessions = ⟨pid, b, n, .using changed⟩ ::ₘ r)
    (h : bwrite disksize pid b s.cache = some c) :
    Step disksize s .none ⟨c, ⟨pid, b, n, .using false⟩ ::ₘ r⟩
  | logWrite {pid b n r changed} (hs : s.sessions = ⟨pid, b, n, .using changed⟩ ::ₘ r) :
    Step disksize s .none
      ⟨s.cache.set b { s.cache.buf b with dirty := true }, ⟨pid, b, n, .using false⟩ ::ₘ r⟩
  | unlock {pid b n r c} (hs : s.sessions = ⟨pid, b, n, .using false⟩ ::ₘ r)
    (h : brelse pid b s.cache = some c) :
    Step disksize s (.unlock pid n) ⟨c, ⟨pid, b, n, .unlocked⟩ ::ₘ r⟩
  | unref {pid b n r} (hs : s.sessions = ⟨pid, b, n, .unlocked⟩ ::ₘ r) :
    Step disksize s .none ⟨unref b s.cache, r⟩

/-- After `binit`: the list holds the buffers, the last one first. -/
def binit (disk : ℕ → Block) : Sys :=
  ⟨⟨fun _ => ⟨false, false, 0, 0, false, 0, 0, fun _ => 0⟩, (List.finRange nbuf).reverse, disk⟩, 0⟩

/-- The blocks and the processes that have locked them. -/
structure Blocks where
  content : ℕ → Block
  owner : ℕ → Option ℕ

/-- A block is locked by one process at a time, which reads what was written last. -/
inductive Blocks.Step (t : Blocks) : Label → Blocks → Prop
  | none : Blocks.Step t .none t
  | lock {pid n} (h : t.owner n = Option.none) :
    Blocks.Step t (.lock pid n) { t with owner := Function.update t.owner n (some pid) }
  | read {pid n} (h : t.owner n = some pid) : Blocks.Step t (.read pid n (t.content n)) t
  | write {pid n data} (h : t.owner n = some pid) :
    Blocks.Step t (.write pid n data) { t with content := Function.update t.content n data }
  | unlock {pid n} (h : t.owner n = some pid) :
    Blocks.Step t (.unlock pid n) { t with owner := Function.update t.owner n Option.none }

/-- The process holds the lock. -/
def Session.Held (x : Session) : Prop := x.phase ≠ .waiting ∧ x.phase ≠ .unlocked

instance (x : Session) : Decidable x.Held := inferInstanceAs (Decidable (_ ∧ _))

section Fields
variable (c : Bcache) (b : Fin nbuf) (x : Buf)

@[simp] theorem set_buf_self : (c.set b x).buf b = x := Function.update_self ..

theorem set_buf_of_ne {b' : Fin nbuf} (h : b' ≠ b) : (c.set b x).buf b' = c.buf b' :=
  Function.update_of_ne h ..

theorem set_refcnt (k : ℕ) (b' : Fin nbuf) :
    ∃ k', (c.set b { c.buf b with refcnt := k }).buf b' = { c.buf b' with refcnt := k' } := by
  by_cases hb' : b' = b
  · subst hb'
    exact ⟨k, set_buf_self _ _ _⟩
  · exact ⟨_, set_buf_of_ne _ _ _ hb'⟩

@[simp] theorem set_lru : (c.set b x).lru = c.lru := rfl

@[simp] theorem set_disk : (c.set b x).disk = c.disk := rfl

end Fields

/-- What a buffer has to do with the store and with the sessions that hold its lock. -/
structure Fits (disk : ℕ → Block) (t : Blocks) (x : Buf) (held : Multiset Session) : Prop where
  valid : ∀ y ∈ held, (∃ changed, y.phase = .using changed) → x.valid = true
  dirty : x.dirty = true → x.valid = true
  content : x.valid = true → x.data = t.content x.blockno
  disk : x.dirty = false → (∀ y ∈ held, y.phase ≠ .using true) →
    disk x.blockno = t.content x.blockno
  lock : held.map Session.pid = if x.locked = true then {x.pid} else 0
  owner : t.owner x.blockno = if x.locked = true then some x.pid else none

/-- The sessions that hold the lock of a buffer. -/
def held (sessions : Multiset Session) (b : Fin nbuf) : Multiset Session :=
  sessions.filter fun x => x.buf = b ∧ x.Held

/-- The buffer belongs to block `n`. -/
def Bcache.Caches (c : Bcache) (b : Fin nbuf) (n : ℕ) : Prop :=
  (c.buf b).dev = disk1 ∧ (c.buf b).blockno = n

/-- The cache implements the store. Buffers that were never used belong to device 0. -/
structure Refines (disksize : ℕ) (s : Sys) (t : Blocks) : Prop where
  nodup : s.cache.lru.Nodup
  all : ∀ b, b ∈ s.cache.lru
  refcnt : ∀ b, (s.cache.buf b).refcnt = (s.sessions.filter fun x => x.buf = b).card
  key : ∀ x ∈ s.sessions, s.cache.Caches x.buf x.blockno
  range : ∀ b n, s.cache.Caches b n → n < disksize
  fresh : ∀ b, (s.cache.buf b).dev ≠ disk1 →
    (s.cache.buf b).dirty = false ∧ (s.cache.buf b).locked = false
  unique : ∀ b b' n, s.cache.Caches b n → s.cache.Caches b' n → b = b'
  fits : ∀ b n, s.cache.Caches b n → Fits s.cache.disk t (s.cache.buf b) (held s.sessions b)
  uncached : ∀ n, (∀ b, ¬ s.cache.Caches b n) →
    s.cache.disk n = t.content n ∧ t.owner n = none

section Touch
variable {disksize : ℕ} {c c' : Bcache} {t t' : Blocks} {x x' : Session} {r : Multiset Session}

theorem held_cons (x : Session) (r : Multiset Session) (b : Fin nbuf) :
    held (x ::ₘ r) b = (if x.buf = b ∧ x.Held then {x} else 0) + held r b := by
  unfold held
  rw [Multiset.filter_cons]

/-- A session that changes only its own buffer, its block on the disk and in the store. -/
theorem Refines.touch (h : Refines disksize ⟨c, x ::ₘ r⟩ t) (hbuf : x'.buf = x.buf)
    (hno : x'.blockno = x.blockno) (hlru : c'.lru = c.lru)
    (hother : ∀ b ≠ x.buf, c'.buf b = c.buf b)
    (hself : (c'.buf x.buf).dev = (c.buf x.buf).dev ∧
      (c'.buf x.buf).blockno = (c.buf x.buf).blockno ∧
      (c'.buf x.buf).refcnt = (c.buf x.buf).refcnt)
    (hdisk : ∀ n ≠ x.blockno, c'.disk n = c.disk n)
    (ht : ∀ n ≠ x.blockno, t'.content n = t.content n ∧ t'.owner n = t.owner n)
    (hfits : Fits c'.disk t' (c'.buf x.buf) (held (x' ::ₘ r) x.buf)) :
    Refines disksize ⟨c', x' ::ₘ r⟩ t' := by
  have hkey := h.key x (Multiset.mem_cons_self x r)
  have hcaches : ∀ b n, c'.Caches b n ↔ c.Caches b n := by
    intro b n
    unfold Bcache.Caches
    by_cases hb : b = x.buf
    · rw [hb, hself.1, hself.2.1]
    · rw [hother b hb]
  refine ⟨hlru ▸ h.nodup, fun b => hlru ▸ h.all b, fun b => ?_, fun y hy => ?_,
    fun b n hb => h.range b n ((hcaches b n).1 hb), fun b hb => ?_,
    fun b b' n hb hb' => h.unique b b' n ((hcaches b n).1 hb) ((hcaches b' n).1 hb'),
    fun b n hb => ?_, fun n hn => ?_⟩
  · have href := h.refcnt b
    rw [Multiset.filter_cons] at href ⊢
    rw [hbuf]
    have hcard : ∀ p : Prop, [Decidable p] →
        Multiset.card (if p then ({x'} : Multiset Session) else 0) =
          Multiset.card (if p then ({x} : Multiset Session) else 0) := by
      intro p _
      split <;> rfl
    rw [Multiset.card_add] at href ⊢
    rw [hcard, ← href]
    by_cases hb : b = x.buf
    · rw [hb]
      exact hself.2.2
    · change (c'.buf b).refcnt = (c.buf b).refcnt
      rw [hother b hb]
  · rcases Multiset.mem_cons.1 hy with rfl | hy
    · rw [hbuf, hno]
      exact (hcaches _ _).2 hkey
    · exact (hcaches _ _).2 (h.key y (Multiset.mem_cons_of_mem hy))
  · by_cases hbx : b = x.buf
    · subst hbx
      exact absurd (hself.1.trans hkey.1) hb
    · change (c'.buf b).dev ≠ disk1 at hb
      change (c'.buf b).dirty = false ∧ (c'.buf b).locked = false
      rw [hother b hbx] at hb ⊢
      exact h.fresh b hb
  · by_cases hbx : b = x.buf
    · rw [hbx]
      exact hfits
    · have hb' := (hcaches b n).1 hb
      have hf := h.fits b n hb'
      have hn : (c.buf b).blockno ≠ x.blockno := by
        intro he
        exact hbx (h.unique b x.buf x.blockno ⟨hb'.1, he⟩ hkey)
      have hheld : held (x' ::ₘ r) b = held (x ::ₘ r) b := by
        rw [held_cons, held_cons, hbuf, if_neg (fun hc => hbx hc.1.symm),
          if_neg (fun hc => hbx hc.1.symm)]
      change Fits c'.disk t' (c'.buf b) (held (x' ::ₘ r) b)
      rw [hheld, hother b hbx]
      refine ⟨hf.valid, hf.dirty, fun hv => ?_, fun hd hu => ?_, hf.lock, ?_⟩
      · rw [(ht _ hn).1]
        exact hf.content hv
      · rw [hdisk _ hn, (ht _ hn).1]
        exact hf.disk hd hu
      · rw [(ht _ hn).2]
        exact hf.owner
  · have hn' : ∀ b, ¬ c.Caches b n := fun b hb => hn b ((hcaches b n).2 hb)
    have hne : n ≠ x.blockno := by
      rintro rfl
      exact hn' x.buf hkey
    change c'.disk n = _ ∧ _
    rw [hdisk n hne, (ht n hne).1, (ht n hne).2]
    exact h.uncached n hn'

theorem Refines.alone (h : Refines disksize ⟨c, x ::ₘ r⟩ t) (hx : x.Held) :
    holdingsleep x.pid x.buf c ∧ held r x.buf = 0 ∧ t.owner x.blockno = some x.pid := by
  have hkey := h.key x (Multiset.mem_cons_self x r)
  have hf := h.fits x.buf x.blockno hkey
  have hlock := hf.lock
  have howner := hf.owner
  change t.owner (c.buf x.buf).blockno = _ at howner
  rw [hkey.2] at howner
  rw [held_cons, if_pos ⟨rfl, hx⟩, Multiset.singleton_add, Multiset.map_cons] at hlock
  by_cases hl : (c.buf x.buf).locked = true
  · rw [if_pos hl] at hlock howner
    obtain ⟨hp, hr⟩ := Multiset.cons_eq_cons.1 hlock |>.resolve_right fun hc => by
      obtain ⟨_, _, _, hc⟩ := hc
      simp at hc
    rw [Multiset.map_eq_zero] at hr
    exact ⟨⟨hl, hp.symm⟩, hr, by rw [hp]; exact howner⟩
  · rw [if_neg hl] at hlock
    exact absurd hlock Multiset.cons_ne_zero

end Touch

section Steps
variable {disksize pid n : ℕ} {b : Fin nbuf} {s : Sys} {c : Bcache} {t : Blocks}
  {r : Multiset Session} {changed : Bool}

theorem Refines.own {x : Session} (h : Refines disksize ⟨c, x ::ₘ r⟩ t) (hx : x.Held) :
    c.Caches x.buf x.blockno ∧ x.blockno < disksize ∧ Fits c.disk t (c.buf x.buf) {x} := by
  have hkey := h.key x (Multiset.mem_cons_self x r)
  have hf := h.fits _ _ hkey
  change Fits c.disk t (c.buf x.buf) (held (x ::ₘ r) x.buf) at hf
  rw [held_cons, if_pos ⟨rfl, hx⟩, (h.alone hx).2.1, add_zero] at hf
  exact ⟨hkey, h.range _ _ hkey, hf⟩

theorem held_own {x x' : Session} (h : Refines disksize ⟨c, x ::ₘ r⟩ t) (hx : x.Held)
    (hx' : x'.Held) (hbuf : x'.buf = x.buf) : held (x' ::ₘ r) x.buf = {x'} := by
  rw [held_cons, if_pos ⟨hbuf, hx'⟩, (h.alone hx).2.1, add_zero]

theorem held_using (pid n : ℕ) (b : Fin nbuf) (changed : Bool) :
    (⟨pid, b, n, .using changed⟩ : Session).Held := ⟨Phase.noConfusion, Phase.noConfusion⟩

theorem held_locked (pid n : ℕ) (b : Fin nbuf) :
    (⟨pid, b, n, .locked⟩ : Session).Held := ⟨Phase.noConfusion, Phase.noConfusion⟩

theorem not_held_waiting (pid n : ℕ) (b : Fin nbuf) :
    ¬ (⟨pid, b, n, .waiting⟩ : Session).Held := fun h => h.1 rfl

theorem not_held_unlocked (pid n : ℕ) (b : Fin nbuf) :
    ¬ (⟨pid, b, n, .unlocked⟩ : Session).Held := fun h => h.2 rfl

/-- `acquiresleep` succeeds only when nobody holds the lock. -/
theorem Refines.lock {c' : Bcache} (h : Refines disksize ⟨c, ⟨pid, b, n, .waiting⟩ ::ₘ r⟩ t)
    (hc : acquiresleep pid b c = some c') :
    t.owner n = none ∧ Refines disksize ⟨c', ⟨pid, b, n, .locked⟩ ::ₘ r⟩
      { t with owner := Function.update t.owner n (some pid) } := by
  have hkey : c.Caches b n := h.key _ (Multiset.mem_cons_self _ r)
  have hf := h.fits b n hkey
  change Fits c.disk t (c.buf b) (held _ b) at hf
  unfold acquiresleep at hc
  by_cases hl : (c.buf b).locked = true
  · rw [if_pos hl] at hc
    cases hc
  rw [if_neg hl] at hc
  obtain rfl := Option.some.inj hc
  have hlock := hf.lock
  have howner := hf.owner
  rw [if_neg hl, Multiset.map_eq_zero] at hlock
  rw [if_neg hl, hkey.2] at howner
  have hr : held r b = 0 := by
    rwa [held_cons, if_neg fun hc => not_held_waiting _ _ _ hc.2, zero_add] at hlock
  refine ⟨howner, h.touch rfl rfl rfl (fun b' hb' => set_buf_of_ne _ _ _ hb') ?_
    (fun _ _ => rfl) (fun m hm => ⟨rfl, Function.update_of_ne hm ..⟩) ?_⟩
  · rw [set_buf_self]
    exact ⟨rfl, rfl, rfl⟩
  · change Fits _ _ _ (held (⟨pid, b, n, .locked⟩ ::ₘ r) b)
    rw [held_cons, if_pos ⟨rfl, held_locked _ _ _⟩, hr, add_zero, set_buf_self]
    refine ⟨fun y hy => ?_, hf.dirty, hf.content, fun hd _ => hf.disk hd fun y hy => ?_, rfl, ?_⟩
    · rw [Multiset.mem_singleton.1 hy]
      rintro ⟨_, hu⟩
      cases hu
    · rw [hlock] at hy
      cases Multiset.notMem_zero _ hy
    · change Function.update t.owner n (some pid) (c.buf b).blockno = some pid
      rw [hkey.2, Function.update_self]

/-- A process that has got the lock reads the contents of the store. -/
theorem Refines.read (h : Refines disksize ⟨c, ⟨pid, b, n, .locked⟩ ::ₘ r⟩ t) :
    ∃ c', bread disksize pid b c = some c' ∧ (c'.buf b).data = t.content n ∧
      Refines disksize ⟨c', ⟨pid, b, n, .using false⟩ ::ₘ r⟩ t := by
  obtain ⟨hkey, hrange, hf⟩ := h.own (held_locked pid n b)
  obtain ⟨hhold, -, -⟩ := h.alone (held_locked pid n b)
  have hheld := held_own h (held_locked pid n b) (held_using pid n b false) rfl
  unfold bread
  by_cases hv : (c.buf b).valid = false
  · have hd : (c.buf b).dirty = false := by
      by_contra hd
      rw [hf.dirty ((Bool.not_eq_false _).mp hd)] at hv
      cases hv
    have hdisk := hf.disk hd fun y hy => by
      rw [Multiset.mem_singleton.1 hy]
      exact Phase.noConfusion
    rw [if_pos hv, iderw, if_neg (not_not.2 hhold), if_neg (fun hc => by rw [hv] at hc; cases hc.1),
      if_neg (not_not.2 hkey.1), if_neg (by rw [hkey.2]; exact not_le.2 hrange),
      if_neg (by rw [hd]; exact Bool.false_ne_true)]
    refine ⟨_, rfl, ?_, h.touch rfl rfl rfl (fun b' hb' => set_buf_of_ne _ _ _ hb') ?_
      (fun _ _ => rfl) (fun _ _ => ⟨rfl, rfl⟩) ?_⟩
    · rw [set_buf_self]
      exact hdisk.trans (congrArg t.content hkey.2)
    · rw [set_buf_self]
      exact ⟨rfl, rfl, rfl⟩
    · change Fits _ _ _ (held _ b)
      rw [hheld, set_buf_self]
      exact ⟨fun _ _ _ => rfl, fun _ => rfl, fun _ => hdisk, fun _ _ => hdisk, hf.lock, hf.owner⟩
  · have hv' := (Bool.not_eq_false _).mp hv
    rw [if_neg hv]
    refine ⟨c, rfl, (hf.content hv').trans (congrArg t.content hkey.2), h.touch rfl rfl rfl
      (fun _ _ => rfl) ⟨rfl, rfl, rfl⟩ (fun _ _ => rfl) (fun _ _ => ⟨rfl, rfl⟩) ?_⟩
    change Fits _ _ _ (held _ b)
    rw [hheld]
    refine ⟨fun _ _ _ => hv', hf.dirty, hf.content, fun hd _ => hf.disk hd fun y hy => ?_, hf.lock,
      hf.owner⟩
    rw [Multiset.mem_singleton.1 hy]
    exact Phase.noConfusion

theorem Refines.write (h : Refines disksize ⟨c, ⟨pid, b, n, .using changed⟩ ::ₘ r⟩ t)
    (data : Block) : Refines disksize
      ⟨c.set b { c.buf b with data := data }, ⟨pid, b, n, .using true⟩ ::ₘ r⟩
      { t with content := Function.update t.content n data } := by
  obtain ⟨hkey, -, hf⟩ := h.own (held_using pid n b changed)
  have hheld := held_own h (held_using pid n b changed) (held_using pid n b true) rfl
  have hv := hf.valid _ (Multiset.mem_singleton_self _) ⟨changed, rfl⟩
  refine h.touch rfl rfl rfl (fun b' hb' => set_buf_of_ne _ _ _ hb') ?_ (fun _ _ => rfl)
    (fun m hm => ⟨Function.update_of_ne hm .., rfl⟩) ?_
  · rw [set_buf_self]
    exact ⟨rfl, rfl, rfl⟩
  · change Fits _ _ _ (held _ b)
    rw [hheld, set_buf_self]
    refine ⟨fun _ _ _ => hv, fun _ => hv, fun _ => ?_, fun _ hu => ?_, hf.lock, hf.owner⟩
    · change data = Function.update t.content n data (c.buf b).blockno
      rw [hkey.2, Function.update_self]
    · exact absurd rfl (hu _ (Multiset.mem_singleton_self _))

theorem Refines.bwrite (h : Refines disksize ⟨c, ⟨pid, b, n, .using changed⟩ ::ₘ r⟩ t) :
    ∃ c', bwrite disksize pid b c = some c' ∧
      Refines disksize ⟨c', ⟨pid, b, n, .using false⟩ ::ₘ r⟩ t := by
  obtain ⟨hkey, hrange, hf⟩ := h.own (held_using pid n b changed)
  obtain ⟨hhold, -, -⟩ := h.alone (held_using pid n b changed)
  have hheld := held_own h (held_using pid n b changed) (held_using pid n b false) rfl
  have hv := hf.valid _ (Multiset.mem_singleton_self _) ⟨changed, rfl⟩
  have hdata := hf.content hv
  have hself : (c.set b { c.buf b with dirty := true }).buf b = { c.buf b with dirty := true } :=
    set_buf_self _ _ _
  have hhold' : holdingsleep pid b (c.set b { c.buf b with dirty := true }) := by
    unfold holdingsleep
    rw [hself]
    exact hhold
  rw [Cache.bwrite, if_neg (not_not.2 hhold), iderw, if_neg (not_not.2 hhold'), hself]
  rw [if_neg (fun hc => by cases hc.2), if_neg (not_not.2 hkey.1),
    if_neg (by rw [hkey.2]; exact not_le.2 hrange), if_pos rfl]
  refine ⟨_, rfl, h.touch rfl rfl rfl (fun b' hb' => ?_) ?_ (fun m hm => ?_)
    (fun _ _ => ⟨rfl, rfl⟩) ?_⟩
  · exact (set_buf_of_ne _ _ _ hb').trans (set_buf_of_ne _ _ _ hb')
  · change ((Bcache.set _ b _).buf b).dev = _ ∧ ((Bcache.set _ b _).buf b).blockno = _ ∧
      ((Bcache.set _ b _).buf b).refcnt = _
    rw [set_buf_self]
    exact ⟨rfl, rfl, rfl⟩
  · refine Function.update_of_ne ?_ ..
    change m ≠ (c.buf b).blockno
    rwa [hkey.2]
  · change Fits (Function.update c.disk (c.buf b).blockno (c.buf b).data) t
      ((Bcache.set _ b _).buf b) (held _ b)
    rw [hheld, set_buf_self]
    refine ⟨fun _ _ _ => rfl, fun _ => rfl, fun _ => hdata, fun _ _ => ?_, hf.lock, hf.owner⟩
    exact (Function.update_self ..).trans hdata

theorem Refines.logWrite (h : Refines disksize ⟨c, ⟨pid, b, n, .using changed⟩ ::ₘ r⟩ t) :
    Refines disksize
      ⟨c.set b { c.buf b with dirty := true }, ⟨pid, b, n, .using false⟩ ::ₘ r⟩ t := by
  obtain ⟨-, -, hf⟩ := h.own (held_using pid n b changed)
  have hheld := held_own h (held_using pid n b changed) (held_using pid n b false) rfl
  have hv := hf.valid _ (Multiset.mem_singleton_self _) ⟨changed, rfl⟩
  refine h.touch rfl rfl rfl (fun b' hb' => set_buf_of_ne _ _ _ hb') ?_ (fun _ _ => rfl)
    (fun _ _ => ⟨rfl, rfl⟩) ?_
  · rw [set_buf_self]
    exact ⟨rfl, rfl, rfl⟩
  · change Fits _ _ _ (held _ b)
    rw [hheld, set_buf_self]
    exact ⟨fun _ _ _ => hv, fun _ => hv, hf.content, fun hd _ => (by cases hd), hf.lock, hf.owner⟩

theorem Refines.unlock (h : Refines disksize ⟨c, ⟨pid, b, n, .using false⟩ ::ₘ r⟩ t) :
    ∃ c', brelse pid b c = some c' ∧ Refines disksize ⟨c', ⟨pid, b, n, .unlocked⟩ ::ₘ r⟩
      { t with owner := Function.update t.owner n none } := by
  obtain ⟨hkey, -, hf⟩ := h.own (held_using pid n b false)
  obtain ⟨hhold, hr, -⟩ := h.alone (held_using pid n b false)
  rw [brelse, if_neg (not_not.2 hhold)]
  refine ⟨_, rfl, h.touch rfl rfl rfl (fun b' hb' => set_buf_of_ne _ _ _ hb') ?_ (fun _ _ => rfl)
    (fun m hm => ⟨rfl, Function.update_of_ne hm ..⟩) ?_⟩
  · rw [set_buf_self]
    exact ⟨rfl, rfl, rfl⟩
  · change Fits _ _ _ (held _ b)
    have hheld : held (⟨pid, b, n, .unlocked⟩ ::ₘ r) b = 0 := by
      rw [held_cons, if_neg fun hc => not_held_unlocked _ _ _ hc.2, zero_add]
      exact hr
    rw [hheld, set_buf_self]
    refine ⟨fun y hy => absurd hy (Multiset.notMem_zero y), hf.dirty, hf.content,
      fun hd _ => hf.disk hd fun y hy => ?_, rfl, ?_⟩
    · rw [Multiset.mem_singleton.1 hy]
      simp
    · change Function.update t.owner n none (c.buf b).blockno = none
      rw [hkey.2, Function.update_self]

/-- Only the counts, the order and the sessions without the lock have changed. -/
theorem Refines.count {c' : Bcache} {ss ss' : Multiset Session} (h : Refines disksize ⟨c, ss⟩ t)
    (hnodup : c'.lru.Nodup) (hall : ∀ b, b ∈ c'.lru) (hdisk : c'.disk = c.disk)
    (hbuf : ∀ b, ∃ k, c'.buf b = { c.buf b with refcnt := k })
    (hrefcnt : ∀ b, (c'.buf b).refcnt = (ss'.filter fun x => x.buf = b).card)
    (hkey : ∀ x ∈ ss', c.Caches x.buf x.blockno) (hheld : ∀ b, held ss' b = held ss b) :
    Refines disksize ⟨c', ss'⟩ t := by
  have hcaches : ∀ b n, c'.Caches b n ↔ c.Caches b n := by
    intro b n
    obtain ⟨k, hk⟩ := hbuf b
    unfold Bcache.Caches
    rw [hk]
  refine ⟨hnodup, hall, hrefcnt, fun x hx => (hcaches _ _).2 (hkey x hx),
    fun b n hb => h.range b n ((hcaches b n).1 hb), fun b hb => ?_,
    fun b b' n hb hb' => h.unique b b' n ((hcaches b n).1 hb) ((hcaches b' n).1 hb'),
    fun b n hb => ?_, fun n hn => ?_⟩
  · obtain ⟨k, hk⟩ := hbuf b
    change (c'.buf b).dev ≠ disk1 at hb
    change (c'.buf b).dirty = false ∧ (c'.buf b).locked = false
    rw [hk] at hb ⊢
    exact h.fresh b hb
  · obtain ⟨k, hk⟩ := hbuf b
    have hf := h.fits b n ((hcaches b n).1 hb)
    change Fits c'.disk t (c'.buf b) (held ss' b)
    rw [hk, hdisk, hheld]
    exact ⟨hf.valid, hf.dirty, hf.content, hf.disk, hf.lock, hf.owner⟩
  · change c'.disk n = _ ∧ _
    rw [hdisk]
    exact h.uncached n fun b hb => hn b ((hcaches b n).2 hb)

theorem Refines.idle (h : Refines disksize s t) (h₀ : (s.cache.buf b).refcnt = 0) :
    (∀ x ∈ s.sessions, x.buf ≠ b) ∧ held s.sessions b = 0 ∧ (s.cache.buf b).locked = false := by
  have hfilter := h.refcnt b
  rw [h₀] at hfilter
  have hne := Multiset.filter_eq_nil.1 (Multiset.card_eq_zero.1 hfilter.symm)
  have hheld : held s.sessions b = 0 := Multiset.filter_eq_nil.2 fun x hx hc => hne x hx hc.1
  refine ⟨hne, hheld, ?_⟩
  by_cases hdev : (s.cache.buf b).dev = disk1
  · have hlock := (h.fits b _ ⟨hdev, rfl⟩).lock
    rw [hheld] at hlock
    by_contra hl
    rw [if_pos ((Bool.not_eq_false _).mp hl)] at hlock
    exact Multiset.singleton_ne_zero _ hlock.symm
  · exact (h.fresh b hdev).2

theorem Refines.recycle (h : Refines disksize s t) (hn : n < disksize)
    (hnot : ∀ b, ¬ s.cache.Caches b n) (h₀ : (s.cache.buf b).refcnt = 0)
    (hd : (s.cache.buf b).dirty = false) :
    Refines disksize ⟨s.cache.set b { s.cache.buf b with
        dev := disk1, blockno := n, valid := false, dirty := false, refcnt := 1 },
      ⟨pid, b, n, .waiting⟩ ::ₘ s.sessions⟩ t := by
  obtain ⟨hidle, hheld, hlock⟩ := h.idle h₀
  set c := s.cache.set b { s.cache.buf b with
    dev := disk1, blockno := n, valid := false, dirty := false, refcnt := 1 } with hc
  have hself : c.buf b = { s.cache.buf b with
    dev := disk1, blockno := n, valid := false, dirty := false, refcnt := 1 } := set_buf_self _ _ _
  have hother : ∀ b' ≠ b, c.buf b' = s.cache.buf b' := fun b' hb' => set_buf_of_ne _ _ _ hb'
  have hcaches : ∀ b' m, c.Caches b' m ↔ (b' = b ∧ m = n) ∨ (b' ≠ b ∧ s.cache.Caches b' m) := by
    intro b' m
    unfold Bcache.Caches
    by_cases hb' : b' = b
    · subst hb'
      rw [hself]
      simp [eq_comm]
    · simp [hother b' hb', hb']
  have hheld' : ∀ b', held (⟨pid, b, n, .waiting⟩ ::ₘ s.sessions) b' = held s.sessions b' := by
    intro b'
    rw [held_cons, if_neg fun hw => not_held_waiting _ _ _ hw.2, zero_add]
  refine ⟨h.nodup, h.all, fun b' => ?_, fun x hx => (hcaches _ _).2 ?_, fun b' m hb' => ?_,
    fun b' hb' => ?_, fun b₁ b₂ m hb₁ hb₂ => ?_, fun b' m hb' => ?_, fun m hm => ?_⟩
  · rw [Multiset.filter_cons, Multiset.card_add, ← h.refcnt b']
    by_cases hb' : b' = b
    · subst hb'
      rw [if_pos rfl, h₀]
      exact congrArg Buf.refcnt hself
    · rw [if_neg (Ne.symm hb'), Multiset.card_zero, zero_add]
      exact congrArg Buf.refcnt (hother b' hb')
  · rcases Multiset.mem_cons.1 hx with rfl | hx
    · exact .inl ⟨rfl, rfl⟩
    · exact .inr ⟨hidle x hx, h.key x hx⟩
  · rcases (hcaches _ _).1 hb' with ⟨-, rfl⟩ | ⟨-, hb'⟩
    · exact hn
    · exact h.range _ _ hb'
  · change (c.buf b').dev ≠ disk1 at hb'
    change (c.buf b').dirty = false ∧ (c.buf b').locked = false
    by_cases hbb : b' = b
    · subst hbb
      rw [hself] at hb'
      exact absurd rfl hb'
    · rw [hother b' hbb] at hb' ⊢
      exact h.fresh b' hb'
  · rcases (hcaches _ _).1 hb₁ with ⟨he₁, hm₁⟩ | ⟨-, hs₁⟩ <;>
      rcases (hcaches _ _).1 hb₂ with ⟨he₂, hm₂⟩ | ⟨-, hs₂⟩
    · rw [he₁, he₂]
    · exact absurd (hm₁ ▸ hs₂) (hnot _)
    · exact absurd (hm₂ ▸ hs₁) (hnot _)
    · exact h.unique _ _ _ hs₁ hs₂
  · change Fits s.cache.disk t (c.buf b') (held _ b')
    rw [hheld']
    rcases (hcaches _ _).1 hb' with ⟨rfl, rfl⟩ | ⟨hbb, hb'⟩
    · obtain ⟨hdisk, howner⟩ := h.uncached m hnot
      rw [hself, hheld]
      refine ⟨fun y hy => absurd hy (Multiset.notMem_zero y),
        fun hd' => absurd hd' Bool.false_ne_true, fun hv => absurd hv Bool.false_ne_true,
        fun _ _ => hdisk, ?_, ?_⟩
      · rw [hlock]
        rfl
      · rw [hlock]
        exact howner
    · rw [hother b' hbb]
      exact h.fits b' m hb'
  · have hmn : m ≠ n := by
      rintro rfl
      exact hm b ((hcaches _ _).2 (.inl ⟨rfl, rfl⟩))
    by_cases hb : s.cache.Caches b m
    · -- the block that loses its buffer is on the disk as it was written last
      have hf := h.fits b m hb
      have hdisk := hf.disk hd fun y hy => by
        rw [hheld] at hy
        cases Multiset.notMem_zero y hy
      have howner := hf.owner
      rw [hlock, hb.2] at howner
      rw [hb.2] at hdisk
      exact ⟨hdisk, howner⟩
    · refine h.uncached m fun b' hb' => hm b' ((hcaches _ _).2 (.inr ⟨?_, hb'⟩))
      rintro rfl
      exact hb hb'

theorem bget_cases (hb : bget disk1 n s.cache = some (b, c)) :
    (s.cache.Caches b n ∧
      c = s.cache.set b { s.cache.buf b with refcnt := (s.cache.buf b).refcnt + 1 }) ∨
    ((∀ b ∈ s.cache.lru, ¬ s.cache.Caches b n) ∧ (s.cache.buf b).refcnt = 0 ∧
      (s.cache.buf b).dirty = false ∧ c = s.cache.set b { s.cache.buf b with
        dev := disk1, blockno := n, valid := false, dirty := false, refcnt := 1 }) := by
  unfold bget at hb
  cases hfind : s.cache.lru.find? fun b =>
      decide ((s.cache.buf b).dev = disk1 ∧ (s.cache.buf b).blockno = n) with
  | some b' =>
    rw [hfind] at hb
    obtain ⟨rfl, rfl⟩ := Prod.mk.inj (Option.some.inj hb)
    have hcb := List.find?_some hfind
    rw [decide_eq_true_eq] at hcb
    exact .inl ⟨hcb, rfl⟩
  | none =>
    rw [hfind] at hb
    obtain ⟨b', hb', he⟩ := Option.map_eq_some_iff.1 hb
    obtain ⟨rfl, rfl⟩ := Prod.mk.inj he
    have hfree := List.find?_some hb'
    rw [decide_eq_true_eq] at hfree
    obtain ⟨h₀, hd⟩ := hfree
    refine .inr ⟨fun b hb hcb => List.find?_eq_none.1 hfind b hb (decide_eq_true hcb), h₀, hd, rfl⟩

theorem Refines.get (h : Refines disksize s t) (hn : n < disksize)
    (hb : bget disk1 n s.cache = some (b, c)) :
    Refines disksize ⟨c, ⟨pid, b, n, .waiting⟩ ::ₘ s.sessions⟩ t := by
  rcases bget_cases hb with ⟨hcb, rfl⟩ | ⟨hnot, h₀, hd, rfl⟩
  · refine Refines.count (c := s.cache) h h.nodup h.all rfl (set_refcnt _ _ _)
      (fun b' => ?_) (fun x hx => ?_) (fun b' => ?_)
    · rw [Multiset.filter_cons, Multiset.card_add, ← h.refcnt b']
      by_cases hb' : b' = b
      · subst hb'
        rw [if_pos rfl, set_buf_self]
        exact Nat.add_comm ..
      · rw [if_neg (Ne.symm hb'), set_buf_of_ne _ _ _ hb', Multiset.card_zero, zero_add]
    · rcases Multiset.mem_cons.1 hx with rfl | hx
      · exact hcb
      · exact h.key x hx
    · rw [held_cons, if_neg fun hw => not_held_waiting _ _ _ hw.2, zero_add]
  · exact h.recycle hn (fun b => hnot b (h.all b)) h₀ hd

theorem unref_eq (b : Fin nbuf) (c : Bcache) : unref b c =
    { c.set b { c.buf b with refcnt := (c.buf b).refcnt - 1 } with
      lru := if (c.buf b).refcnt - 1 = 0 then b :: c.lru.erase b else c.lru } := by
  by_cases h : (c.buf b).refcnt - 1 = 0
  · rw [if_pos h]
    exact if_pos h
  · rw [if_neg h]
    exact if_neg h

theorem Refines.unref (h : Refines disksize ⟨c, ⟨pid, b, n, .unlocked⟩ ::ₘ r⟩ t) :
    Refines disksize ⟨unref b c, r⟩ t := by
  have hrefcnt := h.refcnt b
  rw [Multiset.filter_cons, if_pos rfl, Multiset.card_add, Multiset.card_singleton] at hrefcnt
  change (c.buf b).refcnt = _ at hrefcnt
  have hbuf : (Cache.unref b c).buf =
      (c.set b { c.buf b with refcnt := (c.buf b).refcnt - 1 }).buf := by
    rw [unref_eq]
  have hlru : (Cache.unref b c).lru.Perm c.lru := by
    rw [unref_eq]
    change (if (c.buf b).refcnt - 1 = 0 then b :: c.lru.erase b else c.lru).Perm c.lru
    split
    · exact (List.perm_cons_erase (h.all b)).symm
    · exact .refl _
  refine h.count (hlru.nodup_iff.2 h.nodup) (fun b' => hlru.mem_iff.2 (h.all b')) ?_ (fun b' => ?_)
    (fun b' => ?_) (fun x hx => h.key x (Multiset.mem_cons_of_mem hx)) (fun b' => ?_)
  · rw [unref_eq]
    rfl
  · rw [hbuf]
    exact set_refcnt _ _ _ _
  · rw [hbuf]
    by_cases hb' : b' = b
    · subst hb'
      rw [set_buf_self]
      change (c.buf b').refcnt - 1 = _
      rw [hrefcnt, Nat.add_sub_cancel_left]
    · have hother := h.refcnt b'
      rw [Multiset.filter_cons, if_neg (Ne.symm hb'), zero_add] at hother
      rw [set_buf_of_ne _ _ _ hb']
      exact hother
  · rw [held_cons, if_neg fun hw => not_held_unlocked _ _ _ hw.2, zero_add]

theorem refines_binit (disksize : ℕ) (disk : ℕ → Block) :
    Refines disksize (binit disk) ⟨disk, fun _ => none⟩ := by
  have hnot : ∀ b n, ¬ (binit disk).cache.Caches b n := fun b n hb => zero_ne_one hb.1
  refine ⟨List.nodup_reverse.2 (List.nodup_finRange nbuf), fun b => ?_, fun _ => rfl,
    fun x hx => absurd hx (Multiset.notMem_zero x), fun b n hb => absurd hb (hnot b n),
    fun _ _ => ⟨rfl, rfl⟩, fun b _ n hb => absurd hb (hnot b n),
    fun b n hb => absurd hb (hnot b n), fun _ _ => ⟨rfl, rfl⟩⟩
  exact List.mem_reverse.2 (List.mem_finRange b)

/-- Every step of the cache is a step of the store, or changes nothing there. -/
theorem Refines.step {l : Label} {s' : Sys} (h : Refines disksize s t)
    (hs : Step disksize s l s') : ∃ t', Blocks.Step t l t' ∧ Refines disksize s' t' := by
  obtain ⟨c₀, ss⟩ := s
  cases hs with
  | get hn hb => exact ⟨t, .none, h.get hn hb⟩
  | lock hss hc =>
    obtain rfl : ss = _ := hss
    obtain ⟨howner, h'⟩ := h.lock hc
    exact ⟨_, .lock howner, h'⟩
  | read hss hc =>
    obtain rfl : ss = _ := hss
    obtain ⟨c', hc', hdata, h'⟩ := h.read
    obtain rfl := Option.some.inj (hc.symm.trans hc')
    rw [hdata]
    exact ⟨_, .read (h.alone (held_locked _ _ _)).2.2, h'⟩
  | write data hss =>
    obtain rfl : ss = _ := hss
    exact ⟨_, .write (h.alone (held_using _ _ _ _)).2.2, h.write data⟩
  | bwrite hss hc =>
    obtain rfl : ss = _ := hss
    obtain ⟨c', hc', h'⟩ := h.bwrite
    obtain rfl := Option.some.inj (hc.symm.trans hc')
    exact ⟨t, .none, h'⟩
  | logWrite hss =>
    obtain rfl : ss = _ := hss
    exact ⟨t, .none, h.logWrite⟩
  | unlock hss hc =>
    obtain rfl : ss = _ := hss
    obtain ⟨c', hc', h'⟩ := h.unlock
    obtain rfl := Option.some.inj (hc.symm.trans hc')
    exact ⟨_, .unlock (h.alone (held_using _ _ _ _)).2.2, h'⟩
  | unref hss =>
    obtain rfl : ss = _ := hss
    exact ⟨t, .none, h.unref⟩

end Steps

section Runs
variable {disksize : ℕ} {disk : ℕ → Block} {ls : List Label} {s : Sys}

theorem run_refines (h : Transitions.Run (Step disksize) (binit disk) ls s) :
    ∃ t, Transitions.Run Blocks.Step ⟨disk, fun _ => none⟩ ls t ∧ Refines disksize s t :=
  h.simulation (P := fun _ => True) (fun _ _ _ _ hR _ hs => hR.step hs)
    (refines_binit disksize disk) fun _ _ => trivial

theorem reads_block : ∃ s b, Transitions.Run (Step 1) (binit fun _ _ => 7)
    [.none, .lock 1 0, .read 1 0 fun _ => 7] s ∧ ⟨1, b, 0, .using false⟩ ∈ s.sessions ∧
      (∀ x ∈ s.sessions, x.buf = b) ∧ ∃ c ≠ b, (s.cache.buf c).dirty = false := by
  have hget := Transitions.Run.nil.snoc (@Step.get 1 (binit fun _ _ => 7) 1 0 _ _ zero_lt_one rfl)
  have hlock := hget.snoc (@Step.lock _ _ 1 ⟨0, Nat.zero_lt_succ _⟩ 0 0 _ rfl rfl)
  have hread := hlock.snoc (@Step.read _ _ 1 ⟨0, Nat.zero_lt_succ _⟩ 0 0 _ rfl rfl)
  refine ⟨_, ⟨0, Nat.zero_lt_succ _⟩, hread, Multiset.mem_singleton_self _, fun x hx => ?_,
    ⟨1, Nat.succ_lt_succ (Nat.zero_lt_succ _)⟩, ?_, rfl⟩
  · rw [Multiset.mem_singleton.1 hx]
  · exact fun he => absurd (congrArg Fin.val he) one_ne_zero

/-- Whatever the processes do, they see the blocks of a store in which a block is locked by one
process at a time. A block that is not dirty and that nobody is changing is on the disk. -/
theorem cache_refines (h : Transitions.Run (Step disksize) (binit disk) ls s) :
    ∃ t, Transitions.Run Blocks.Step ⟨disk, fun _ => none⟩ ls t ∧
      ∀ n, (∀ b, s.cache.Caches b n → (s.cache.buf b).dirty = false ∧
        ∀ x ∈ s.sessions, x.buf = b → x.phase ≠ .using true) → s.cache.disk n = t.content n := by
  obtain ⟨t, ht, hR⟩ := run_refines h
  refine ⟨t, ht, fun n hn => ?_⟩
  by_cases hb : ∃ b, s.cache.Caches b n
  · obtain ⟨b, hb⟩ := hb
    obtain ⟨hd, hx⟩ := hn b hb
    have hdisk := (hR.fits b n hb).disk hd fun y hy =>
      hx y (Multiset.mem_of_mem_filter hy) (Multiset.of_mem_filter hy).1
    rwa [hb.2] at hdisk
  · exact (hR.uncached n (not_exists.1 hb)).1

theorem cache_refines_read : ∃ t, Transitions.Run Blocks.Step ⟨fun _ _ => 7, fun _ => none⟩
    [.none, .lock 1 0, .read 1 0 fun _ => 7] t := by
  obtain ⟨s, b, h, -⟩ := reads_block
  exact (cache_refines h).imp fun _ ht => ht.1

/-- A process that follows the interface never panics, and it waits for a buffer only while another
process has locked it. -/
theorem never_panics (h : Transitions.Run (Step disksize) (binit disk) ls s) {x : Session}
    (hx : x ∈ s.sessions) :
    (x.phase = .waiting → (acquiresleep x.pid x.buf s.cache = none ↔
      ∃ y ∈ s.sessions, y.buf = x.buf ∧ y.Held)) ∧
    (x.phase = .locked → bread disksize x.pid x.buf s.cache ≠ none) ∧
    (∀ changed, x.phase = .using changed → bwrite disksize x.pid x.buf s.cache ≠ none ∧
      brelse x.pid x.buf s.cache ≠ none) := by
  obtain ⟨t, -, hR⟩ := run_refines h
  obtain ⟨c, ss⟩ := s
  obtain ⟨r, rfl⟩ := Multiset.exists_cons_of_mem hx
  obtain ⟨pid, b, n, phase⟩ := x
  refine ⟨fun _ => ?_, ?_, ?_⟩
  · have hlock := (hR.fits b n (hR.key _ hx)).lock
    have hheld : (c.buf b).locked = true ↔ ∃ y, y ∈ held (⟨pid, b, n, phase⟩ ::ₘ r) b := by
      change Multiset.map Session.pid _ = if (c.buf b).locked = true then _ else _ at hlock
      rw [← Multiset.card_pos_iff_exists_mem, ← Multiset.card_map Session.pid, hlock]
      by_cases hl : (c.buf b).locked = true
      · simp [hl]
      · simp [hl]
    calc acquiresleep pid b c = none ↔ (c.buf b).locked = true := by
          unfold acquiresleep
          split <;> simp_all
      _ ↔ ∃ y, y ∈ held (⟨pid, b, n, phase⟩ ::ₘ r) b := hheld
      _ ↔ _ := exists_congr fun y => Multiset.mem_filter
  · rintro rfl
    obtain ⟨c', hc', -⟩ := hR.read
    exact Option.ne_none_iff_exists'.2 ⟨c', hc'⟩
  · rintro changed rfl
    obtain ⟨c', hc', -⟩ := hR.bwrite
    refine ⟨Option.ne_none_iff_exists'.2 ⟨c', hc'⟩, ?_⟩
    rw [brelse, if_neg (not_not.2 (hR.alone (held_using pid n b changed)).1)]
    exact Option.some_ne_none _

theorem never_panics_read : ∃ s : Sys, ∃ b, ⟨1, b, 0, .using false⟩ ∈ s.sessions ∧
    bwrite 1 1 b s.cache ≠ none ∧ brelse 1 b s.cache ≠ none := by
  obtain ⟨s, b, h, hx, -⟩ := reads_block
  exact ⟨s, b, hx, (never_panics h hx).2.2 false rfl⟩

/-- `bget` panics exactly when the block is not cached and every buffer is in use or dirty. -/
theorem bget_panics_iff (h : Transitions.Run (Step disksize) (binit disk) ls s) (n : ℕ) :
    bget disk1 n s.cache = none ↔ (∀ b, ¬ s.cache.Caches b n) ∧
      ∀ b, (∃ x ∈ s.sessions, x.buf = b) ∨ (s.cache.buf b).dirty = true := by
  obtain ⟨t, -, hR⟩ := run_refines h
  have hused : ∀ b, (s.cache.buf b).refcnt = 0 ↔ ¬ ∃ x ∈ s.sessions, x.buf = b := by
    intro b
    rw [hR.refcnt b, Multiset.card_eq_zero, Multiset.filter_eq_nil]
    push Not
    rfl
  unfold bget
  cases hfind : s.cache.lru.find? fun b =>
      decide ((s.cache.buf b).dev = disk1 ∧ (s.cache.buf b).blockno = n) with
  | some b =>
    have hb := List.find?_some hfind
    rw [decide_eq_true_eq] at hb
    exact iff_of_false (Option.some_ne_none _) fun hc => hc.1 b hb
  | none =>
    have hnot : ∀ b, ¬ s.cache.Caches b n := fun b hb =>
      List.find?_eq_none.1 hfind b (hR.all b) (decide_eq_true hb)
    change Option.map _ _ = none ↔ _
    rw [Option.map_eq_none_iff, List.find?_eq_none, and_iff_right hnot]
    refine forall_congr' fun b => ?_
    rw [List.mem_reverse, decide_eq_true_eq, hused]
    constructor
    · intro hb
      by_contra hc
      rw [not_or] at hc
      exact hb (hR.all b) ⟨hc.1, (Bool.not_eq_true _).mp hc.2⟩
    · rintro hb - ⟨hno, hd⟩
      rcases hb with hb | hb
      · exact hno hb
      · rw [hd] at hb
        cases hb

/-- While a process uses block 0, another one gets block 0 again, and block 5 in a buffer that is
free. -/
theorem bget_succeeds_reading : ∃ s b, Transitions.Run (Step 1) (binit fun _ _ => 7)
    [.none, .lock 1 0, .read 1 0 fun _ => 7] s ∧ ⟨1, b, 0, .using false⟩ ∈ s.sessions ∧
      bget disk1 0 s.cache ≠ none ∧ bget disk1 5 s.cache ≠ none := by
  obtain ⟨s, b, h, hx, honly, c, hcb, hdirty⟩ := reads_block
  obtain ⟨t, -, hR⟩ := run_refines h
  refine ⟨s, b, h, hx, fun hnone => ?_, fun hnone => ?_⟩
  · exact ((bget_panics_iff h 0).1 hnone).1 b (hR.key _ hx)
  · rcases ((bget_panics_iff h 5).1 hnone).2 c with ⟨y, hy, hyc⟩ | hd
    · exact hcb (hyc.symm.trans (honly y hy))
    · rw [hdirty] at hd
      cases hd

end Runs

end Cache
