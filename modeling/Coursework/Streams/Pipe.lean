import Coursework.Lib.Circular
import Coursework.Lib.Machine
import Mathlib.Data.Fintype.Basic

/-! Pipes: processes that write to a pipe, read from it, sleep, are killed and close its ends
in any order. A process runs from where it has got the lock of the pipe to where it gives it
up, as it returns or goes to sleep. -/
namespace Streams
open Circular

def pipesize : ℕ := 512

/-- The values of a `uint`. -/
def words : ℕ := 4294967296

structure Pipe where
  data : ℕ → ℕ
  nread : ℕ
  nwrite : ℕ
  readopen : Bool
  writeopen : Bool

/-- How a process leaves `pipewrite`: it has written everything, or it sleeps on `nwrite` or
returns `-1` with some bytes left. -/
inductive WriteEnd where
  | returns
  | sleeps (rest : List ℕ)
  | fails (rest : List ℕ)

/-- `pipewrite` for the bytes of `addr` that are left. -/
def pipewrite (killed : Bool) : List ℕ → Pipe → Pipe × WriteEnd
  | [], p => (p, .returns)
  | b :: bytes, p =>
    if p.nwrite = (p.nread + pipesize) % words then
      if p.readopen = false ∨ killed = true then (p, .fails (b :: bytes))
      else (p, .sleeps (b :: bytes))
    else pipewrite killed bytes { p with
      data := Function.update p.data (p.nwrite % pipesize) b
      nwrite := (p.nwrite + 1) % words }

/-- The loop of `piperead` that copies at most `n` bytes. -/
def readLoop : ℕ → Pipe → List ℕ × Pipe
  | 0, p => ([], p)
  | n + 1, p =>
    if p.nread = p.nwrite then ([], p)
    else
      let r := readLoop n { p with nread := (p.nread + 1) % words }
      (p.data (p.nread % pipesize) :: r.1, r.2)

/-- How a process leaves `piperead`. -/
inductive ReadEnd where
  | returns (bytes : List ℕ)
  | sleeps
  | fails

def piperead (killed : Bool) (n : ℕ) (p : Pipe) : Pipe × ReadEnd :=
  if p.nread = p.nwrite ∧ p.writeopen = true then
    if killed = true then (p, .fails) else (p, .sleeps)
  else
    let r := readLoop n p
    (r.2, .returns r.1)

/-- The call that a process is in, with the bytes left to write. -/
inductive Call where
  | none
  | write (bytes : List ℕ)
  | read (n : ℕ)
  deriving DecidableEq

structure Proc where
  call : Call
  asleep : Bool
  killed : Bool

/-- The channels `&p->nread` and `&p->nwrite`. -/
inductive Chan where
  | nread
  | nwrite
  deriving DecidableEq

/-- The channel on which a process sleeps. -/
def Call.chan : Call → Option Chan
  | .none => Option.none
  | .write _ => some .nwrite
  | .read _ => some .nread

/-- A pipe and the processes that use it, with all the bytes that were ever put into the pipe
and taken from it. -/
structure Sys where
  pipe : Pipe
  proc : Fin 64 → Proc
  sent : List ℕ
  received : List ℕ

def Sys.setProc (s : Sys) (i : Fin 64) (p : Proc) : Sys :=
  { s with proc := Function.update s.proc i p }

def wakeup (c : Chan) (s : Sys) : Sys :=
  { s with proc := fun i =>
      if (s.proc i).asleep = true ∧ (s.proc i).call.chan = some c then
        { s.proc i with asleep := false }
      else s.proc i }

/-- Process `i` runs `pipewrite` until it gives up the lock. -/
def writeTurn (i : Fin 64) (bytes : List ℕ) (s : Sys) : Sys :=
  let r := pipewrite (s.proc i).killed bytes s.pipe
  match r.2 with
  | .returns =>
    (wakeup .nread { s with pipe := r.1, sent := s.sent ++ bytes }).setProc i
      { s.proc i with call := .none }
  | .sleeps rest =>
    (wakeup .nread { s with
      pipe := r.1
      sent := s.sent ++ bytes.take (bytes.length - rest.length) }).setProc i
      { s.proc i with call := .write rest, asleep := true }
  | .fails rest =>
    { s with
      pipe := r.1
      sent := s.sent ++ bytes.take (bytes.length - rest.length) }.setProc i
      { s.proc i with call := .none }

/-- Process `i` runs `piperead` until it gives up the lock. -/
def readTurn (i : Fin 64) (n : ℕ) (s : Sys) : Sys :=
  let r := piperead (s.proc i).killed n s.pipe
  match r.2 with
  | .returns bytes =>
    (wakeup .nwrite { s with pipe := r.1, received := s.received ++ bytes }).setProc i
      { s.proc i with call := .none }
  | .sleeps => s.setProc i { s.proc i with asleep := true }
  | .fails => s.setProc i { s.proc i with call := .none }

def pipeclose (writable : Bool) (s : Sys) : Sys :=
  if writable then wakeup .nread { s with pipe := { s.pipe with writeopen := false } }
  else wakeup .nwrite { s with pipe := { s.pipe with readopen := false } }

inductive Op where
  | write (i : Fin 64) (bytes : List ℕ)
  | read (i : Fin 64) (n : ℕ)
  | run (i : Fin 64)
  | kill (i : Fin 64)
  | close (writable : Bool)

/-- A process calls through an end that is open, and an end is closed when no process is in a
call through it. -/
def step (s : Sys) : Op → Sys
  | .write i bytes =>
    if (s.proc i).call = .none ∧ s.pipe.writeopen = true then
      s.setProc i { s.proc i with call := .write bytes }
    else s
  | .read i n =>
    if (s.proc i).call = .none ∧ s.pipe.readopen = true then
      s.setProc i { s.proc i with call := .read n }
    else s
  | .run i =>
    if (s.proc i).asleep = true then s
    else match (s.proc i).call with
      | .none => s
      | .write bytes => writeTurn i bytes s
      | .read n => readTurn i n s
  | .kill i => s.setProc i { s.proc i with killed := true, asleep := false }
  | .close writable =>
    if ∀ i, (s.proc i).call.chan ≠ some (if writable then .nwrite else .nread) then
      pipeclose writable s
    else s

/-- After `pipealloc`. -/
def opened : Sys :=
  ⟨⟨fun _ => 0, 0, 0, true, true⟩, fun _ => ⟨.none, false, false⟩, [], []⟩

def Pipe.ring (p : Pipe) : Counters ℕ := ⟨p.data, p.nread, p.nwrite⟩

/-- The bytes in the pipe. -/
def Pipe.Holds (p : Pipe) (q : List ℕ) : Prop := p.ring.Holds pipesize words q

theorem pipesize_dvd : pipesize ∣ words := by decide

theorem pipesize_lt : pipesize < words := by decide

section Ends
variable {killed : Bool} {p : Pipe} {q : List ℕ}

theorem Pipe.Holds.full_iff (h : p.Holds q) :
    p.nwrite = (p.nread + pipesize) % words ↔ q.length = pipesize :=
  Counters.Holds.stored_eq_iff h pipesize_lt le_rfl

theorem Pipe.Holds.empty_iff (h : p.Holds q) : p.nread = p.nwrite ↔ q = [] :=
  Counters.Holds.empty_iff h pipesize_lt

/-- What `pipewrite` has left when it gives up the lock. -/
def WriteEnd.rest : WriteEnd → List ℕ
  | .returns => []
  | .sleeps rest => rest
  | .fails rest => rest

/-- What `pipewrite` does with a pipe that holds `q`: it appends `stored`, and leaves the other
bytes only when the pipe is full. -/
structure Written (killed : Bool) (bytes : List ℕ) (p : Pipe) (q stored : List ℕ)
    (r : Pipe × WriteEnd) : Prop where
  bytes : bytes = stored ++ r.2.rest
  holds : r.1.Holds (q ++ stored)
  readopen : r.1.readopen = p.readopen
  writeopen : r.1.writeopen = p.writeopen
  returns : r.2 = .returns ↔ r.2.rest = []
  full : r.2.rest ≠ [] → (q ++ stored).length = pipesize
  fails : ∀ rest, r.2 = .fails rest ↔
    rest = r.2.rest ∧ rest ≠ [] ∧ (p.readopen = false ∨ killed = true)

theorem pipewrite_spec (killed : Bool) (bytes : List ℕ) (h : p.Holds q) :
    ∃ stored, Written killed bytes p q stored (pipewrite killed bytes p) := by
  induction bytes generalizing p q with
  | nil =>
    refine ⟨[], rfl, ?_, rfl, rfl, by simp [pipewrite, WriteEnd.rest],
      by simp [pipewrite, WriteEnd.rest], ?_⟩
    · rwa [List.append_nil]
    · intro rest
      simp [pipewrite, WriteEnd.rest]
      tauto
  | cons b bytes ih =>
    rw [pipewrite]
    by_cases hf : p.nwrite = (p.nread + pipesize) % words
    · have hlen := h.full_iff.1 hf
      rw [if_pos hf]
      by_cases hc : p.readopen = false ∨ killed = true
      · rw [if_pos hc]
        refine ⟨[], rfl, by rwa [List.append_nil], rfl, rfl, by simp [WriteEnd.rest], fun _ => ?_,
          fun rest => ?_⟩
        · rwa [List.append_nil]
        · simp only [WriteEnd.fails.injEq, WriteEnd.rest]
          constructor
          · rintro rfl
            exact ⟨rfl, List.cons_ne_nil _ _, hc⟩
          · exact fun h => h.1.symm
      · rw [if_neg hc]
        refine ⟨[], rfl, by rwa [List.append_nil], rfl, rfl, by simp [WriteEnd.rest], fun _ => ?_,
          fun rest => ?_⟩
        · rwa [List.append_nil]
        · exact iff_of_false (by simp) fun h => hc h.2.2
    · have hlt : q.length < pipesize := lt_of_le_of_ne h.le (mt h.full_iff.2 hf)
      rw [if_neg hf]
      obtain ⟨stored, hw⟩ := ih (p := { p with
        data := Function.update p.data (p.nwrite % pipesize) b
        nwrite := (p.nwrite + 1) % words }) (Counters.Holds.push h pipesize_dvd hlt b)
      have he : q ++ [b] ++ stored = q ++ b :: stored := by simp
      refine ⟨b :: stored, ?_, he ▸ hw.holds, hw.readopen, hw.writeopen, hw.returns, ?_, hw.fails⟩
      · rw [List.cons_append, ← hw.bytes]
      · exact fun hr => he ▸ hw.full hr

theorem readLoop_spec (n : ℕ) (h : p.Holds q) :
    (readLoop n p).1 = q.take n ∧ (readLoop n p).2.Holds (q.drop n) ∧
      (readLoop n p).2.readopen = p.readopen ∧ (readLoop n p).2.writeopen = p.writeopen := by
  induction n generalizing p q with
  | zero => exact ⟨rfl, h, rfl, rfl⟩
  | succ n ih =>
    rw [readLoop]
    by_cases he : p.nread = p.nwrite
    · obtain rfl := h.empty_iff.1 he
      rw [if_pos he]
      exact ⟨rfl, h, rfl, rfl⟩
    · rw [if_neg he]
      cases q with
      | nil => exact absurd (h.empty_iff.2 rfl) he
      | cons v q =>
        obtain ⟨hb, hh, hr, hw⟩ := ih (p := { p with nread := (p.nread + 1) % words })
          (Counters.Holds.pop h pipesize_dvd)
        refine ⟨?_, hh, hr, hw⟩
        rw [List.take_succ_cons, ← hb]
        exact congrArg (· :: _) (Counters.Holds.front h)

theorem piperead_spec (killed : Bool) (n : ℕ) (h : p.Holds q) :
    piperead killed n p = if q = [] ∧ p.writeopen = true then
        if killed = true then (p, .fails) else (p, .sleeps)
      else ((readLoop n p).2, .returns (q.take n)) := by
  unfold piperead
  simp only [h.empty_iff, (readLoop_spec n h).1]

end Ends

section Invariant
variable {s : Sys} {q : List ℕ} {i j : Fin 64} {c c' : Chan}

/-- Process `i` sleeps on the channel. -/
def Sleeping (s : Sys) (i : Fin 64) (c : Chan) : Prop :=
  (s.proc i).asleep = true ∧ (s.proc i).call.chan = some c

/-- Wakes the processes on a channel, or none. -/
def Sys.wake : Option Chan → Sys → Sys
  | none, s => s
  | some c, s => wakeup c s

theorem sleeping_wake {o : Option Chan} :
    Sleeping (s.wake o) i c ↔ Sleeping s i c ∧ o ≠ some c := by
  cases o with
  | none => simp [Sys.wake]
  | some c' =>
    unfold Sleeping Sys.wake wakeup
    dsimp only
    split
    next h =>
      simp only [h, Bool.false_eq_true, false_and, false_iff, true_and]
      rintro ⟨he, hne⟩
      exact hne he
    next h =>
      constructor
      · rintro ⟨ha, hc⟩
        exact ⟨⟨ha, hc⟩, fun he => h ⟨ha, hc.trans he.symm⟩⟩
      · exact And.left

@[simp] theorem wake_call {o : Option Chan} : ((s.wake o).proc i).call = (s.proc i).call := by
  cases o with
  | none => rfl
  | some c =>
    unfold Sys.wake wakeup
    dsimp only
    split <;> rfl

@[simp] theorem wake_killed {o : Option Chan} :
    ((s.wake o).proc i).killed = (s.proc i).killed := by
  cases o with
  | none => rfl
  | some c =>
    unfold Sys.wake wakeup
    dsimp only
    split <;> rfl

theorem wake_asleep {o : Option Chan} (h : ((s.wake o).proc i).asleep = true) :
    (s.proc i).asleep = true := by
  cases o with
  | none => exact h
  | some c =>
    unfold Sys.wake wakeup at h
    dsimp only at h
    split at h
    · cases h
    · exact h

theorem setProc_self {p : Proc} : (s.setProc i p).proc i = p := Function.update_self ..

theorem setProc_of_ne {p : Proc} (hj : j ≠ i) : (s.setProc i p).proc j = s.proc j :=
  Function.update_of_ne hj ..

theorem sleeping_setProc {p : Proc} : Sleeping (s.setProc i p) j c ↔
    if j = i then p.asleep = true ∧ p.call.chan = some c else Sleeping s j c := by
  unfold Sleeping
  by_cases hj : j = i
  · rw [hj, setProc_self, if_pos rfl]
  · rw [setProc_of_ne hj, if_neg hj]

/-- In every state: what was sent and not yet received is in the pipe, no killed process
sleeps, the calls go through open ends, writers sleep only while the pipe is full and has a
reader, and never at the same time as a reader. -/
structure Inv (s : Sys) (q : List ℕ) : Prop where
  holds : s.pipe.Holds q
  history : s.sent = s.received ++ q
  alive : ∀ i, (s.proc i).asleep = true → (s.proc i).killed = false
  busy : ∀ i, (s.proc i).asleep = true → (s.proc i).call ≠ .none
  writeopen : ∀ i, (s.proc i).call.chan = some .nwrite → s.pipe.writeopen = true
  readopen : ∀ i, (s.proc i).call.chan = some .nread → s.pipe.readopen = true
  writer : ∀ i, Sleeping s i .nwrite → q.length = pipesize ∧ s.pipe.readopen = true
  apart : ∀ i j, Sleeping s i .nread → ¬ Sleeping s j .nwrite

/-- After process `i` has given up the lock in the state `p`, having changed the pipe and woken
the processes on the channel `o`. -/
theorem Inv.turn {s' : Sys} {q' : List ℕ} {o : Option Chan} {p : Proc} (h : Inv s q)
    (hproc : s'.proc = s.proc) (hholds : s'.pipe.Holds q') (hhist : s'.sent = s'.received ++ q')
    (hr : p.call.chan = some .nread → s'.pipe.readopen = true)
    (hw : p.call.chan = some .nwrite → s'.pipe.writeopen = true)
    (hflags : s'.pipe.readopen = s.pipe.readopen ∧ s'.pipe.writeopen = s.pipe.writeopen)
    (hself : p.asleep = true → p.killed = false ∧ p.call ≠ .none)
    (hwriter : p.asleep = true → p.call.chan = some .nwrite →
      q'.length = pipesize ∧ s'.pipe.readopen = true ∧ o = some .nread)
    (hreader : p.asleep = true → p.call.chan = some .nread → q'.length ≠ pipesize)
    (hfull : ∀ j, Sleeping s j .nwrite → o = some .nwrite ∨ q'.length = pipesize) :
    Inv ((s'.wake o).setProc i p) q' := by
  have hpipe : ((s'.wake o).setProc i p).pipe = s'.pipe := by cases o <;> rfl
  have hsleep : ∀ j c, Sleeping ((s'.wake o).setProc i p) j c ↔
      if j = i then p.asleep = true ∧ p.call.chan = some c else Sleeping s j c ∧ o ≠ some c := by
    intro j c
    rw [sleeping_setProc, sleeping_wake]
    unfold Sleeping
    rw [hproc]
  have hold : ∀ j, j ≠ i → (((s'.wake o).setProc i p).proc j).call = (s.proc j).call ∧
      (((s'.wake o).setProc i p).proc j).killed = (s.proc j).killed ∧
      ((((s'.wake o).setProc i p).proc j).asleep = true → (s.proc j).asleep = true) := by
    intro j hj
    rw [setProc_of_ne hj, wake_call, wake_killed, ← hproc]
    exact ⟨rfl, rfl, wake_asleep⟩
  refine ⟨hpipe ▸ hholds, ?_, fun j hj => ?_, fun j hj => ?_, fun j hj => ?_, fun j hj => ?_,
    fun j hj => ?_, fun j k hj hk => ?_⟩
  · cases o <;> exact hhist
  · by_cases hji : j = i
    · subst hji
      rw [setProc_self] at hj ⊢
      exact (hself hj).1
    · rw [(hold j hji).2.1]
      exact h.alive j ((hold j hji).2.2 hj)
  · by_cases hji : j = i
    · subst hji
      rw [setProc_self] at hj ⊢
      exact (hself hj).2
    · rw [(hold j hji).1]
      exact h.busy j ((hold j hji).2.2 hj)
  · rw [hpipe]
    by_cases hji : j = i
    · subst hji
      rw [setProc_self] at hj
      exact hw hj
    · rw [(hold j hji).1] at hj
      exact hflags.2.trans (h.writeopen j hj)
  · rw [hpipe]
    by_cases hji : j = i
    · subst hji
      rw [setProc_self] at hj
      exact hr hj
    · rw [(hold j hji).1] at hj
      exact hflags.1.trans (h.readopen j hj)
  · rw [hsleep] at hj
    rw [hpipe]
    split at hj
    · exact ⟨(hwriter hj.1 hj.2).1, (hwriter hj.1 hj.2).2.1⟩
    · exact ⟨(hfull j hj.1).resolve_left hj.2, hflags.1.trans (h.writer j hj.1).2⟩
  · rw [hsleep] at hj hk
    split at hj <;> split at hk
    · rw [hj.2] at hk
      cases hk.2
    · exact hreader hj.1 hj.2 ((hfull k hk.1).resolve_left hk.2)
    · exact hj.2 (hwriter hk.1 hk.2).2.2
    · exact h.apart j k hj.1 hk.1

theorem Inv.start {call : Call} (h : Inv s q) (hi : (s.proc i).call = .none)
    (hw : call.chan = some .nwrite → s.pipe.writeopen = true)
    (hr : call.chan = some .nread → s.pipe.readopen = true) :
    Inv (s.setProc i { s.proc i with call := call }) q := by
  have hidle : ¬ (s.proc i).asleep = true := fun ha => h.busy i ha hi
  exact h.turn (o := none) rfl h.holds h.history hr hw ⟨rfl, rfl⟩ (fun ha => absurd ha hidle)
    (fun ha => absurd ha hidle) (fun ha => absurd ha hidle) fun j hj => .inr (h.writer j hj).1

theorem Written.take {bytes stored : List ℕ} {killed : Bool} {p : Pipe} {r : Pipe × WriteEnd}
    (h : Written killed bytes p q stored r) :
    bytes.take (bytes.length - r.2.rest.length) = stored := by
  rw [h.bytes, List.length_append, Nat.add_sub_cancel, List.take_left]

theorem Inv.writeTurn {bytes : List ℕ} (h : Inv s q) (hi : (s.proc i).call = .write bytes)
    (ha : (s.proc i).asleep = false) : ∃ q', Inv (writeTurn i bytes s) q' := by
  obtain ⟨stored, hw⟩ := pipewrite_spec (s.proc i).killed bytes h.holds
  refine ⟨q ++ stored, ?_⟩
  have htake := hw.take
  have hhist : s.sent ++ stored = s.received ++ (q ++ stored) := by
    rw [h.history, List.append_assoc]
  have hopen := h.writeopen i (by rw [hi]; rfl)
  have hawake : ¬ (s.proc i).asleep = true := by rw [ha]; exact Bool.false_ne_true
  have hfull : ∀ j, Sleeping s j .nwrite → (q ++ stored).length = pipesize := by
    intro j hj
    have hle : (q ++ stored).length ≤ pipesize := hw.holds.le
    have hq := (h.writer j hj).1
    rw [List.length_append] at hle ⊢
    omega
  unfold Streams.writeTurn
  rcases hr : pipewrite (s.proc i).killed bytes s.pipe with ⟨p, _ | rest | rest⟩
  all_goals
    rw [hr] at hw htake
    dsimp only at htake ⊢
  case returns =>
    have hb : bytes = stored := by rw [hw.bytes]; exact List.append_nil _
    exact h.turn (o := some .nread) rfl hw.holds (hb ▸ hhist) (fun hc => by cases hc)
      (fun hc => by cases hc) ⟨hw.readopen, hw.writeopen⟩ (fun hs => absurd hs hawake)
      (fun hs => absurd hs hawake) (fun hs => absurd hs hawake) fun j hj => .inr (hfull j hj)
  case sleeps =>
    have hne : rest ≠ [] := fun he => by
      have := hw.returns.2 he
      cases this
    have hlive : ¬ (p.readopen = false ∨ (s.proc i).killed = true) := fun hc => by
      have := (hw.fails rest).2 ⟨rfl, hne, by rwa [← hw.readopen]⟩
      cases this
    have hr : p.readopen = true := Bool.eq_true_of_not_eq_false fun hc => hlive (.inl hc)
    exact h.turn (o := some .nread) rfl hw.holds (htake.symm ▸ hhist) (fun hc => by cases hc)
      (fun _ => hw.writeopen.trans hopen) ⟨hw.readopen, hw.writeopen⟩
      (fun _ => ⟨Bool.eq_false_iff.2 fun hk => hlive (.inr hk), by simp⟩)
      (fun _ _ => ⟨hw.full hne, hr, rfl⟩) (fun _ hc => by cases hc)
      fun j hj => .inr (hfull j hj)
  case fails =>
    exact h.turn (o := none) rfl hw.holds (htake.symm ▸ hhist) (fun hc => by cases hc)
      (fun hc => by cases hc) ⟨hw.readopen, hw.writeopen⟩ (fun hs => absurd hs hawake)
      (fun hs => absurd hs hawake) (fun hs => absurd hs hawake) fun j hj => .inr (hfull j hj)

theorem Inv.readTurn {n : ℕ} (h : Inv s q) (hi : (s.proc i).call = .read n)
    (ha : (s.proc i).asleep = false) : ∃ q', Inv (readTurn i n s) q' := by
  have hopen := h.readopen i (by rw [hi]; rfl)
  have hawake : ¬ (s.proc i).asleep = true := by rw [ha]; exact Bool.false_ne_true
  unfold Streams.readTurn
  rw [piperead_spec _ _ h.holds]
  by_cases he : q = [] ∧ s.pipe.writeopen = true
  · have hfull : ∀ j, Sleeping s j .nwrite → none = some Chan.nwrite ∨ q.length = pipesize :=
      fun j hj => .inr (h.writer j hj).1
    rw [if_pos he]
    refine ⟨q, ?_⟩
    by_cases hk : (s.proc i).killed = true
    · rw [if_pos hk]
      exact h.turn (o := none) rfl h.holds h.history (fun hc => by cases hc)
        (fun hc => by cases hc) ⟨rfl, rfl⟩ (fun hs => absurd hs hawake)
        (fun hs => absurd hs hawake) (fun hs => absurd hs hawake) hfull
    · rw [if_neg hk]
      refine h.turn (o := none) rfl h.holds h.history (fun _ => hopen) (fun hc => ?_) ⟨rfl, rfl⟩
        (fun _ => ⟨Bool.eq_false_iff.2 hk, ?_⟩) (fun _ hc => ?_) (fun _ _ => ?_) hfull
      · rw [hi] at hc
        cases hc
      · simp only [hi]
        exact Call.noConfusion
      · rw [hi] at hc
        cases hc
      · rw [he.1]
        decide
  · rw [if_neg he]
    obtain ⟨-, hh, hr, hw⟩ := readLoop_spec n h.holds
    refine ⟨q.drop n, h.turn (o := some .nwrite) rfl hh ?_ (fun hc => by cases hc)
      (fun hc => by cases hc) ⟨hr, hw⟩ (fun hs => absurd hs hawake)
      (fun hs => absurd hs hawake) (fun hs => absurd hs hawake) fun _ _ => .inl rfl⟩
    change s.sent = s.received ++ q.take n ++ q.drop n
    rw [List.append_assoc, List.take_append_drop, h.history]

theorem Inv.kill (h : Inv s q) (i : Fin 64) :
    Inv (s.setProc i { s.proc i with killed := true, asleep := false }) q :=
  h.turn (o := none) rfl h.holds h.history (h.readopen i) (h.writeopen i) ⟨rfl, rfl⟩
    (fun hs => by cases hs) (fun hs => by cases hs) (fun hs => by cases hs)
    fun j hj => .inr (h.writer j hj).1

theorem Inv.close (h : Inv s q) {writable : Bool}
    (hi : ∀ i, (s.proc i).call.chan ≠ some (if writable then .nwrite else .nread)) :
    Inv (pipeclose writable s) q := by
  have hsleep : ∀ {s' : Sys} {o : Option Chan}, s'.proc = s.proc → ∀ j c,
      Sleeping (s'.wake o) j c → Sleeping s j c ∧ o ≠ some c := by
    intro s' o hp j c hj
    rw [sleeping_wake] at hj
    unfold Sleeping at hj ⊢
    rwa [hp] at hj
  cases writable with
  | true =>
    refine ⟨h.holds, h.history, fun j hj => ?_, fun j hj => ?_, fun j hj => ?_, fun j hj => ?_,
      fun j hj => ?_, fun j k hj _ => ?_⟩
    · exact (wake_killed (o := some .nread)).trans (h.alive j (wake_asleep (o := some .nread) hj))
    · exact fun hc => h.busy j (wake_asleep (o := some .nread) hj)
        ((wake_call (o := some .nread)).symm.trans hc)
    · exact absurd ((congrArg Call.chan (wake_call (o := some .nread))).symm.trans hj) (hi j)
    · exact h.readopen j ((congrArg Call.chan (wake_call (o := some .nread))).symm.trans hj)
    · exact absurd (hsleep (o := some .nread) rfl j _ hj).1.2 (hi j)
    · exact (hsleep (o := some .nread) rfl j _ hj).2 rfl
  | false =>
    refine ⟨h.holds, h.history, fun j hj => ?_, fun j hj => ?_, fun j hj => ?_, fun j hj => ?_,
      fun j hj => ?_, fun j k _ hk => ?_⟩
    · exact (wake_killed (o := some .nwrite)).trans (h.alive j (wake_asleep (o := some .nwrite) hj))
    · exact fun hc => h.busy j (wake_asleep (o := some .nwrite) hj)
        ((wake_call (o := some .nwrite)).symm.trans hc)
    · exact h.writeopen j ((congrArg Call.chan (wake_call (o := some .nwrite))).symm.trans hj)
    · exact absurd ((congrArg Call.chan (wake_call (o := some .nwrite))).symm.trans hj) (hi j)
    · exact absurd rfl (hsleep (o := some .nwrite) rfl j _ hj).2
    · exact (hsleep (o := some .nwrite) rfl k _ hk).2 rfl

theorem Inv.step (h : Inv s q) (op : Op) : ∃ q', Inv (step s op) q' := by
  cases op with
  | write i bytes =>
    rw [Streams.step]
    split
    next hc => exact ⟨q, h.start hc.1 (fun _ => hc.2) fun he => by cases he⟩
    next => exact ⟨q, h⟩
  | read i n =>
    rw [Streams.step]
    split
    next hc => exact ⟨q, h.start hc.1 (fun he => by cases he) fun _ => hc.2⟩
    next => exact ⟨q, h⟩
  | run i =>
    rw [Streams.step]
    split
    next => exact ⟨q, h⟩
    next ha =>
      have ha' := Bool.eq_false_iff.2 ha
      split
      next => exact ⟨q, h⟩
      next hc => exact h.writeTurn hc ha'
      next hc => exact h.readTurn hc ha'
  | kill i => exact ⟨q, h.kill i⟩
  | close writable =>
    rw [Streams.step]
    by_cases hc : ∀ i, (s.proc i).call.chan ≠ some (if writable then .nwrite else .nread)
    · rw [if_pos hc]
      exact ⟨q, h.close hc⟩
    · rw [if_neg hc]
      exact ⟨q, h⟩

theorem inv_opened : Inv opened [] := by
  have hno : ∀ i c, ¬ Sleeping opened i c := fun _ _ hs => Bool.false_ne_true hs.1
  refine ⟨Counters.holds_nil _ (by decide), rfl, fun _ _ => rfl, fun _ hi => ?_, fun _ _ => rfl,
    fun _ _ => rfl, fun j hj => absurd hj (hno j _), fun j _ hj => absurd hj (hno j _)⟩
  exact absurd hi Bool.false_ne_true

theorem exists_inv (ops : List Op) : ∃ q, Inv (Machine.run Streams.step opened ops) q :=
  Machine.invariant (P := fun _ _ => True) (I := fun s => ∃ q, Inv s q)
    (fun _ op ⟨_, h⟩ _ => h.step op) ops opened ⟨[], inv_opened⟩
    (Machine.along_of_forall (fun _ _ _ => trivial) _)

/-- No reader sleeps while there are bytes to read, or after the last writer has gone. -/
def Alert (s : Sys) : Prop :=
  ∀ i, Sleeping s i .nread → s.pipe.nread = s.pipe.nwrite ∧ s.pipe.writeopen = true

/-- A killed process with more bytes than fit the pipe gets to run in `pipewrite` while a reader
sleeps: it fills the pipe and returns without a wakeup. -/
def GivesUp (s : Sys) (op : Op) : Prop :=
  ∃ i bytes, op = .run i ∧ (s.proc i).asleep = false ∧ (s.proc i).killed = true ∧
    (s.proc i).call = .write bytes ∧ pipesize < bytes.length ∧ ∃ j, Sleeping s j .nread

theorem sleeping_turn {s' : Sys} {o : Option Chan} {p : Proc} (hproc : s'.proc = s.proc) :
    Sleeping ((s'.wake o).setProc i p) j c ↔
      if j = i then p.asleep = true ∧ p.call.chan = some c else Sleeping s j c ∧ o ≠ some c := by
  rw [sleeping_setProc, sleeping_wake]
  unfold Sleeping
  rw [hproc]

theorem Alert.quiet {s' : Sys} {o : Option Chan} {p : Proc} (hs : Alert s)
    (hproc : s'.proc = s.proc) (hpipe : s'.pipe = s.pipe)
    (hp : p.asleep = true → p.call.chan = some .nread →
      s.pipe.nread = s.pipe.nwrite ∧ s.pipe.writeopen = true) :
    Alert ((s'.wake o).setProc i p) := by
  intro j hj
  have he : ((s'.wake o).setProc i p).pipe = s.pipe := by cases o <;> exact hpipe
  rw [he]
  rw [sleeping_turn hproc] at hj
  split at hj
  · exact hp hj.1 hj.2
  · exact hs j hj.1

theorem Alert.woken {s' : Sys} {p : Proc} (hproc : s'.proc = s.proc)
    (hp : p.call.chan ≠ some .nread) :
    Alert ((s'.wake (some .nread)).setProc i p) := by
  intro j hj
  rw [sleeping_turn hproc] at hj
  split at hj
  · exact absurd hj.2 hp
  · exact absurd rfl hj.2

theorem Inv.writeTurn_alert {bytes : List ℕ} (h : Inv s q) (hs : Alert s)
    (ha : (s.proc i).asleep = false) :
    Alert (Streams.writeTurn i bytes s) ↔
      ¬ ((s.proc i).killed = true ∧ pipesize < bytes.length ∧ ∃ j, Sleeping s j .nread) := by
  obtain ⟨stored, hw⟩ := pipewrite_spec (s.proc i).killed bytes h.holds
  have hbytes := congrArg List.length hw.bytes
  rw [List.length_append] at hbytes
  have hle : (q ++ stored).length ≤ pipesize := hw.holds.le
  rw [List.length_append] at hle
  have hrest : (pipewrite (s.proc i).killed bytes s.pipe).2.rest = [] →
      ¬ pipesize < bytes.length := by
    intro he
    rw [he, List.length_nil] at hbytes
    omega
  unfold Streams.writeTurn
  rcases hr : pipewrite (s.proc i).killed bytes s.pipe with ⟨p, _ | rest | rest⟩
  all_goals
    rw [hr] at hw hrest hbytes
    dsimp only
  case returns =>
    exact iff_of_true (Alert.woken rfl (by simp [Call.chan])) fun hc => hrest rfl hc.2.1
  case sleeps =>
    refine iff_of_true (Alert.woken rfl (by simp [Call.chan])) fun hc => ?_
    have hne : rest ≠ [] := fun he => hrest he hc.2.1
    have := (hw.fails rest).2 ⟨rfl, hne, .inr hc.1⟩
    cases this
  case fails =>
    obtain ⟨-, hne, hclosed⟩ := (hw.fails rest).1 rfl
    have hfull := hw.full hne
    rw [List.length_append] at hfull
    have hpos : 0 < rest.length := List.length_pos_iff.2 hne
    change bytes.length = stored.length + rest.length at hbytes
    have hsleep : ∀ j, Sleeping (Sys.setProc { s with
        pipe := p, sent := s.sent ++ bytes.take (bytes.length - rest.length) } i
        { s.proc i with call := .none }) j .nread ↔ Sleeping s j .nread := by
      intro j
      refine (sleeping_turn (o := none) (s := s) rfl).trans ?_
      split
      next hji => simp [hji, Sleeping, ha]
      next => simp
    constructor
    · rintro hA ⟨-, -, j, hj⟩
      have hnil := hw.holds.empty_iff.1 (hA j ((hsleep j).2 hj)).1
      rw [← List.length_append, hnil] at hfull
      cases hfull
    · intro hno j hj
      have hj' := (hsleep j).1 hj
      have hnil := h.holds.empty_iff.1 (hs j hj').1
      rw [hnil, List.length_nil] at hfull
      have hk : (s.proc i).killed = true := by
        refine hclosed.resolve_left fun hc => ?_
        rw [h.readopen j hj'.2] at hc
        cases hc
      exact absurd ⟨hk, by omega, j, hj'⟩ hno

theorem Inv.readTurn_alert {n : ℕ} (h : Inv s q) (hs : Alert s)
    (ha : (s.proc i).asleep = false) :
    Alert (Streams.readTurn i n s) := by
  have hawake : ¬ (s.proc i).asleep = true := by rw [ha]; exact Bool.false_ne_true
  unfold Streams.readTurn
  rw [piperead_spec _ _ h.holds]
  by_cases he : q = [] ∧ s.pipe.writeopen = true
  · rw [if_pos he]
    by_cases hk : (s.proc i).killed = true
    · rw [if_pos hk]
      exact hs.quiet (o := none) rfl rfl fun hc => absurd hc hawake
    · rw [if_neg hk]
      exact hs.quiet (o := none) rfl rfl fun _ _ => ⟨h.holds.empty_iff.2 he.1, he.2⟩
  · rw [if_neg he]
    intro j hj
    have hj' := (sleeping_turn (o := some .nwrite) (s := s) rfl).1 hj
    split at hj'
    · exact absurd hj'.1 hawake
    · have hj' := hs j hj'.1
      exact absurd ⟨h.holds.empty_iff.1 hj'.1, hj'.2⟩ he

theorem Inv.step_alert (h : Inv s q) (hs : Alert s) (op : Op) :
    Alert (Streams.step s op) ↔ ¬ GivesUp s op := by
  have hother : (∀ i, op ≠ .run i) → ¬ GivesUp s op := by
    rintro hne ⟨i, _, he, -⟩
    exact hne i he
  cases op with
  | write i bytes =>
    refine iff_of_true ?_ (hother fun _ he => by cases he)
    rw [Streams.step]
    split
    next => exact hs.quiet (o := none) rfl rfl fun _ hc => by cases hc
    next => exact hs
  | read i n =>
    refine iff_of_true ?_ (hother fun _ he => by cases he)
    rw [Streams.step]
    split
    next hc =>
      exact hs.quiet (o := none) rfl rfl fun ha => absurd hc.1 (h.busy i ha)
    next => exact hs
  | kill i =>
    refine iff_of_true ?_ (hother fun _ he => by cases he)
    exact hs.quiet (o := none) rfl rfl fun hc => by cases hc
  | close writable =>
    refine iff_of_true ?_ (hother fun _ he => by cases he)
    rw [Streams.step]
    by_cases hc : ∀ i, (s.proc i).call.chan ≠ some (if writable then .nwrite else .nread)
    · rw [if_pos hc]
      cases writable with
      | true => exact fun j hj => absurd rfl ((sleeping_wake (o := some .nread)).1 hj).2
      | false => exact fun j hj => absurd ((sleeping_wake (o := some .nwrite)).1 hj).1.2 (hc j)
    · rw [if_neg hc]
      exact hs
  | run i =>
    have hgives : ∀ bytes, (s.proc i).call = .write bytes → (s.proc i).asleep = false →
        (GivesUp s (.run i) ↔
          (s.proc i).killed = true ∧ pipesize < bytes.length ∧ ∃ j, Sleeping s j .nread) := by
      intro bytes hi ha
      constructor
      · rintro ⟨i', bytes', he, -, hk, hc, hl, hj⟩
        obtain rfl := Op.run.inj he
        obtain rfl := Call.write.inj (hi.symm.trans hc)
        exact ⟨hk, hl, hj⟩
      · rintro ⟨hk, hl, hj⟩
        exact ⟨i, bytes, rfl, ha, hk, hi, hl, hj⟩
    have hnot : (∀ bytes, (s.proc i).call ≠ .write bytes) ∨ (s.proc i).asleep = true →
        ¬ GivesUp s (.run i) := by
      rintro hne ⟨i', bytes, he, ha, -, hc, -⟩
      obtain rfl := Op.run.inj he
      rcases hne with hne | hne
      · exact hne bytes hc
      · rw [ha] at hne
        cases hne
    rw [Streams.step]
    split
    next ha => exact iff_of_true hs (hnot (.inr ha))
    next ha =>
      have ha' := Bool.eq_false_iff.2 ha
      split
      next hc => exact iff_of_true hs (hnot (.inl fun _ he => by rw [hc] at he; cases he))
      next bytes hc => rw [hgives bytes hc ha', h.writeTurn_alert hs ha']
      next n hc =>
        exact iff_of_true (h.readTurn_alert hs ha')
          (hnot (.inl fun _ he => by rw [hc] at he; cases he))

end Invariant

/-- Whatever the processes do, the bytes read so far and those in the pipe are the bytes written
so far, in order. -/
theorem pipe_fifo (ops : List Op) :
    ∃ q, (Machine.run step opened ops).pipe.Holds q ∧
      (Machine.run step opened ops).sent = (Machine.run step opened ops).received ++ q := by
  obtain ⟨q, h⟩ := exists_inv ops
  exact ⟨q, h.holds, h.history⟩

/-- A read of at least one byte returns none if and only if everything that was written has been
read and the last writer has gone. -/
theorem end_of_file_iff (ops : List Op) (killed : Bool) (n : ℕ) :
    (piperead killed (n + 1) (Machine.run step opened ops).pipe).2 = .returns [] ↔
      (Machine.run step opened ops).pipe.writeopen = false ∧
        (Machine.run step opened ops).received = (Machine.run step opened ops).sent := by
  obtain ⟨q, h⟩ := exists_inv ops
  rw [piperead_spec _ _ h.holds, h.history, List.self_eq_append_right]
  by_cases he : q = [] ∧ (Machine.run step opened ops).pipe.writeopen = true
  · rw [if_pos he]
    refine iff_of_false ?_ fun hc => ?_
    · by_cases hk : killed = true
      · rw [if_pos hk]
        exact ReadEnd.noConfusion
      · rw [if_neg hk]
        exact ReadEnd.noConfusion
    · rw [hc.1] at he
      cases he.2
  · rw [if_neg he, ReadEnd.returns.injEq]
    constructor
    · intro ht
      have hq : q = [] := by
        cases q with
        | nil => rfl
        | cons v q => cases ht
      exact ⟨Bool.eq_false_iff.2 fun hw => he ⟨hq, hw⟩, hq⟩
    · rintro ⟨-, rfl⟩
      rfl

/-- A writer sleeps only while the pipe is full and has a reader, and no reader sleeps at the
same time: the two sides never wait for each other. -/
theorem never_both_asleep (ops : List Op) (i : Fin 64)
    (hi : Sleeping (Machine.run step opened ops) i .nwrite) :
    (Machine.run step opened ops).pipe.nwrite =
        ((Machine.run step opened ops).pipe.nread + pipesize) % words ∧
      (Machine.run step opened ops).pipe.readopen = true ∧
      ∀ j, ¬ Sleeping (Machine.run step opened ops) j .nread := by
  obtain ⟨q, h⟩ := exists_inv ops
  obtain ⟨hq, hr⟩ := h.writer i hi
  exact ⟨h.holds.full_iff.2 hq, hr, fun j hj => h.apart j i hj hi⟩

theorem never_both_asleep_full : ¬ ∃ j, Sleeping (Machine.run step opened
    [.write ⟨0, Nat.zero_lt_succ 63⟩ (List.replicate 513 7), .run ⟨0, Nat.zero_lt_succ 63⟩])
    j .nread :=
  not_exists.2 (never_both_asleep _ ⟨0, Nat.zero_lt_succ 63⟩
    ⟨by decide +kernel, by decide +kernel⟩).2.2

/-- No wakeup of a reader is lost in a run if and only if no killed writer gives up in it. -/
theorem alert_iff (ops : List Op) :
    Machine.Along step (fun s op => ¬ GivesUp s op) opened ops ↔
      ∀ pre, pre <+: ops → Alert (Machine.run step opened pre) :=
  Machine.along_iff (J := fun s => ∃ q, Inv s q) (fun _ op ⟨_, h⟩ => h.step op)
    (fun _ op ⟨_, h⟩ hs => h.step_alert hs op) ⟨[], inv_opened⟩
    (fun _ hi => absurd hi.1 Bool.false_ne_true) ops

end Streams
