import Coursework.Cfs.Table
import Coursework.Lib.Machine
import Coursework.Lib.Selection
import Mathlib.Data.List.FinRange

/-! The steps of the CFS project: `fork`, `exit`, `wait`, `sleep`, `wakeup`, `kill`,
`setnice`, the dispatch of `scheduler`, and the timer tick of `trap`. -/
namespace Cfs

/-- A process that goes from `SLEEPING` to `RUNNABLE`: the table just before, the process,
the `vruntime` that it gets, and whether it is the one from before. -/
structure Wake where
  table : Table
  proc : Fin 64
  vruntime : Int32
  kept : Bool

/-- The locals of `wakeup1` during its second pass, and what it has done so far. -/
structure WakeState where
  table : Table
  minVruntime : Int32
  notempty : Bool
  log : List Wake

def setState (t : Table) (p : Fin 64) (s : ProcState) : Table :=
  Function.update t p { t p with state := s }

def setVruntime (t : Table) (p : Fin 64) (v : Int32) : Table :=
  Function.update t p { t p with vruntime := v }

/-- The loop of `wakeup1` for the minimum over the processes in `sel`. -/
def minOver (t : Table) (sel : Fin 64 → Bool) (m : Int32) : Int32 :=
  (List.finRange 64).foldl
    (fun m j => if sel j && decide (t j).Awake && decide (m > (t j).vruntime) then
      (t j).vruntime else m) m

instance instLinearOrderInt32 : LinearOrder Int32 where
  le_refl := Int32.le_refl
  le_trans _ _ _ := Int32.le_trans
  le_antisymm _ _ := Int32.le_antisymm
  le_total := Int32.le_total
  lt_iff_le_not_ge a b := by rw [Int32.not_le]; exact ⟨fun h => ⟨Int32.le_of_lt h, h⟩, And.right⟩
  toDecidableLE := inferInstance
  toDecidableLT := inferInstance

theorem minOver_spec (t : Table) (sel : Fin 64 → Bool) (m : Int32) :
    minOver t sel m ≤ m ∧ (∀ j, sel j = true ∧ (t j).Awake → minOver t sel m ≤ (t j).vruntime) ∧
      (minOver t sel m = m ∨
        ∃ j, (sel j = true ∧ (t j).Awake) ∧ minOver t sel m = (t j).vruntime) := by
  have h := Selection.foldl_least (c := fun j => sel j = true ∧ (t j).Awake)
    (f := fun j => (t j).vruntime)
    (r := fun m j => if sel j && decide (t j).Awake && decide (m > (t j).vruntime) then
      (t j).vruntime else m) (fun m j => by simp [and_assoc]) (List.finRange 64) m
  exact ⟨h.1, fun j hj => h.2.1 j (List.mem_finRange j) hj, h.2.2.imp_right
    fun ⟨j, _, hc, he⟩ => ⟨j, hc, he⟩⟩

/-- The test of `wakeup1` that leaves out the process itself. -/
def otherThan (t : Table) (p j : Fin 64) : Bool := decide ((t p).pid ≠ (t j).pid)

/-- The `vruntime` that `wakeup1` gives to a process. -/
def wakeVruntime (notempty : Bool) (minVruntime : Int32) (priority : Nice) : Int32 :=
  if notempty then
    satAdd Int32.minValue minVruntime (-Int32.ofNat (oneTickVruntime priority))
  else 0

/-- One round of the second pass of `wakeup1`. -/
def wakeRound (chan : Chan) (w : WakeState) (p : Fin 64) : WakeState :=
  if (w.table p).state = .sleeping ∧ (w.table p).chan = some chan then
    let t := setState w.table p .runnable
    let notempty := w.notempty ||
      (List.finRange 64).any fun j => otherThan t p j && decide (t j).Awake
    let minVruntime := minOver t (otherThan t p) w.minVruntime
    let v := wakeVruntime notempty minVruntime (t p).priority
    ⟨setVruntime t p v, minVruntime, notempty, w.log ++ [⟨w.table, p, v, false⟩]⟩
  else w

def wakeup1 (chan : Chan) (t : Table) : WakeState :=
  (List.finRange 64).foldl (wakeRound chan) ⟨t, minOver t (fun _ => true) 0, false, []⟩

/-- The kernel: the table, the pid counter, and a record of all wake-ups. -/
structure State where
  table : Table
  nextpid : Int32
  log : List Wake

def wakeup (chan : Chan) (s : State) : State :=
  let w := wakeup1 chan s.table
  { s with table := w.table, log := s.log ++ w.log }

/-- The first entry with a property. -/
def find (t : Table) (f : Proc → Bool) : Option (Fin 64) :=
  (List.finRange 64).find? fun j => f (t j)

/-- `fork` by the process `r`. If `ok` is false, there is no memory for the child. -/
def fork (r : Fin 64) (ok : Bool) (s : State) : State :=
  match find s.table fun p => p.state == .unused with
  | none => s
  | some j =>
    if ok then
      { s with
        table := Function.update s.table j
          { s.table j with
            state := .runnable, pid := s.nextpid, parent := some r
            priority := (s.table r).priority, vruntime := (s.table r).vruntime }
        nextpid := s.nextpid + 1 }
    else
      { s with
        table := Function.update s.table j
          { s.table j with state := .unused, pid := s.nextpid, priority := ⟨0, zero_nice⟩ }
        nextpid := s.nextpid + 1 }

/-- The round of `exit` that passes a child of `r` on to `initproc`. -/
def orphan (r : Fin 64) (s : State) (j : Fin 64) : State :=
  if (s.table j).parent = some r then
    let s := { s with table := Function.update s.table j { s.table j with parent := some 0 } }
    if (s.table j).state = .zombie then wakeup (.proc 0) s else s
  else s

/-- `exit` by the process `r`, which for `initproc` is a panic. -/
def exit (r : Fin 64) (s : State) : State :=
  if r = 0 then s
  else
    let s := match (s.table r).parent with
      | none => s
      | some q => wakeup (.proc q) s
    let s := (List.finRange 64).foldl (orphan r) s
    { s with table := setState s.table r .zombie }

/-- `wait` by the process `r`, up to the point where it returns or sleeps. -/
def wait (r : Fin 64) (s : State) : State :=
  match find s.table fun p => p.parent == some r && p.state == .zombie with
  | some j =>
    { s with
      table := Function.update s.table j
        { s.table j with state := .unused, pid := 0, parent := none, killed := false } }
  | none =>
    if (find s.table fun p => p.parent == some r) = none ∨ (s.table r).killed then s
    else
      { s with
        table := Function.update s.table r
          { s.table r with state := .sleeping, chan := some (.proc r) } }

/-- `sleep` by the process `r`. -/
def sleep (r : Fin 64) (chan : Chan) (s : State) : State :=
  { s with
    table := Function.update s.table r { s.table r with state := .sleeping, chan := some chan } }

/-- `kill`, which leaves `vruntime` alone. -/
def kill (pid : Int32) (s : State) : State :=
  match find s.table fun p => p.pid == pid with
  | none => s
  | some j =>
    if (s.table j).state = .sleeping then
      { s with
        table := Function.update s.table j { s.table j with killed := true, state := .runnable }
        log := s.log ++ [⟨s.table, j, (s.table j).vruntime, true⟩] }
    else
      { s with table := Function.update s.table j { s.table j with killed := true } }

def setnice (pid : Int32) (nice : ℤ) (s : State) : State :=
  if h : nice < -5 ∨ nice > 5 then s
  else
    match find s.table fun p => p.pid == pid with
    | none => s
    | some j =>
      { s with
        table := Function.update s.table j
          { s.table j with priority := ⟨nice, by omega⟩ } }

/-- `total_weight_of_runnable_process`. -/
def totalWeight (t : Table) : ℕ :=
  (List.finRange 64).foldl
    (fun ret j => if (t j).state = .runnable then ret + nice2weight (t j).priority else ret) 0

/-- The inner loop of `scheduler`: the runnable process of lowest `vruntime`. -/
def lowest (t : Table) (p : Fin 64) : Fin 64 :=
  (List.finRange 64).foldl
    (fun low j => if (t j).state = .runnable ∧ (t low).vruntime > (t j).vruntime then j else low) p

theorem lowest_spec {t : Table} {p : Fin 64} (hp : (t p).state = .runnable) :
    (t (lowest t p)).state = .runnable ∧
      ∀ j, (t j).state = .runnable → (t (lowest t p)).vruntime ≤ (t j).vruntime := by
  obtain ⟨-, hleast, hmem⟩ := Selection.foldl_argmin (c := fun j => (t j).state = .runnable)
    (f := fun j => (t j).vruntime)
    (r := fun low j => if (t j).state = .runnable ∧ (t low).vruntime > (t j).vruntime then j
      else low) (fun _ _ => rfl) (List.finRange 64) p
  rw [← lowest] at hmem
  refine ⟨?_, fun j hj => hleast j (List.mem_finRange j) hj⟩
  obtain he | hc := hmem
  · rw [he]
    exact hp
  · exact hc

/-- The `time_slice` of a weight among a total, in milli-ticks. -/
def timeSlice (weight total : ℕ) : ℕ := (1000 * (10 * weight) + total - 1) / total

/-- The dispatch of `scheduler` when its outer loop is at the runnable process `p`. -/
def dispatch (p : Fin 64) (s : State) : State :=
  let low := lowest s.table p
  let weight := nice2weight (s.table low).priority
  { s with
    table := Function.update s.table low
      { s.table low with
        weight := weight, runtimeInterval := 0
        timeslice := timeSlice weight (totalWeight s.table), state := .running } }

/-- The charge of a timer tick to the running process. -/
def charge (r : Fin 64) (s : State) : State :=
  let delta := deltaVruntime (s.table r).priority
  match chargeLoop r delta 2 s.table with
  | none => s
  | some t =>
    { s with
      table := Function.update t r
        { t r with
          runtimeInterval := (t r).runtimeInterval + 1000
          vruntime := (t r).vruntime + Int32.ofNat delta } }

/-- The check of `trap` that makes a process yield when its time slice is used up. -/
def yieldCheck (r : Fin 64) (s : State) : State :=
  if (s.table r).state = .running ∧ (s.table r).timeslice ≤ (s.table r).runtimeInterval then
    { s with
      table := Function.update s.table r
        { s.table r with runtimeInterval := 0, state := .runnable } }
  else s

/-- The end of `trap`; `user` tells whether the interrupt came from user space. -/
def trapEnd (r : Fin 64) (user : Bool) (s : State) : State :=
  if (s.table r).killed && user then exit r s else yieldCheck r s

/-- A timer interrupt of the first CPU, on which `r` runs if anything does. -/
def tick (r : Option (Fin 64)) (user : Bool) (s : State) : State :=
  match r with
  | none => wakeup .ticks s
  | some r => trapEnd r user (wakeup .ticks (charge r s))

/-- The steps. A process that makes a system call or that a timer interrupts is running. -/
inductive Op where
  | fork (r : Fin 64) (ok : Bool)
  | exit (r : Fin 64)
  | wait (r : Fin 64)
  | sleep (r : Fin 64) (chan : Chan)
  | wakeup (chan : Chan)
  | kill (pid : Int32)
  | setnice (pid : Int32) (nice : ℤ)
  | dispatch (p : Fin 64)
  | tick (r : Option (Fin 64)) (user : Bool)
  | otherTick (r : Fin 64) (user : Bool)

def Running (s : State) (r : Fin 64) : Prop := (s.table r).state = .running

instance (s : State) (r : Fin 64) : Decidable (Running s r) :=
  inferInstanceAs (Decidable (_ = _))

/-- A step; one that cannot happen in the state does nothing. -/
def step (s : State) : Op → State
  | .fork r ok => if Running s r then fork r ok s else s
  | .exit r => if Running s r then exit r s else s
  | .wait r => if Running s r then wait r s else s
  | .sleep r chan => if Running s r then sleep r chan s else s
  | .wakeup chan => wakeup chan s
  | .kill pid => kill pid s
  | .setnice pid nice => setnice pid nice s
  | .dispatch p => if (s.table p).state = .runnable then dispatch p s else s
  | .tick none user => tick none user s
  | .tick (some r) user => if Running s r then tick (some r) user s else s
  | .otherTick r user => if Running s r then trapEnd r user s else s

/-- An entry that was never used. -/
def Proc.zero : Proc :=
  ⟨.unused, 0, none, none, false, ⟨0, zero_nice⟩, 0, 0, 0, 0⟩

/-- The state after `userinit`. -/
def userinit : State where
  table := Function.update (fun _ => Proc.zero) 0 { Proc.zero with state := .runnable, pid := 1 }
  nextpid := 2
  log := []

end Cfs
