import Coursework.Lib.Machine
import Coursework.Lib.Shared
import Mathlib.Data.List.Induction
import Mathlib.Data.List.Perm.Basic

/-! Threads that serve operations under locks. Each lock, unlock, read and write is one step,
and the steps of the threads interleave in any order. -/
namespace Locking
open Shared

/-- What an operation locks, does and unlocks. -/
structure Service (ο lk κ ν ρ : Type*) where
  locks : ο → List lk
  unlocks : ο → List lk
  body : ο → Prog κ ν ρ

/-- What a thread is doing. -/
inductive Control (ο lk κ ν ρ : Type*) where
  | idle
  | locking (o : ο) (todo : List lk)
  | inside (o : ο) (p : Prog κ ν ρ)
  | releasing (todo : List lk)

/-- What a client sees of a thread. -/
inductive Event (τ ο ρ : Type*) where
  | call (t : τ) (o : ο)
  | reply (t : τ) (r : ρ)

/-- The cells, who holds which lock, the threads, and what the clients have seen. -/
structure State (τ ο lk κ ν ρ : Type*) where
  cells : κ → ν
  holder : lk → Option τ
  thread : τ → Control ο lk κ ν ρ
  log : List (Event τ ο ρ)

/-- An operation arrives at a thread, or a thread takes a step. -/
inductive Input (τ ο : Type*) where
  | call (t : τ) (o : ο)
  | move (t : τ)

variable {τ ο lk κ ν ρ : Type*} [DecidableEq τ] [DecidableEq lk] [DecidableEq κ]

/-- The state with another control of one thread. -/
def State.put (s : State τ ο lk κ ν ρ) (t : τ) (c : Control ο lk κ ν ρ) :
    State τ ο lk κ ν ρ :=
  { s with thread := Function.update s.thread t c }

/-- All threads are idle and all locks are free. -/
def init (σ : κ → ν) : State τ ο lk κ ν ρ := ⟨σ, fun _ => none, fun _ => .idle, []⟩

/-- A step; a thread that waits for a lock does nothing. -/
def step (S : Service ο lk κ ν ρ) (s : State τ ο lk κ ν ρ) :
    Input τ ο → State τ ο lk κ ν ρ
  | .call t o =>
    match s.thread t with
    | .idle => { s.put t (.locking o (S.locks o)) with log := s.log ++ [.call t o] }
    | _ => s
  | .move t =>
    match s.thread t with
    | .idle => s
    | .locking o (l :: todo) =>
      if s.holder l = none then
        { s.put t (.locking o todo) with holder := Function.update s.holder l (some t) }
      else s
    | .locking o [] => s.put t (.inside o (S.body o))
    | .inside o (.read x k) => s.put t (.inside o (k (s.cells x)))
    | .inside o (.write x v p) =>
      { s.put t (.inside o p) with cells := Function.update s.cells x v }
    | .inside o (.done r) =>
      { s.put t (.releasing (S.unlocks o)) with log := s.log ++ [.reply t r] }
    | .releasing (l :: todo) =>
      { s.put t (.releasing todo) with holder := Function.update s.holder l none }
    | .releasing [] => s.put t .idle

/-- The thread waits for a lock that is held. -/
def Blocked (s : State τ ο lk κ ν ρ) (t : τ) : Prop :=
  ∃ o l todo, s.thread t = .locking o (l :: todo) ∧ s.holder l ≠ none

/-- Some thread has work to do, and every such thread waits for a lock. -/
def Deadlock (s : State τ ο lk κ ν ρ) : Prop :=
  (∃ t, s.thread t ≠ .idle) ∧ ∀ t, s.thread t ≠ .idle → Blocked s t

/-- The steps that change the state. -/
inductive Moves (S : Service ο lk κ ν ρ) (s : State τ ο lk κ ν ρ) : State τ ο lk κ ν ρ → Prop
  | call (t : τ) (o : ο) (h : s.thread t = .idle) :
    Moves S s { s.put t (.locking o (S.locks o)) with log := s.log ++ [.call t o] }
  | lock (t : τ) (o : ο) (l : lk) (todo : List lk) (h : s.thread t = .locking o (l :: todo))
      (hl : s.holder l = none) :
    Moves S s { s.put t (.locking o todo) with holder := Function.update s.holder l (some t) }
  | enter (t : τ) (o : ο) (h : s.thread t = .locking o []) :
    Moves S s (s.put t (.inside o (S.body o)))
  | read (t : τ) (o : ο) (x : κ) (k : ν → Prog κ ν ρ) (h : s.thread t = .inside o (.read x k)) :
    Moves S s (s.put t (.inside o (k (s.cells x))))
  | write (t : τ) (o : ο) (x : κ) (v : ν) (p : Prog κ ν ρ)
      (h : s.thread t = .inside o (.write x v p)) :
    Moves S s { s.put t (.inside o p) with cells := Function.update s.cells x v }
  | finish (t : τ) (o : ο) (r : ρ) (h : s.thread t = .inside o (.done r)) :
    Moves S s { s.put t (.releasing (S.unlocks o)) with log := s.log ++ [.reply t r] }
  | unlock (t : τ) (l : lk) (todo : List lk) (h : s.thread t = .releasing (l :: todo)) :
    Moves S s { s.put t (.releasing todo) with holder := Function.update s.holder l none }
  | leave (t : τ) (h : s.thread t = .releasing []) : Moves S s (s.put t .idle)

theorem step_moves (S : Service ο lk κ ν ρ) (s : State τ ο lk κ ν ρ) (i : Input τ ο) :
    step S s i = s ∨ Moves S s (step S s i) := by
  cases i with
  | call t o =>
    cases h : s.thread t with
    | idle =>
      simp only [step, h]
      exact .inr (.call t o h)
    | locking | inside | releasing =>
      simp [step, h]
  | move t =>
    cases h : s.thread t with
    | idle =>
      simp [step, h]
    | locking o todo =>
      cases todo with
      | nil =>
        simp only [step, h]
        exact .inr (.enter t o h)
      | cons l todo =>
        simp only [step, h]
        split
        · exact .inr (.lock t o l todo h ‹_›)
        · exact .inl rfl
    | inside o p =>
      cases p with
      | done r =>
        simp only [step, h]
        exact .inr (.finish t o r h)
      | read x k =>
        simp only [step, h]
        exact .inr (.read t o x k h)
      | write x v p =>
        simp only [step, h]
        exact .inr (.write t o x v p h)
    | releasing todo =>
      cases todo with
      | nil =>
        simp only [step, h]
        exact .inr (.leave t h)
      | cons l todo =>
        simp only [step, h]
        exact .inr (.unlock t l todo h)

theorem invariant {S : Service ο lk κ ν ρ} {I : State τ ο lk κ ν ρ → Prop}
    (hI : ∀ s s', I s → Moves S s s' → I s') {s : State τ ο lk κ ν ρ} (h : I s)
    (ops : List (Input τ ο)) : I (Machine.run (step S) s ops) := by
  induction ops generalizing s with
  | nil => exact h
  | cons i ops ih =>
    apply ih
    obtain heq | hm := step_moves S s i
    · rw [heq]
      exact h
    · exact hI s _ h hm

/-- What a step adds to what the clients see. -/
theorem step_log (S : Service ο lk κ ν ρ) (s : State τ ο lk κ ν ρ) (i : Input τ ο) :
    (step S s i).log = s.log ∨
      (∃ t o, i = .call t o ∧ (step S s i).log = s.log ++ [.call t o]) ∨
      ∃ t o r, s.thread t = .inside o (.done r) ∧ (step S s i).log = s.log ++ [.reply t r] := by
  cases i with
  | call t o =>
    cases h : s.thread t with
    | idle =>
      simp only [step, h]
      exact .inr (.inl ⟨t, o, rfl, rfl⟩)
    | locking | inside | releasing =>
      simp [step, h]
  | move t =>
    cases h : s.thread t with
    | idle =>
      simp [step, h]
    | locking o todo =>
      left
      cases todo with
      | nil => simp only [step, h, State.put]
      | cons l todo =>
        simp only [step, h]
        split <;> rfl
    | inside o p =>
      cases p with
      | done r =>
        simp only [step, h]
        exact .inr (.inr ⟨t, o, r, h, rfl⟩)
      | read | write => simp [step, h, State.put]
    | releasing todo =>
      cases todo <;> simp [step, h, State.put]

section Runs
variable {S : Service ο lk κ ν ρ} {σ : κ → ν} {ops : List (Input τ ο)} {t : τ} {o : ο}
  {p : Prog κ ν ρ}

/-- What a body has, and reads and writes hand on, every program inside the locks has. -/
theorem inside_inherits {H : ο → Prog κ ν ρ → Prop} (hbody : ∀ o, H o (S.body o))
    (hread : ∀ o x k a, H o (.read x k) → H o (k a))
    (hwrite : ∀ o x v p, H o (.write x v p) → H o p)
    (h : (Machine.run (step S) (init σ) ops).thread t = .inside o p) : H o p := by
  have hall : ∀ t o p, (Machine.run (step S) (init σ) ops).thread t = .inside o p → H o p := by
    apply invariant (I := fun s => ∀ t o p, s.thread t = .inside o p → H o p)
    · intro s s' hs hm
      have keep : ∀ (t : τ) (c : Control ο lk κ ν ρ), (∀ o p, c = .inside o p → H o p) →
          ∀ t' o p, Function.update s.thread t c t' = .inside o p → H o p := by
        intro t c hc t' o p hp
        obtain rfl | hne := eq_or_ne t' t
        · rw [Function.update_self] at hp
          exact hc o p hp
        · rw [Function.update_of_ne hne] at hp
          exact hs t' o p hp
      cases hm with
      | call t | lock t | finish t | unlock t | leave t =>
        exact keep t _ fun o p hc => by cases hc
      | enter t o h =>
        refine keep t _ ?_
        rintro o' p ⟨⟩
        exact hbody o
      | read t o x k h =>
        refine keep t _ ?_
        rintro o' p ⟨⟩
        exact hread o x k _ (hs t o _ h)
      | write t o x v p h =>
        refine keep t _ ?_
        rintro o' p ⟨⟩
        exact hwrite o x v p (hs t o _ h)
    · exact fun t o p h => by cases h
  exact hall t o p h

theorem inside_ends {P : ο → ρ → Prop} (hbody : ∀ o, (S.body o).Ends (P o))
    (h : (Machine.run (step S) (init σ) ops).thread t = .inside o p) : p.Ends (P o) :=
  inside_inherits (H := fun o p => p.Ends (P o)) hbody (fun _ _ _ a h => h a)
    (fun _ _ _ _ h => h) h

/-- What a thread is at work on was called. -/
theorem inside_called (h : (Machine.run (step S) (init σ) ops).thread t = .inside o p) :
    .call t o ∈ (Machine.run (step S) (init σ) ops).log := by
  have hall : ∀ t o, ((∃ todo, (Machine.run (step S) (init σ) ops).thread t = .locking o todo) ∨
      ∃ p, (Machine.run (step S) (init σ) ops).thread t = .inside o p) →
      .call t o ∈ (Machine.run (step S) (init σ) ops).log := by
    apply invariant (I := fun s => ∀ t o, ((∃ todo, s.thread t = .locking o todo) ∨
      ∃ p, s.thread t = .inside o p) → .call t o ∈ s.log)
    · intro s s' hs hm
      have keep : ∀ (t : τ) (c : Control ο lk κ ν ρ) (log : List (Event τ ο ρ)),
          (∀ o, ((∃ todo, c = .locking o todo) ∨ ∃ p, c = .inside o p) → .call t o ∈ log) →
          s.log ⊆ log → ∀ t' o, ((∃ todo, Function.update s.thread t c t' = .locking o todo) ∨
            ∃ p, Function.update s.thread t c t' = .inside o p) → .call t' o ∈ log := by
        intro t c log hc hsub t' o h
        obtain rfl | hne := eq_or_ne t' t
        · simp only [Function.update_self] at h
          exact hc o h
        · simp only [Function.update_of_ne hne] at h
          exact hsub (hs t' o h)
      cases hm with
      | call t o h =>
        refine keep t _ _ ?_ (List.subset_append_left ..)
        rintro o' (⟨todo, ⟨⟩⟩ | ⟨p, ⟨⟩⟩)
        exact List.mem_append_right _ List.mem_cons_self
      | lock t o l todo h =>
        refine keep t _ _ ?_ (List.Subset.refl _)
        rintro o' (⟨todo, ⟨⟩⟩ | ⟨p, ⟨⟩⟩)
        exact hs t o (.inl ⟨_, h⟩)
      | enter t o h =>
        refine keep t _ _ ?_ (List.Subset.refl _)
        rintro o' (⟨todo, ⟨⟩⟩ | ⟨p, ⟨⟩⟩)
        exact hs t o (.inl ⟨_, h⟩)
      | read t o x k h =>
        refine keep t _ _ ?_ (List.Subset.refl _)
        rintro o' (⟨todo, ⟨⟩⟩ | ⟨p, ⟨⟩⟩)
        exact hs t o (.inr ⟨_, h⟩)
      | write t o x v p h =>
        refine keep t _ _ ?_ (List.Subset.refl _)
        rintro o' (⟨todo, ⟨⟩⟩ | ⟨p, ⟨⟩⟩)
        exact hs t o (.inr ⟨_, h⟩)
      | finish t o r h =>
        refine keep t _ _ ?_ (List.subset_append_left ..)
        rintro o' (⟨todo, ⟨⟩⟩ | ⟨p, ⟨⟩⟩)
      | unlock t | leave t =>
        refine keep t _ _ ?_ (List.Subset.refl _)
        rintro o' (⟨todo, ⟨⟩⟩ | ⟨p, ⟨⟩⟩)
    · rintro t o (⟨todo, ⟨⟩⟩ | ⟨p, ⟨⟩⟩)
  exact hall t o (.inr ⟨p, h⟩)

theorem log_called (h : .call t o ∈ (Machine.run (step S) (init σ) ops).log) :
    .call t o ∈ ops := by
  induction ops using List.reverseRecOn with
  | nil => cases h
  | append_singleton ops i ih =>
    rw [Machine.run_append] at h
    obtain hlog | ⟨t', o', rfl, hlog⟩ | ⟨t', o', r, -, hlog⟩ :=
      step_log S (Machine.run (step S) (init σ) ops) i
    · exact List.mem_append_left _ (ih (hlog ▸ h))
    · have h' : .call t o ∈ (Machine.run (step S) (init σ) ops).log ++ [.call t' o'] := hlog ▸ h
      obtain h' | h' := List.mem_append.1 h'
      · exact List.mem_append_left _ (ih h')
      · obtain ⟨rfl, rfl⟩ := Event.call.inj (List.mem_singleton.1 h')
        exact List.mem_append_right _ List.mem_cons_self
    · have h' : .call t o ∈ (Machine.run (step S) (init σ) ops).log ++ [.reply t' r] := hlog ▸ h
      obtain h' | h' := List.mem_append.1 h'
      · exact List.mem_append_left _ (ih h')
      · cases List.mem_singleton.1 h'

/-- A cell that no operation called so far owns keeps its value. -/
theorem cells_kept {own : ο → κ → Prop} {view : ο → κ → ν → ν → Prop} {x : κ}
    (hbody : ∀ o, (S.body o).Within (own o) (view o))
    (hown : ∀ t o, .call t o ∈ ops → ¬own o x) :
    (Machine.run (step S) (init σ) ops).cells x = σ x := by
  induction ops using List.reverseRecOn with
  | nil => rfl
  | append_singleton ops i ih =>
    have hprev := ih fun t o h => hown t o (List.mem_append_left _ h)
    rw [Machine.run_append]
    change (step S (Machine.run (step S) (init σ) ops) i).cells x = σ x
    obtain heq | hm := step_moves S (Machine.run (step S) (init σ) ops) i
    · rw [heq]
      exact hprev
    generalize step S (Machine.run (step S) (init σ) ops) i = s' at hm
    cases hm with
    | write t o y v p h =>
      have hwithin : (Prog.write y v p).Within (own o) (view o) :=
        inside_inherits (H := fun o p => p.Within (own o) (view o)) hbody
          (fun _ _ _ a h => h.2 a) (fun _ _ _ _ h => h.2) h
      have hne : x ≠ y := by
        rintro rfl
        exact hown t o (List.mem_append_left _ (log_called (inside_called h))) hwithin.1
      exact (Function.update_of_ne hne ..).trans hprev
    | call | lock | enter | read | finish | unlock | leave => exact hprev

end Runs

section Alone
variable (S : Service ο lk κ ν ρ) {s : State τ ο lk κ ν ρ} {t : τ} {o : ο}

/-- A thread takes its locks if they are free. -/
theorem locks_alone {todo : List lk} (h : s.thread t = .locking o todo) (hnodup : todo.Nodup)
    (hfree : ∀ l ∈ todo, s.holder l = none) :
    ∃ n, let s' := Machine.run (step S) s (List.replicate n (.move t))
      s'.thread t = .locking o [] ∧ s'.cells = s.cells ∧
        ∀ l ∉ todo, s'.holder l = s.holder l := by
  induction todo generalizing s with
  | nil => exact ⟨0, h, rfl, fun _ _ => rfl⟩
  | cons l todo ih =>
    obtain ⟨hl, hrest⟩ := List.nodup_cons.1 hnodup
    have hstep : step S s (.move t) =
        { s.put t (.locking o todo) with holder := Function.update s.holder l (some t) } := by
      simp only [step, h]
      exact if_pos (hfree l List.mem_cons_self)
    obtain ⟨n, hthread, hcells, hholder⟩ := @ih (step S s (.move t))
      (by rw [hstep]; exact Function.update_self ..) hrest fun l' hl' => by
        rw [hstep]
        refine (Function.update_of_ne ?_ ..).trans (hfree l' (List.mem_cons_of_mem _ hl'))
        exact fun he => hl (he ▸ hl')
    refine ⟨n + 1, hthread, hcells.trans (by rw [hstep]; rfl), fun l' hl' => ?_⟩
    rw [List.mem_cons, not_or] at hl'
    refine (hholder l' hl'.2).trans ?_
    rw [hstep]
    exact Function.update_of_ne hl'.1 ..

/-- A thread inside its locks executes its program. -/
theorem inside_alone {p : Prog κ ν ρ} (h : s.thread t = .inside o p) :
    ∃ n, let s' := Machine.run (step S) s (List.replicate n (.move t))
      s'.thread t = .inside o (.done (p.eval s.cells).2) ∧
        s'.cells = (p.eval s.cells).1 ∧ s'.holder = s.holder := by
  induction p generalizing s with
  | done r => exact ⟨0, h, rfl, rfl⟩
  | read x k ih =>
    have hstep : step S s (.move t) = s.put t (.inside o (k (s.cells x))) := by
      simp only [step, h]
    obtain ⟨n, hn⟩ := @ih (s.cells x) (step S s (.move t))
      (by rw [hstep]; exact Function.update_self ..)
    rw [hstep] at hn
    refine ⟨n + 1, ?_⟩
    rw [List.replicate_succ, Machine.run_cons, hstep]
    exact hn
  | write x v p ih =>
    have hstep : step S s (.move t) =
        { s.put t (.inside o p) with cells := Function.update s.cells x v } := by
      simp only [step, h]
    obtain ⟨n, hn⟩ := @ih (step S s (.move t)) (by rw [hstep]; exact Function.update_self ..)
    rw [hstep] at hn
    refine ⟨n + 1, ?_⟩
    rw [List.replicate_succ, Machine.run_cons, hstep]
    exact hn

/-- A thread gives its locks back. -/
theorem unlocks_alone {todo : List lk} (h : s.thread t = .releasing todo) :
    ∃ n, let s' := Machine.run (step S) s (List.replicate n (.move t))
      s'.thread t = .idle ∧ s'.cells = s.cells ∧
        ∀ l, s'.holder l = if l ∈ todo then none else s.holder l := by
  induction todo generalizing s with
  | nil =>
    have hstep : step S s (.move t) = s.put t .idle := by simp only [step, h]
    refine ⟨1, ?_⟩
    rw [List.replicate_one, Machine.run_cons, Machine.run_nil, hstep]
    exact ⟨Function.update_self .., rfl, fun l => (if_neg List.not_mem_nil).symm⟩
  | cons l todo ih =>
    have hstep : step S s (.move t) =
        { s.put t (.releasing todo) with holder := Function.update s.holder l none } := by
      simp only [step, h]
    obtain ⟨n, hthread, hcells, hholder⟩ := @ih (step S s (.move t))
      (by rw [hstep]; exact Function.update_self ..)
    rw [hstep] at hthread hcells hholder
    refine ⟨n + 1, ?_⟩
    rw [List.replicate_succ, Machine.run_cons, hstep]
    refine ⟨hthread, hcells, fun l' => (hholder l').trans ?_⟩
    obtain rfl | hne := eq_or_ne l' l
    · simp
    · simp [hne]

variable {S}

/-- A thread that calls an operation while all locks are free comes to its reply, which is that
of the operation alone. -/
theorem served_alone (hnodup : (S.locks o).Nodup) (h : s.thread t = .idle)
    (hfree : ∀ l, s.holder l = none) :
    ∃ n, let s' := Machine.run (step S) s (.call t o :: List.replicate n (.move t))
      s'.thread t = .inside o (.done ((S.body o).eval s.cells).2) ∧
        s'.cells = ((S.body o).eval s.cells).1 ∧ ∀ l ∉ S.locks o, s'.holder l = none := by
  have hcall : (step S s (.call t o)).thread t = .locking o (S.locks o) ∧
      (step S s (.call t o)).cells = s.cells ∧ (step S s (.call t o)).holder = s.holder := by
    simp only [step, h]
    exact ⟨Function.update_self .., rfl, rfl⟩
  generalize hs₁ : step S s (.call t o) = s₁ at hcall
  obtain ⟨hthread₁, hcells₁, hholder₁⟩ := hcall
  obtain ⟨n₁, hthread₂, hcells₂, hholder₂⟩ := locks_alone S hthread₁ hnodup fun l _ => by
    rw [hholder₁]
    exact hfree l
  generalize hs₂ : Machine.run (step S) s₁ (List.replicate n₁ (.move t)) = s₂
    at hthread₂ hcells₂ hholder₂
  have henter : step S s₂ (.move t) = s₂.put t (.inside o (S.body o)) := by
    simp only [step, hthread₂]
  obtain ⟨n₂, hthread₃, hcells₃, hholder₃⟩ := inside_alone S (s := step S s₂ (.move t)) (o := o)
    (by rw [henter]; exact Function.update_self ..)
  have hcells : (step S s₂ (.move t)).cells = s.cells := by
    rw [henter]
    exact hcells₂.trans hcells₁
  rw [hcells] at hthread₃ hcells₃
  refine ⟨n₁ + (n₂ + 1), ?_⟩
  rw [Machine.run_cons, hs₁, List.replicate_add, Machine.run_append, hs₂, List.replicate_succ,
    Machine.run_cons]
  refine ⟨hthread₃, hcells₃, fun l hl => ?_⟩
  rw [hholder₃, henter]
  exact (hholder₂ l hl).trans ((congrFun hholder₁ l).trans (hfree l))

theorem finished_alone {r : ρ} (hlocks : ∀ l ∈ S.locks o, l ∈ S.unlocks o)
    (h : s.thread t = .inside o (.done r)) (hfree : ∀ l ∉ S.locks o, s.holder l = none) :
    ∃ n, let s' := Machine.run (step S) s (List.replicate n (.move t))
      s'.thread t = .idle ∧ s'.cells = s.cells ∧ ∀ l, s'.holder l = none := by
  have hstep : step S s (.move t) =
      { s.put t (.releasing (S.unlocks o)) with log := s.log ++ [.reply t r] } := by
    simp only [step, h]
  obtain ⟨n, hthread, hcells, hholder⟩ := unlocks_alone S (s := step S s (.move t))
    (t := t) (by rw [hstep]; exact Function.update_self ..)
  rw [hstep] at hthread hcells hholder
  refine ⟨n + 1, ?_⟩
  rw [List.replicate_succ, Machine.run_cons, hstep]
  refine ⟨hthread, hcells, fun l => ?_⟩
  by_cases hl : l ∈ S.unlocks o
  · rw [hholder, if_pos hl]
  · rw [hholder, if_neg hl]
    exact hfree l fun hm => hl (hlocks l hm)

end Alone

section Held
variable (S : Service ο lk κ ν ρ)

/-- The locks that a thread holds. -/
def Control.Holds : Control ο lk κ ν ρ → lk → Prop
  | .idle, _ => False
  | .locking o todo, l => l ∈ S.locks o ∧ l ∉ todo
  | .inside o _, l => l ∈ S.locks o
  | .releasing todo, l => l ∈ todo

/-- The table of holders agrees with what the threads are doing. -/
structure Held (s : State τ ο lk κ ν ρ) : Prop where
  holder : ∀ l t, s.holder l = some t ↔ (s.thread t).Holds S l
  waiting : ∀ t o todo, s.thread t = .locking o todo → todo <:+ S.locks o
  leaving : ∀ t todo, s.thread t = .releasing todo → todo.Nodup

variable {S} {s : State τ ο lk κ ν ρ}

omit [DecidableEq τ] [DecidableEq lk] [DecidableEq κ] in
theorem init_held (σ : κ → ν) : Held S (init σ : State τ ο lk κ ν ρ) := by
  refine ⟨fun l t => ?_, nofun, nofun⟩
  simp [init, Control.Holds]

omit [DecidableEq τ] [DecidableEq lk] [DecidableEq κ] in
theorem Held.unique (hs : Held S s) {t t' : τ} {l : lk} (h : (s.thread t).Holds S l)
    (h' : (s.thread t').Holds S l) : t = t' := by
  have := ((hs.holder l t).2 h).symm.trans ((hs.holder l t').2 h')
  exact Option.some.inj this

omit [DecidableEq lk] [DecidableEq κ] in
/-- A step of one thread that changes the holders of its own locks only. -/
theorem Held.put (hs : Held S s) (t : τ) (c : Control ο lk κ ν ρ) (holder : lk → Option τ)
    (hown : ∀ l, holder l = some t ↔ c.Holds S l)
    (hother : ∀ l t', t' ≠ t → (holder l = some t' ↔ s.holder l = some t'))
    (hwait : ∀ o todo, c = .locking o todo → todo <:+ S.locks o)
    (hleave : ∀ todo, c = .releasing todo → todo.Nodup) (cells : κ → ν)
    (log : List (Event τ ο ρ)) :
    Held S ⟨cells, holder, Function.update s.thread t c, log⟩ := by
  constructor
  · intro l t'
    dsimp only
    obtain rfl | hne := eq_or_ne t' t
    · rw [Function.update_self]
      exact hown l
    · rw [Function.update_of_ne hne]
      exact (hother l t' hne).trans (hs.holder l t')
  · intro t' o todo h
    dsimp only at h
    obtain rfl | hne := eq_or_ne t' t
    · rw [Function.update_self] at h
      exact hwait o todo h
    · rw [Function.update_of_ne hne] at h
      exact hs.waiting t' o todo h
  · intro t' todo h
    dsimp only at h
    obtain rfl | hne := eq_or_ne t' t
    · rw [Function.update_self] at h
      exact hleave todo h
    · rw [Function.update_of_ne hne] at h
      exact hs.leaving t' todo h

omit [DecidableEq lk] [DecidableEq κ] in
theorem Held.keep (hs : Held S s) (t : τ) (c : Control ο lk κ ν ρ)
    (hown : ∀ l, (s.thread t).Holds S l ↔ c.Holds S l)
    (hwait : ∀ o todo, c = .locking o todo → todo <:+ S.locks o)
    (hleave : ∀ todo, c = .releasing todo → todo.Nodup) (cells : κ → ν)
    (log : List (Event τ ο ρ)) :
    Held S ⟨cells, s.holder, Function.update s.thread t c, log⟩ :=
  hs.put t c s.holder (fun l => (hs.holder l t).trans (hown l)) (fun _ _ _ => Iff.rfl) hwait
    hleave cells log

theorem Held.moves (hnodup : ∀ o, (S.locks o).Nodup)
    (hperm : ∀ o, (S.unlocks o).Perm (S.locks o)) {s' : State τ ο lk κ ν ρ} (hs : Held S s)
    (hm : Moves S s s') : Held S s' := by
  cases hm with
  | call t o h =>
    apply hs.keep t
    · intro l
      simp [h, Control.Holds]
    · rintro o' todo ⟨⟩
      exact List.suffix_rfl
    · nofun
  | lock t o l todo h hl =>
    have hsuf := hs.waiting t o _ h
    have hnot : l ∉ todo := (List.nodup_cons.1 ((hnodup o).sublist hsuf.sublist)).1
    apply hs.put t
    · intro l'
      obtain rfl | hne := eq_or_ne l' l
      · simpa [Control.Holds, hnot] using hsuf.subset List.mem_cons_self
      · rw [Function.update_of_ne hne, hs.holder, h]
        simp [Control.Holds, hne]
    · intro l' t' ht
      obtain rfl | hne := eq_or_ne l' l
      · simp [hl, ht.symm]
      · rw [Function.update_of_ne hne]
    · rintro o' todo' ⟨⟩
      exact (List.suffix_cons l todo).trans hsuf
    · nofun
  | enter t o h =>
    apply hs.keep t
    · intro l
      simp [h, Control.Holds]
    · nofun
    · nofun
  | read t o x k h =>
    apply hs.keep t
    · intro l
      simp [h, Control.Holds]
    · nofun
    · nofun
  | write t o x v p h =>
    apply hs.keep t
    · intro l
      simp [h, Control.Holds]
    · nofun
    · nofun
  | finish t o r h =>
    apply hs.keep t
    · intro l
      rw [h]
      exact (hperm o).mem_iff.symm
    · nofun
    · rintro todo ⟨⟩
      exact (hperm o).nodup_iff.2 (hnodup o)
  | unlock t l todo h =>
    have hnd := List.nodup_cons.1 (hs.leaving t _ h)
    have hmine : s.holder l = some t := (hs.holder l t).2 (h ▸ List.mem_cons_self)
    apply hs.put t
    · intro l'
      obtain rfl | hne := eq_or_ne l' l
      · simp [Control.Holds, hnd.1]
      · rw [Function.update_of_ne hne, hs.holder, h]
        simp [Control.Holds, hne]
    · intro l' t' ht
      obtain rfl | hne := eq_or_ne l' l
      · simp [hmine, ht.symm]
      · rw [Function.update_of_ne hne]
    · nofun
    · rintro todo' ⟨⟩
      exact hnd.2
  | leave t h =>
    apply hs.keep t
    · intro l
      simp [h, Control.Holds]
    · nofun
    · nofun

omit [DecidableEq τ] [DecidableEq lk] [DecidableEq κ] in
/-- Locks that every operation takes in the order of their ranks cannot deadlock. -/
theorem Held.not_deadlock {rank : lk → ℕ} {n : ℕ} (hrank : ∀ l, rank l ≤ n)
    (hsorted : ∀ o, (S.locks o).Pairwise fun l l' => rank l < rank l') (hs : Held S s) :
    ¬Deadlock s := by
  rintro ⟨⟨t, ht⟩, hall⟩
  -- A thread that waits for a lock sees its holder wait for a lock of higher rank.
  have climb : ∀ d t o l todo, s.thread t = .locking o (l :: todo) → s.holder l ≠ none →
      n + 1 - rank l ≤ d → False := by
    intro d
    induction d with
    | zero =>
      intro t o l todo _ _ hd
      have := hrank l
      omega
    | succ d ih =>
      intro t o l todo _ hl hd
      obtain ⟨t', ht'⟩ := Option.ne_none_iff_exists'.1 hl
      have hholds := (hs.holder l t').1 ht'
      have hbusy : s.thread t' ≠ .idle := by
        intro hidle
        rw [hidle] at hholds
        exact hholds
      obtain ⟨o', l', todo', hth, hheld⟩ := hall t' hbusy
      rw [hth] at hholds
      obtain ⟨before, hsplit⟩ := hs.waiting t' o' _ hth
      have hmem : l ∈ before := by
        have hin := hholds.1
        rw [← hsplit] at hin
        exact (List.mem_append.1 hin).resolve_right hholds.2
      have hless : rank l < rank l' := by
        have hpw := hsorted o'
        rw [← hsplit] at hpw
        exact (List.pairwise_append.1 hpw).2.2 l hmem l' List.mem_cons_self
      exact ih t' o' l' todo' hth hheld (by omega)
  obtain ⟨o, l, todo, hth, hl⟩ := hall t ht
  exact climb _ t o l todo hth hl (Nat.le_refl _)

end Held

end Locking
