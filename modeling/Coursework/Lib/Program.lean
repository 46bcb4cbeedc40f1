import Mathlib.Data.List.Basic

/-! Programs that change a state, emit events and may stop with an error: what a program
ensures if every event that it emits is admitted, and the runs of a system of programs. -/

/-- What a program did: the events it emitted, oldest first, and how it ended. -/
structure Outcome (ω ε σ α : Type) where
  events : List ω
  result : EStateM.Result ε σ α

/-- A program over the states `σ`, with events `ω` and errors `ε`. -/
def Program (ω ε σ α : Type) := σ → Outcome ω ε σ α

namespace Program

variable {ω ε σ α β ι κ : Type}

instance : Monad (Program ω ε σ) where
  pure a := fun s => ⟨[], .ok a s⟩
  bind m f := fun s =>
    match m s with
    | ⟨ws, .ok a s'⟩ =>
      match f a s' with
      | ⟨ws', r⟩ => ⟨ws ++ ws', r⟩
    | ⟨ws, .error e s'⟩ => ⟨ws, .error e s'⟩

/-- The current state. -/
def read : Program ω ε σ σ := fun s => ⟨[], .ok s s⟩

/-- Replace the state. -/
def change (f : σ → σ) : Program ω ε σ Unit := fun s => ⟨[], .ok () (f s)⟩

/-- Emit an event. -/
def emit (w : ω) : Program ω ε σ Unit := fun s => ⟨[w], .ok () s⟩

/-- Stop with an error. -/
def stop (e : ε) : Program ω ε σ α := fun s => ⟨[], .error e s⟩

theorem bind_ok {m : Program ω ε σ α} {f : α → Program ω ε σ β} {s s' : σ} {a : α}
    {ws : List ω} (h : m s = ⟨ws, .ok a s'⟩) :
    (m >>= f) s = ⟨ws ++ (f a s').events, (f a s').result⟩ := by
  change (match m s with
    | ⟨ws, .ok a s'⟩ => match f a s' with | ⟨ws', r⟩ => ⟨ws ++ ws', r⟩
    | ⟨ws, .error e s'⟩ => ⟨ws, .error e s'⟩ : Outcome ω ε σ β) = _
  rw [h]

theorem bind_error {m : Program ω ε σ α} {f : α → Program ω ε σ β} {s s' : σ} {e : ε}
    {ws : List ω} (h : m s = ⟨ws, .error e s'⟩) : (m >>= f) s = ⟨ws, .error e s'⟩ := by
  change (match m s with
    | ⟨ws, .ok a s'⟩ => match f a s' with | ⟨ws', r⟩ => ⟨ws ++ ws', r⟩
    | ⟨ws, .error e s'⟩ => ⟨ws, .error e s'⟩ : Outcome ω ε σ β) = _
  rw [h]

theorem read_bind_apply {f : σ → Program ω ε σ α} {s : σ} : (read >>= f) s = f s s := rfl

theorem change_bind_apply {g : σ → σ} {f : Unit → Program ω ε σ α} {s : σ} :
    (change g >>= f) s = f () (g s) := rfl

/-- If `A` holds of all events that `m` emits from `s`, so does `G`, and `m` ends with a
value as in `Q` or with an error as in `E`. -/
def Ensures (A G : ω → Prop) (m : Program ω ε σ α) (s : σ) (Q : α → σ → Prop)
    (E : ε → σ → Prop) : Prop :=
  (∀ w ∈ (m s).events, A w) → (∀ w ∈ (m s).events, G w) ∧
    match (m s).result with
    | .ok a s' => Q a s'
    | .error e s' => E e s'

section Rules

variable {A G : ω → Prop} {s : σ} {Q Q' : α → σ → Prop} {E E' : ε → σ → Prop}

theorem Ensures.pure {a : α} (h : Q a s) :
    Ensures A G (Pure.pure a : Program ω ε σ α) s Q E :=
  fun _ => ⟨fun _ hw => absurd hw List.not_mem_nil, h⟩

theorem Ensures.read {Q : σ → σ → Prop} (h : Q s s) :
    Ensures A G (read : Program ω ε σ σ) s Q E :=
  fun _ => ⟨fun _ hw => absurd hw List.not_mem_nil, h⟩

theorem Ensures.change {f : σ → σ} {Q : Unit → σ → Prop} (h : Q () (f s)) :
    Ensures A G (change f : Program ω ε σ Unit) s Q E :=
  fun _ => ⟨fun _ hw => absurd hw List.not_mem_nil, h⟩

theorem Ensures.stop {e : ε} (h : E e s) : Ensures A G (stop e : Program ω ε σ α) s Q E :=
  fun _ => ⟨fun _ hw => absurd hw List.not_mem_nil, h⟩

theorem Ensures.emit {w : ω} {Q : Unit → σ → Prop} (h : A w → G w ∧ Q () s) :
    Ensures A G (emit w : Program ω ε σ Unit) s Q E := by
  intro hA
  obtain ⟨hG, hQ⟩ := h (hA w (List.mem_singleton_self w))
  refine ⟨fun w' hw => ?_, hQ⟩
  rw [List.mem_singleton.1 hw]
  exact hG

theorem Ensures.mono {m : Program ω ε σ α} (h : Ensures A G m s Q E)
    (hQ : ∀ a s', Q a s' → Q' a s') (hE : ∀ e s', E e s' → E' e s') :
    Ensures A G m s Q' E' := by
  intro hA
  have hm := h hA
  revert hm
  cases (m s).result with
  | ok a s' => exact fun hm => ⟨hm.1, hQ a s' hm.2⟩
  | error e s' => exact fun hm => ⟨hm.1, hE e s' hm.2⟩

theorem Ensures.mono_events {G' : ω → Prop} {m : Program ω ε σ α} (h : Ensures A G m s Q E)
    (hG : ∀ w, G w → G' w) : Ensures A G' m s Q E :=
  fun hA => ⟨fun w hw => hG w ((h hA).1 w hw), (h hA).2⟩

theorem Ensures.bind {m : Program ω ε σ α} {f : α → Program ω ε σ β} {R : β → σ → Prop}
    (h : Ensures A G m s Q E) (hf : ∀ a s', Q a s' → Ensures A G (f a) s' R E) :
    Ensures A G (m >>= f) s R E := by
  unfold Ensures at h ⊢
  rcases hm : m s with ⟨ws, r⟩
  rw [hm] at h
  cases r with
  | ok a s' =>
    rw [bind_ok hm]
    intro hA
    have hm' := h fun w hw => hA w (List.mem_append_left _ hw)
    have hf' := hf a s' hm'.2 fun w hw => hA w (List.mem_append_right _ hw)
    exact ⟨fun w hw => (List.mem_append.1 hw).elim (hm'.1 w) (hf'.1 w), hf'.2⟩
  | error e s' =>
    rw [bind_error hm]
    exact h

theorem Ensures.read_bind {f : σ → Program ω ε σ α} (h : Ensures A G (f s) s Q E) :
    Ensures A G (Program.read >>= f) s Q E := by
  apply Ensures.bind (Ensures.read (Q := fun a s' => a = s ∧ s' = s) ⟨rfl, rfl⟩)
  rintro _ _ ⟨rfl, rfl⟩
  exact h

theorem Ensures.change_bind {g : σ → σ} {f : Unit → Program ω ε σ α}
    (h : Ensures A G (f ()) (g s) Q E) : Ensures A G (Program.change g >>= f) s Q E := by
  apply Ensures.bind (Ensures.change (Q := fun _ s' => s' = g s) rfl)
  rintro _ _ rfl
  exact h

theorem Ensures.forM {f : ι → Program ω ε σ PUnit} {I : List ι → σ → Prop}
    (hstep : ∀ x xs s, I (x :: xs) s → Ensures A G (f x) s (fun _ => I xs) E) (xs : List ι) :
    ∀ {s}, I xs s → Ensures A G (xs.forM f) s (fun _ => I []) E := by
  induction xs with
  | nil => exact fun h => Ensures.pure h
  | cons x xs ih => exact fun h => Ensures.bind (hstep x xs _ h) fun _ _ h' => ih h'

theorem Ensures.returns {m : Program ω ε σ α}
    (h : Ensures (fun _ => True) G m s Q fun _ _ => False) :
    ∃ a s', (m s).result = .ok a s' ∧ Q a s' := by
  have hm := (h fun _ _ => trivial).2
  revert hm
  cases (m s).result with
  | ok a s' => exact fun hm => ⟨a, s', rfl, hm⟩
  | error e s' => exact fun hm => hm.elim

theorem Ensures.of_ok {m : Program ω ε σ α} {a : α} {s' : σ}
    (h : Ensures (fun _ => True) G m s Q E) (hr : (m s).result = .ok a s') : Q a s' := by
  have hm := (h fun _ _ => trivial).2
  rwa [hr] at hm

theorem Ensures.of_result {m : Program ω ε σ α} {a : α} {s' : σ}
    (h : (m s).result = .ok a s') (hQ : Q a s') : Ensures A (fun _ => True) m s Q E := by
  intro _
  rw [h]
  exact ⟨fun _ _ => trivial, hQ⟩

end Rules

section Keeping
variable {P : σ → Prop}

/-- Replace the state and emit the new one. -/
def assign (f : σ → σ) : Program σ ε σ Unit := do
  change f
  let s ← read
  emit s

/-- `P` holds of the states that `m` emits and in which it ends, if it holds before. -/
def Keeps (P : σ → Prop) (m : Program σ ε σ α) : Prop :=
  ∀ s, P s → Ensures (fun _ => True) P m s (fun _ => P) fun _ => P

theorem Keeps.pure {a : α} : Keeps P (Pure.pure a : Program σ ε σ α) :=
  fun _ h => Ensures.pure h

theorem Keeps.stop {e : ε} : Keeps P (Program.stop e : Program σ ε σ α) :=
  fun _ h => Ensures.stop h

theorem Keeps.read : Keeps P (Program.read : Program σ ε σ σ) := fun _ h => Ensures.read h

theorem Keeps.change {f : σ → σ} (h : ∀ s, P s → P (f s)) :
    Keeps P (Program.change f : Program σ ε σ Unit) := fun s hs => Ensures.change (h s hs)

theorem Ensures.assign {f : σ → σ} {s : σ} (h : P (f s)) :
    Ensures (fun _ => True) P (assign f : Program σ ε σ Unit) s (fun _ => P) fun _ => P := by
  apply Ensures.change_bind
  apply Ensures.read_bind
  exact Ensures.emit fun _ => ⟨h, h⟩

theorem Ensures.assign_of {G : σ → Prop} {f : σ → σ} {s : σ} {Q : Unit → σ → Prop}
    {E : ε → σ → Prop} (hG : G (f s)) (hQ : Q () (f s)) :
    Ensures (fun _ => True) G (Program.assign f) s Q E := by
  apply Ensures.change_bind
  apply Ensures.read_bind
  exact Ensures.emit fun _ => ⟨hG, hQ⟩

theorem Keeps.assign {f : σ → σ} (h : ∀ s, P s → P (f s)) :
    Keeps P (assign f : Program σ ε σ Unit) := fun s hs => Ensures.assign (h s hs)

theorem Keeps.bind {m : Program σ ε σ α} {f : α → Program σ ε σ β} (h : Keeps P m)
    (hf : ∀ a, Keeps P (f a)) : Keeps P (m >>= f) :=
  fun s hs => Ensures.bind (h s hs) fun a s' hs' => hf a s' hs'

theorem Keeps.ite {c : Prop} [Decidable c] {m m' : Program σ ε σ α} (h : Keeps P m)
    (h' : Keeps P m') : Keeps P (if c then m else m') := by
  by_cases hc : c
  · rwa [if_pos hc]
  · rwa [if_neg hc]

theorem Keeps.forM {f : ι → Program σ ε σ PUnit} (h : ∀ x, Keeps P (f x)) (xs : List ι) :
    Keeps P (xs.forM f) := fun _ hs => Ensures.forM (I := fun _ => P) (fun x _ s => h x s) xs hs

theorem assign_apply (f : σ → σ) (s : σ) :
    (assign f : Program σ ε σ Unit) s = ⟨[f s], .ok () (f s)⟩ := rfl

theorem mem_events_bind {m : Program ω ε σ α} {f : α → Program ω ε σ β} {s : σ} {w : ω}
    (h : w ∈ (m s).events) : w ∈ ((m >>= f) s).events := by
  rcases hm : m s with ⟨ws, r⟩
  rw [hm] at h
  cases r with
  | ok a s' =>
    rw [bind_ok hm]
    exact List.mem_append_left _ h
  | error e s' =>
    rw [bind_error hm]
    exact h

theorem mem_events_of_bind {m : Program ω ε σ α} {f : α → Program ω ε σ β} {s s' : σ} {a : α}
    {ws : List ω} {w : ω} (hm : m s = ⟨ws, .ok a s'⟩) (h : w ∈ (f a s').events) :
    w ∈ ((m >>= f) s).events := by
  rw [bind_ok hm]
  exact List.mem_append_right _ h

theorem mem_events_assign_bind {g : σ → σ} {f : Unit → Program σ ε σ α} {s w : σ}
    (h : w ∈ (f () (g s)).events) : w ∈ ((assign g >>= f) s).events :=
  mem_events_of_bind (assign_apply g s) h

end Keeping

/-- The runs of the programs `exec` from `s₀` in which every step meets `P`: the events
emitted, the error that ended the run if one did, and the state reached. -/
inductive Visits (exec : κ → Program ω ε σ α) (P : σ → κ → Prop) (s₀ : σ) :
    List ω → Option ε → σ → Prop
  | start : Visits exec P s₀ [] none s₀
  | step {ws s s' op a} : Visits exec P s₀ ws none s → P s op →
      (exec op s).result = .ok a s' → Visits exec P s₀ (ws ++ (exec op s).events) none s'
  | halt {ws s s' op e} : Visits exec P s₀ ws none s → P s op →
      (exec op s).result = .error e s' → Visits exec P s₀ (ws ++ (exec op s).events) (some e) s'

theorem Visits.invariant {exec : κ → Program ω ε σ α} {P : σ → κ → Prop} {A G : ω → Prop}
    {I : σ → Prop} {E : ε → σ → Prop} {s₀ : σ}
    (hstep : ∀ s op, I s → P s op → Ensures A G (exec op) s (fun _ => I) E) (h₀ : I s₀)
    {ws : List ω} {o : Option ε} {s : σ} (h : Visits exec P s₀ ws o s)
    (hA : ∀ w ∈ ws, A w) :
    (∀ w ∈ ws, G w) ∧ match o with
      | none => I s
      | some e => E e s := by
  induction h with
  | start => exact ⟨fun _ hw => absurd hw List.not_mem_nil, h₀⟩
  | step _ hP hr ih =>
    have hi := ih fun w hw => hA w (List.mem_append_left _ hw)
    have hs := hstep _ _ hi.2 hP fun w hw => hA w (List.mem_append_right _ hw)
    rw [hr] at hs
    exact ⟨fun w hw => (List.mem_append.1 hw).elim (hi.1 w) (hs.1 w), hs.2⟩
  | halt _ hP hr ih =>
    have hi := ih fun w hw => hA w (List.mem_append_left _ hw)
    have hs := hstep _ _ hi.2 hP fun w hw => hA w (List.mem_append_right _ hw)
    rw [hr] at hs
    exact ⟨fun w hw => (List.mem_append.1 hw).elim (hi.1 w) (hs.1 w), hs.2⟩

/-- The events of the operations `ops` and the state after them, if `check` admits each of
them and none fails. -/
def trace (exec : κ → Program ω ε σ α) (check : σ → κ → Bool) :
    List κ → σ → Option (List ω × σ)
  | [], s => some ([], s)
  | op :: ops, s =>
    if check s op then
      match exec op s with
      | ⟨ws, .ok _ s'⟩ => (trace exec check ops s').map fun r => (ws ++ r.1, r.2)
      | ⟨_, .error _ _⟩ => none
    else none

/-- A trace is a run. -/
theorem Visits.trace {exec : κ → Program ω ε σ α} {check : σ → κ → Bool}
    {P : σ → κ → Prop} (hP : ∀ s op, check s op = true → P s op) {s₀ s' : σ} {ops : List κ}
    {ws' : List ω} : ∀ {s ws}, Visits exec P s₀ ws none s →
      Program.trace exec check ops s = some (ws', s') →
      Visits exec P s₀ (ws ++ ws') none s' := by
  induction ops generalizing ws' with
  | nil =>
    intro s ws h ht
    obtain ⟨rfl, rfl⟩ := Prod.mk.inj (Option.some.inj ht)
    rwa [List.append_nil]
  | cons op ops ih =>
    intro s ws h ht
    rw [Program.trace] at ht
    split at ht
    case isFalse => cases ht
    case isTrue hc =>
      rcases hm : exec op s with ⟨ws₁, ⟨a, s₁⟩ | ⟨e, s₁⟩⟩
      · rw [hm] at ht
        obtain ⟨⟨ws₂, s₂⟩, hr, he⟩ := Option.map_eq_some_iff.1 ht
        obtain ⟨rfl, rfl⟩ := Prod.mk.inj he
        have hstep : Visits exec P s₀ (ws ++ (exec op s).events) none s₁ :=
          Visits.step (a := a) h (hP s op hc) (by rw [hm])
        rw [hm] at hstep
        rw [← List.append_assoc]
        exact ih hstep hr
      · rw [hm] at ht
        cases ht

end Program
