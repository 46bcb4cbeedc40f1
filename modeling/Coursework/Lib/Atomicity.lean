import Coursework.Lib.Locking
import Mathlib.Data.List.Induction

/-! Operations under locks appear to take effect in one instant, also where an operation reads
cells that it has not locked, as long as no other operation can change what it tells apart. -/
namespace Locking
open Shared

/-- An event, or the instant at which an operation takes effect. -/
inductive Mark (τ ο ρ : Type*) where
  | call (t : τ) (o : ο)
  | commit (t : τ) (o : ο) (r : ρ)
  | reply (t : τ) (r : ρ)

/-- How far a thread is with its operation. -/
inductive Phase (ο ρ : Type*) where
  | idle
  | called (o : ο)
  | committed (r : ρ)

variable {τ ο lk κ ν ρ : Type*}

/-- What clients see of a mark. -/
def Mark.event : Mark τ ο ρ → Option (Event τ ο ρ)
  | .call t o => some (.call t o)
  | .commit _ _ _ => none
  | .reply t r => some (.reply t r)

variable [DecidableEq τ] [DecidableEq κ]

/-- The histories of a server that executes one operation at a time, in an instant between its
call and its reply, with the phases of the threads and the cells at the end. -/
inductive Atomic (S : Service ο lk κ ν ρ) (σ₀ : κ → ν) :
    List (Mark τ ο ρ) → (τ → Phase ο ρ) → (κ → ν) → Prop
  | init : Atomic S σ₀ [] (fun _ => .idle) σ₀
  | call {h ph σ} (t : τ) (o : ο) (hist : Atomic S σ₀ h ph σ) (hph : ph t = .idle) :
    Atomic S σ₀ (h ++ [.call t o]) (Function.update ph t (.called o)) σ
  | commit {h ph σ} (t : τ) (o : ο) (hist : Atomic S σ₀ h ph σ) (hph : ph t = .called o) :
    Atomic S σ₀ (h ++ [.commit t o ((S.body o).eval σ).2])
      (Function.update ph t (.committed ((S.body o).eval σ).2)) ((S.body o).eval σ).1
  | reply {h ph σ} (t : τ) (r : ρ) (hist : Atomic S σ₀ h ph σ) (hph : ph t = .committed r) :
    Atomic S σ₀ (h ++ [.reply t r]) (Function.update ph t .idle) σ

/-- What a mark does to the cells of the atomic server. -/
def Mark.Effect (S : Service ο lk κ ν ρ) : Mark τ ο ρ → (κ → ν) → (κ → ν) → Prop
  | .commit _ o r, σ, σ' => (S.body o).eval σ = (σ', r)
  | .call _ _, σ, σ' | .reply _ _, σ, σ' => σ' = σ

theorem Atomic.last {S : Service ο lk κ ν ρ} {σ₀ σ : κ → ν} {h : List (Mark τ ο ρ)}
    {m : Mark τ ο ρ} {ph : τ → Phase ο ρ} (hist : Atomic S σ₀ (h ++ [m]) ph σ) :
    ∃ ph' σ', Atomic S σ₀ h ph' σ' ∧ m.Effect S σ' σ := by
  generalize hlast : h ++ [m] = hm at hist
  cases hist with
  | init => simp at hlast
  | call t o hist hph =>
    obtain ⟨rfl, ⟨⟩⟩ := List.append_inj' hlast rfl
    exact ⟨_, _, hist, rfl⟩
  | commit t o hist hph =>
    obtain ⟨rfl, ⟨⟩⟩ := List.append_inj' hlast rfl
    exact ⟨_, _, hist, rfl⟩
  | reply t r hist hph =>
    obtain ⟨rfl, ⟨⟩⟩ := List.append_inj' hlast rfl
    exact ⟨_, _, hist, rfl⟩

theorem Atomic.before {S : Service ο lk κ ν ρ} {σ₀ σ : κ → ν} {h h' : List (Mark τ ο ρ)}
    {ph : τ → Phase ο ρ} (hist : Atomic S σ₀ (h ++ h') ph σ) :
    ∃ ph' σ', Atomic S σ₀ h ph' σ' := by
  induction h' using List.reverseRecOn generalizing ph σ with
  | nil =>
    rw [List.append_nil] at hist
    exact ⟨ph, σ, hist⟩
  | append_singleton h' m ih =>
    rw [← List.append_assoc] at hist
    obtain ⟨ph', σ', hprev, -⟩ := hist.last
    exact ih hprev

/-- How operations may share cells. Each cell has a lock, and an operation writes only cells
whose locks it holds. What an operation may do to a cell is invisible to the operations that
share no lock with it. -/
structure Discipline (S : Service ο lk κ ν ρ) (lockOf : κ → lk)
    (view guar : ο → κ → ν → ν → Prop) : Prop where
  nodup : ∀ o, (S.locks o).Nodup
  released : ∀ o, (S.unlocks o).Perm (S.locks o)
  same : ∀ o x, Equivalence (view o x)
  within : ∀ o, (S.body o).Within (fun x => lockOf x ∈ S.locks o) (view o)
  polite : ∀ o σ, (S.body o).Polite (guar o) σ
  stable : ∀ o o', (S.locks o).Disjoint (S.locks o') → ∀ x a b, guar o x a b → view o' x a b

/-- The phase that a thread is in. -/
def Control.phase (cells : κ → ν) : Control ο lk κ ν ρ → Phase ο ρ
  | .idle => .idle
  | .locking o _ => .called o
  | .inside _ p => .committed (p.eval cells).2
  | .releasing _ => .idle

section Refinement
variable {S : Service ο lk κ ν ρ} {lockOf : κ → lk} {view guar : ο → κ → ν → ν → Prop}

variable (S lockOf view guar) in
/-- What holds of an operation `o` that still has to execute `p`, where `σ` are the cells of
the atomic server. -/
structure Running (o : ο) (p : Prog κ ν ρ) (cells σ : κ → ν) : Prop where
  within : p.Within (fun x => lockOf x ∈ S.locks o) (view o)
  polite : p.Polite (guar o) cells
  effect : ∀ x, lockOf x ∈ S.locks o → σ x = (p.eval cells).1 x
  scan : (S.body o).ReadOnly →
    p.ReadOnly ∧ ((S.body o).eval cells).2 = (p.eval cells).2

omit [DecidableEq τ] in
theorem Discipline.chain (D : Discipline S lockOf view guar) {o o' : ο}
    (hdisj : (S.locks o).Disjoint (S.locks o')) {x : κ} {a b : ν}
    (h : Relation.ReflTransGen (guar o x) a b) : view o' x a b := by
  induction h with
  | refl => exact (D.same o' x).refl a
  | tail _ hstep ih => exact (D.same o' x).trans ih (D.stable o o' hdisj x _ _ hstep)

omit [DecidableEq τ] in
theorem Discipline.reply_eq (D : Discipline S lockOf view guar) {o : ο} {p : Prog κ ν ρ}
    {cells cells' : κ → ν} (hp : p.Within (fun x => lockOf x ∈ S.locks o) (view o))
    (halike : ∀ x, view o x (cells x) (cells' x))
    (hsame : ∀ x, lockOf x ∈ S.locks o → cells x = cells' x) :
    (p.eval cells).2 = (p.eval cells').2 :=
  (Prog.eval_congr (fun x a => (D.same o x).refl a) hp halike hsame).1

omit [DecidableEq τ] in
theorem Running.frame (D : Discipline S lockOf view guar) {o : ο} {p : Prog κ ν ρ}
    {cells cells' σ σ' : κ → ν} (h : Running S lockOf view guar o p cells σ)
    (halike : ∀ x, view o x (cells x) (cells' x))
    (hsame : ∀ x, lockOf x ∈ S.locks o → cells x = cells' x)
    (hσ : ∀ x, lockOf x ∈ S.locks o → σ x = σ' x) :
    Running S lockOf view guar o p cells' σ' := by
  have hrefl : ∀ x a, view o x a a := fun x a => (D.same o x).refl a
  refine ⟨h.within, h.polite.congr hrefl h.within halike hsame, fun x hx => ?_, fun hro => ?_⟩
  · rw [← hσ x hx, h.effect x hx]
    exact (Prog.eval_congr hrefl h.within halike hsame).2 x hx
  · obtain ⟨hp, heq⟩ := h.scan hro
    rw [← D.reply_eq (D.within o) halike hsame, ← D.reply_eq h.within halike hsame]
    exact ⟨hp, heq⟩

variable (S lockOf view guar) in
/-- The cells of the atomic server are those of the locking server, with the operations that
are inside their locks completed. -/
structure Covered (cells : κ → ν) (thread : τ → Control ο lk κ ν ρ) (σ : κ → ν) : Prop where
  running : ∀ t o p, thread t = .inside o p → Running S lockOf view guar o p cells σ
  free : ∀ x, (∀ t o p, thread t = .inside o p → lockOf x ∉ S.locks o) → σ x = cells x

variable {cells σ : κ → ν} {thread : τ → Control ο lk κ ν ρ}

theorem Covered.running_update (h : Covered S lockOf view guar cells thread σ) {t : τ}
    {c : Control ο lk κ ν ρ} (hnew : ∀ o p, c ≠ .inside o p) (t' : τ) (o : ο) (p : Prog κ ν ρ)
    (ht : Function.update thread t c t' = .inside o p) :
    Running S lockOf view guar o p cells σ := by
  obtain rfl | hne := eq_or_ne t' t
  · rw [Function.update_self] at ht
    exact absurd ht (hnew o p)
  · rw [Function.update_of_ne hne] at ht
    exact h.running t' o p ht

theorem Covered.outside (h : Covered S lockOf view guar cells thread σ) {t : τ}
    {c : Control ο lk κ ν ρ} (hold : ∀ o p, thread t ≠ .inside o p)
    (hnew : ∀ o p, c ≠ .inside o p) :
    Covered S lockOf view guar cells (Function.update thread t c) σ := by
  refine ⟨h.running_update hnew, fun x hx => ?_⟩
  apply h.free
  intro t' o p ht
  obtain rfl | hne := eq_or_ne t' t
  · exact absurd ht (hold o p)
  · apply hx t' o p
    rw [Function.update_of_ne hne]
    exact ht

theorem Covered.finish (h : Covered S lockOf view guar cells thread σ) {t : τ} {o : ο} {r : ρ}
    (ht : thread t = .inside o (.done r)) {c : Control ο lk κ ν ρ}
    (hnew : ∀ o p, c ≠ .inside o p) :
    Covered S lockOf view guar cells (Function.update thread t c) σ := by
  refine ⟨h.running_update hnew, fun x hx => ?_⟩
  by_cases hmine : lockOf x ∈ S.locks o
  · exact (h.running t o _ ht).effect x hmine
  · apply h.free
    intro t' o' p ht'
    obtain rfl | hne := eq_or_ne t' t
    · rw [ht] at ht'
      obtain ⟨rfl, rfl⟩ := Control.inside.inj ht'
      exact hmine
    · apply hx t' o' p
      rw [Function.update_of_ne hne]
      exact ht'

/-- A step of an operation inside its locks to another program. -/
theorem Covered.replace {cells' : κ → ν} (h : Covered S lockOf view guar cells thread σ) {t : τ}
    {o : ο} {p p' : Prog κ ν ρ} (ht : thread t = .inside o p)
    (hrun : Running S lockOf view guar o p' cells' σ)
    (hothers : ∀ t' o' q, t' ≠ t → thread t' = .inside o' q →
      Running S lockOf view guar o' q cells' σ)
    (hcells : ∀ x, lockOf x ∉ S.locks o → cells' x = cells x) :
    Covered S lockOf view guar cells' (Function.update thread t (.inside o p')) σ := by
  constructor
  · intro t' o' q ht'
    obtain rfl | hne := eq_or_ne t' t
    · rw [Function.update_self] at ht'
      obtain ⟨rfl, rfl⟩ := Control.inside.inj ht'
      exact hrun
    · rw [Function.update_of_ne hne] at ht'
      exact hothers t' o' q hne ht'
  · intro x hx
    have hnot : lockOf x ∉ S.locks o := hx t o p' (Function.update_self ..)
    rw [hcells x hnot]
    apply h.free
    intro t' o' q ht'
    obtain rfl | hne := eq_or_ne t' t
    · rw [ht] at ht'
      obtain ⟨rfl, rfl⟩ := Control.inside.inj ht'
      exact hnot
    · apply hx t' o' q
      rw [Function.update_of_ne hne]
      exact ht'

variable {s : State τ ο lk κ ν ρ}

omit [DecidableEq τ] [DecidableEq κ] in
theorem Held.disjoint (hs : Held S s) {t t' : τ} (hne : t ≠ t') {o o' : ο}
    (h : ∀ l ∈ S.locks o, (s.thread t).Holds S l)
    (h' : ∀ l ∈ S.locks o', (s.thread t').Holds S l) : (S.locks o).Disjoint (S.locks o') := by
  intro l hl hl'
  exact hne (hs.unique (h l hl) (h' l hl'))

omit [DecidableEq τ] [DecidableEq κ] in
theorem holds_inside {t : τ} {o : ο} {p : Prog κ ν ρ} (h : s.thread t = .inside o p) :
    ∀ l ∈ S.locks o, (s.thread t).Holds S l := by
  intro l hl
  rw [h]
  exact hl

omit [DecidableEq τ] [DecidableEq κ] in
theorem holds_locked {t : τ} {o : ο} (h : s.thread t = .locking o []) :
    ∀ l ∈ S.locks o, (s.thread t).Holds S l := by
  intro l hl
  rw [h]
  exact ⟨hl, List.not_mem_nil⟩

omit [DecidableEq τ] in
theorem Covered.alike (D : Discipline S lockOf view guar) (hs : Held S s)
    (h : Covered S lockOf view guar s.cells s.thread σ) {t : τ} {o : ο}
    (ht : s.thread t = .locking o []) (x : κ) : view o x (s.cells x) (σ x) := by
  by_cases hx : ∃ t' o' p, s.thread t' = .inside o' p ∧ lockOf x ∈ S.locks o'
  · obtain ⟨t', o', p, ht', hmem⟩ := hx
    have hne : t' ≠ t := by
      rintro rfl
      rw [ht] at ht'
      cases ht'
    have hdisj := hs.disjoint hne (holds_inside ht') (holds_locked ht)
    have hrun := h.running t' o' p ht'
    rw [hrun.effect x hmem]
    exact D.chain hdisj (hrun.polite.chain x)
  · push Not at hx
    rw [h.free x hx]
    exact (D.same o x).refl _

omit [DecidableEq τ] in
theorem Covered.same (hs : Held S s) (h : Covered S lockOf view guar s.cells s.thread σ)
    {t : τ} {o : ο} (ht : s.thread t = .locking o []) {x : κ} (hx : lockOf x ∈ S.locks o) :
    s.cells x = σ x := by
  symm
  apply h.free
  intro t' o' p ht' hmem
  have heq := hs.unique (holds_inside ht' _ hmem) (holds_locked ht _ hx)
  rw [heq, ht] at ht'
  cases ht'

/-- An operation takes effect when it has taken its locks. -/
theorem Covered.enter (D : Discipline S lockOf view guar) (hs : Held S s)
    (h : Covered S lockOf view guar s.cells s.thread σ) {t : τ} {o : ο}
    (ht : s.thread t = .locking o []) :
    ((S.body o).eval s.cells).2 = ((S.body o).eval σ).2 ∧
      Covered S lockOf view guar s.cells (Function.update s.thread t (.inside o (S.body o)))
        ((S.body o).eval σ).1 := by
  have hcongr := Prog.eval_congr (fun x a => (D.same o x).refl a) (D.within o) (h.alike D hs ht)
    (fun x => h.same hs ht)
  have hothers : ∀ x, lockOf x ∉ S.locks o → σ x = ((S.body o).eval σ).1 x := fun x hx =>
    (Prog.eval_of_not_own (D.within o) hx σ).symm
  refine ⟨hcongr.1, fun t' o' p ht' => ?_, fun x hx => ?_⟩
  · obtain rfl | hne := eq_or_ne t' t
    · rw [Function.update_self] at ht'
      obtain ⟨rfl, rfl⟩ := Control.inside.inj ht'
      exact ⟨D.within o, D.polite o _, fun x hx => (hcongr.2 x hx).symm, fun hro => ⟨hro, rfl⟩⟩
    · rw [Function.update_of_ne hne] at ht'
      have hdisj := hs.disjoint hne (holds_inside ht') (holds_locked ht)
      exact (h.running t' o' p ht').frame D (fun x => (D.same o' x).refl _) (fun _ _ => rfl)
        fun x hx => hothers x fun hmem => hdisj hx hmem
  · have hnot : lockOf x ∉ S.locks o := hx t o _ (Function.update_self ..)
    rw [← hothers x hnot]
    apply h.free
    intro t' o' p ht' hmem
    obtain rfl | hne := eq_or_ne t' t
    · rw [ht] at ht'
      cases ht'
    · apply hx t' o' p _ hmem
      rw [Function.update_of_ne hne]
      exact ht'

theorem phase_update (c : Control ο lk κ ν ρ) (t : τ) :
    (fun t' => (Function.update thread t c t').phase cells) =
      Function.update (fun t' => (thread t').phase cells) t (c.phase cells) := by
  funext t'
  obtain rfl | hne := eq_or_ne t' t
  · simp
  · simp [hne]

theorem phase_same {c : Control ο lk κ ν ρ} {t : τ}
    (h : c.phase cells = (thread t).phase cells) :
    (fun t' => (Function.update thread t c t').phase cells) =
      fun t' => (thread t').phase cells := by
  rw [phase_update, h, Function.update_eq_self_iff]

variable (S lockOf view guar) in
/-- The atomic server has a history with the same events that reaches the same cells, up to
the operations that are inside their locks. -/
structure Refines (σ₀ : κ → ν) (s : State τ ο lk κ ν ρ) (h : List (Mark τ ο ρ))
    (σ : κ → ν) : Prop where
  atomic : Atomic S σ₀ h (fun t => (s.thread t).phase s.cells) σ
  log : h.filterMap Mark.event = s.log
  covered : Covered S lockOf view guar s.cells s.thread σ

variable {σ₀ : κ → ν}

theorem init_refines : Refines S lockOf view guar σ₀
    (init σ₀ : State τ ο lk κ ν ρ) [] σ₀ :=
  ⟨.init, rfl, nofun, fun _ _ => rfl⟩

variable {s' : State τ ο lk κ ν ρ} {h : List (Mark τ ο ρ)}

theorem Refines.silent (hr : Refines S lockOf view guar σ₀ s h σ)
    (hphase : (fun t => (s'.thread t).phase s'.cells) = fun t => (s.thread t).phase s.cells)
    (hlog : s'.log = s.log)
    (hcov : Covered S lockOf view guar s'.cells s'.thread σ) :
    ∃ h' σ', Refines S lockOf view guar σ₀ s' h' σ' := by
  refine ⟨h, σ, ?_, hr.log.trans hlog.symm, hcov⟩
  rw [hphase]
  exact hr.atomic

theorem Running.write {o : ο} {x : κ} {v : ν} {p : Prog κ ν ρ}
    (h : Running S lockOf view guar o (.write x v p) cells σ) :
    Running S lockOf view guar o p (Function.update cells x v) σ :=
  ⟨h.within.2, h.polite.2, h.effect, fun hro => absurd (h.scan hro).1 id⟩

theorem Running.read {o : ο} {x : κ} {k : ν → Prog κ ν ρ}
    (h : Running S lockOf view guar o (.read x k) cells σ) :
    Running S lockOf view guar o (k (cells x)) cells σ :=
  ⟨h.within.2 _, h.polite, h.effect, fun hro => ⟨(h.scan hro).1 _, (h.scan hro).2⟩⟩

omit [DecidableEq τ] in
theorem Covered.write_alike (D : Discipline S lockOf view guar) (hs : Held S s)
    (h : Covered S lockOf view guar s.cells s.thread σ) {t t' : τ} (hne : t' ≠ t) {o o' : ο}
    {x : κ} {v : ν} {p q : Prog κ ν ρ} (ht : s.thread t = .inside o (.write x v p))
    (ht' : s.thread t' = .inside o' q) :
    (∀ y, view o' y (s.cells y) (Function.update s.cells x v y)) ∧
      ∀ y, lockOf y ∈ S.locks o' → s.cells y = Function.update s.cells x v y := by
  have hdisj := hs.disjoint hne.symm (holds_inside ht) (holds_inside ht')
  have hrun := h.running t o _ ht
  constructor
  · intro y
    obtain rfl | hy := eq_or_ne y x
    · rw [Function.update_self]
      exact D.stable o o' hdisj y _ _ hrun.polite.1
    · rw [Function.update_of_ne hy]
      exact (D.same o' y).refl _
  · intro y hmem
    obtain rfl | hy := eq_or_ne y x
    · exact absurd hmem (hdisj hrun.within.1)
    · rw [Function.update_of_ne hy]

theorem Covered.write (D : Discipline S lockOf view guar) (hs : Held S s)
    (h : Covered S lockOf view guar s.cells s.thread σ) {t : τ} {o : ο} {x : κ} {v : ν}
    {p : Prog κ ν ρ} (ht : s.thread t = .inside o (.write x v p)) :
    Covered S lockOf view guar (Function.update s.cells x v)
      (Function.update s.thread t (.inside o p)) σ := by
  have hrun := h.running t o _ ht
  apply h.replace ht hrun.write
  · intro t' o' q hne ht'
    obtain ⟨halike, hsame⟩ := h.write_alike D hs hne ht ht'
    exact (h.running t' o' q ht').frame D halike hsame fun _ _ => rfl
  · intro y hy
    have hyx : y ≠ x := by
      rintro rfl
      exact hy hrun.within.1
    rw [Function.update_of_ne hyx]

theorem Covered.write_phase (D : Discipline S lockOf view guar) (hs : Held S s)
    (h : Covered S lockOf view guar s.cells s.thread σ) {t : τ} {o : ο} {x : κ} {v : ν}
    {p : Prog κ ν ρ} (ht : s.thread t = .inside o (.write x v p)) :
    (fun t' => (Function.update s.thread t (.inside o p) t').phase
        (Function.update s.cells x v)) = fun t' => (s.thread t').phase s.cells := by
  funext t'
  obtain rfl | hne := eq_or_ne t' t
  · rw [Function.update_self, ht]
    rfl
  · rw [Function.update_of_ne hne]
    cases ht' : s.thread t' with
    | idle | locking | releasing => rfl
    | inside o' q =>
      obtain ⟨halike, hsame⟩ := h.write_alike D hs hne ht ht'
      exact congrArg Phase.committed
        (D.reply_eq (h.running t' o' q ht').within halike hsame).symm

variable [DecidableEq lk]

theorem Refines.moves (D : Discipline S lockOf view guar) (hs : Held S s)
    (hr : Refines S lockOf view guar σ₀ s h σ) (hm : Moves S s s') :
    ∃ h' σ', Refines S lockOf view guar σ₀ s' h' σ' := by
  cases hm with
  | call t o ht =>
    refine ⟨h ++ [.call t o], σ, ?_, ?_, hr.covered.outside (by simp [ht]) (by simp)⟩
    · have hidle : (s.thread t).phase s.cells = .idle := by rw [ht, Control.phase]
      dsimp only [State.put]
      rw [phase_update]
      exact hr.atomic.call t o hidle
    · simp [hr.log, Mark.event]
  | lock t o l todo ht hl =>
    apply hr.silent
    · exact phase_same (by simp [ht, Control.phase])
    · rfl
    · exact hr.covered.outside (by simp [ht]) (by simp)
  | enter t o ht =>
    obtain ⟨hreply, hcov⟩ := hr.covered.enter D hs ht
    refine ⟨h ++ [.commit t o ((S.body o).eval σ).2], ((S.body o).eval σ).1, ?_, ?_, hcov⟩
    · have hcalled : (s.thread t).phase s.cells = .called o := by rw [ht, Control.phase]
      dsimp only [State.put]
      rw [phase_update, Control.phase, hreply]
      exact hr.atomic.commit t o hcalled
    · rw [List.filterMap_append, hr.log]
      exact List.append_nil _
  | read t o x k ht =>
    have hrun := hr.covered.running t o _ ht
    apply hr.silent
    · exact phase_same (by rw [ht]; rfl)
    · rfl
    · exact hr.covered.replace ht hrun.read (fun t' o' q _ => hr.covered.running t' o' q)
        fun _ _ => rfl
  | write t o x v p ht =>
    apply hr.silent
    · exact hr.covered.write_phase D hs ht
    · rfl
    · exact hr.covered.write D hs ht
  | finish t o r ht =>
    refine ⟨h ++ [.reply t r], σ, ?_, ?_, hr.covered.finish ht (by simp)⟩
    · have hdone : (s.thread t).phase s.cells = .committed r := by
        rw [ht, Control.phase, Prog.eval_done]
      dsimp only [State.put]
      rw [phase_update]
      exact hr.atomic.reply t r hdone
    · simp [hr.log, Mark.event]
  | unlock t l todo ht =>
    apply hr.silent
    · exact phase_same (by simp [ht, Control.phase])
    · rfl
    · exact hr.covered.outside (by simp [ht]) (by simp)
  | leave t ht =>
    apply hr.silent
    · exact phase_same (by simp [ht, Control.phase])
    · rfl
    · exact hr.covered.outside (by simp [ht]) (by simp)

theorem refinement (D : Discipline S lockOf view guar) (σ₀ : κ → ν) (ops : List (Input τ ο)) :
    Held S (Machine.run (step S) (init σ₀) ops) ∧
      ∃ h σ, Refines S lockOf view guar σ₀ (Machine.run (step S) (init σ₀) ops) h σ := by
  apply invariant (I := fun s => Held S s ∧ ∃ h σ, Refines S lockOf view guar σ₀ s h σ)
  · rintro s s' ⟨hs, h, σ, hr⟩ hm
    exact ⟨hs.moves D.nodup D.released hm, hr.moves D hs hm⟩
  · exact ⟨init_held σ₀, [], σ₀, init_refines⟩

omit [DecidableEq lk] in
theorem Refines.cells_eq (hr : Refines S lockOf view guar σ₀ s h σ)
    (hs : ∀ t o p, s.thread t ≠ .inside o p) : s.cells = σ := by
  funext x
  symm
  exact hr.covered.free x fun t o p ht => absurd ht (hs t o p)

omit [DecidableEq lk] in
/-- An operation that writes nothing replies what it would reply alone, at the instant of the
reply, to the cells as they are. -/
theorem Refines.scan (hr : Refines S lockOf view guar σ₀ s h σ) {t : τ} {o : ο} {r : ρ}
    (ht : s.thread t = .inside o (.done r)) (hro : (S.body o).ReadOnly) :
    ((S.body o).eval s.cells).2 = r :=
  ((hr.covered.running t o _ ht).scan hro).2

end Refinement

end Locking
