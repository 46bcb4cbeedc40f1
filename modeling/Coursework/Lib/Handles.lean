import Coursework.Lib.Program
import Mathlib.Data.Finset.Basic

/-! Programs that lock resources, use them and release them: what of it their events tell, and
rules for what a returning run still holds. -/
namespace Handles

inductive Event (κ : Type) where
  | acquire (k : κ)
  | use (k : κ)
  | release (k : κ)

/-- How a program fails to return: it waits for a lock for ever, it releases what is not locked,
or it stops by itself. -/
inductive Fault (ε : Type) where
  | deadlock
  | notHeld
  | stopped (e : ε)

/-- A value and the resources that are locked. -/
structure State (κ σ : Type) where
  val : σ
  locked : Finset κ

abbrev Prog (κ ε σ α : Type) := Program (Event κ) (Fault ε) (State κ σ) α

variable {κ ε σ α β : Type} [DecidableEq κ]

/-- Wait for a resource and lock it. -/
def acquire (k : κ) : Prog κ ε σ Unit := fun s =>
  if k ∈ s.locked then ⟨[], .error .deadlock s⟩
  else ⟨[.acquire k], .ok () { s with locked := insert k s.locked }⟩

def release (k : κ) : Prog κ ε σ Unit := fun s =>
  if k ∈ s.locked then ⟨[.release k], .ok () { s with locked := s.locked.erase k }⟩
  else ⟨[], .error .notHeld s⟩

/-- Read through a resource. -/
def look (k : κ) (f : σ → α) : Prog κ ε σ α := fun s => ⟨[.use k], .ok (f s.val) s⟩

/-- Write through a resource. -/
def store (k : κ) (f : σ → σ) : Prog κ ε σ Unit :=
  fun s => ⟨[.use k], .ok () { s with val := f s.val }⟩

/-- Read what belongs to no resource. -/
def peek (f : σ → α) : Prog κ ε σ α := fun s => ⟨[], .ok (f s.val) s⟩

def poke (f : σ → σ) : Prog κ ε σ Unit := fun s => ⟨[], .ok () { s with val := f s.val }⟩

def fail (e : ε) : Prog κ ε σ α := fun s => ⟨[], .error (.stopped e) s⟩

/-- What is held after some events, if every use and every release is of a resource that is
held and nothing is acquired twice. -/
def holds : Finset κ → List (Event κ) → Option (Finset κ)
  | H, [] => some H
  | H, .acquire k :: ws => if k ∈ H then none else holds (insert k H) ws
  | H, .use k :: ws => if k ∈ H then holds H ws else none
  | H, .release k :: ws => if k ∈ H then holds (H.erase k) ws else none

theorem holds_append (H : Finset κ) (ws ws' : List (Event κ)) :
    holds H (ws ++ ws') = (holds H ws).bind fun H' => holds H' ws' := by
  induction ws generalizing H with
  | nil => rfl
  | cons w ws ih =>
    cases w with
    | acquire k =>
      rw [List.cons_append, holds, holds]
      by_cases h : k ∈ H
      · rw [if_pos h, if_pos h]
        rfl
      · rw [if_neg h, if_neg h, ih]
    | use k =>
      rw [List.cons_append, holds, holds]
      by_cases h : k ∈ H
      · rw [if_pos h, if_pos h, ih]
      · rw [if_neg h, if_neg h]
        rfl
    | release k =>
      rw [List.cons_append, holds, holds]
      by_cases h : k ∈ H
      · rw [if_pos h, if_pos h, ih]
      · rw [if_neg h, if_neg h]
        rfl

/-- If the program returns, it has released every resource that it had acquired, each once and
after its last use, and the locks are what they were. -/
def Disciplined (m : Prog κ ε σ α) (s : State κ σ) : Prop :=
  ∀ a s', (m s).result = .ok a s' → holds ∅ (m s).events = some ∅ ∧ s'.locked = s.locked

theorem disciplined_pure {s : State κ σ} (a : α) :
    Disciplined (Pure.pure a : Prog κ ε σ α) s := by
  rintro _ _ hr
  cases hr
  exact ⟨rfl, rfl⟩

theorem disciplined_fail {s : State κ σ} (e : ε) : Disciplined (fail e : Prog κ ε σ α) s := by
  rintro _ _ hr
  cases hr

/-- The resources that are locked and those among them that the program holds. -/
structure Locks (κ : Type) where
  locked : Finset κ
  own : Finset κ
  own_subset : own ⊆ locked

namespace Locks

/-- The program holds one more. -/
def lock (c : Locks κ) (k : κ) : Locks κ :=
  ⟨insert k c.locked, insert k c.own, Finset.insert_subset_insert k c.own_subset⟩

/-- The program holds nothing. -/
def others (L : Finset κ) : Locks κ := ⟨L, ∅, Finset.empty_subset L⟩

theorem mem_lock_self (c : Locks κ) (k : κ) : k ∈ (c.lock k).own := Finset.mem_insert_self k _

end Locks

/-- If the program returns, it has used only what it held, the locks have gone from `c` to `c'`,
and `Q` holds of what it returns. -/
def Runs (v : σ) (c : Locks κ) (m : Prog κ ε σ α) (c' : Locks κ) (Q : α → σ → Prop) : Prop :=
  ∀ a s', (m ⟨v, c.locked⟩).result = .ok a s' →
    holds c.own (m ⟨v, c.locked⟩).events = some c'.own ∧ s'.locked = c'.locked ∧ Q a s'.val

namespace Runs

variable {v : σ} {c c₁ c' : Locks κ} {k : κ} {Q Q' : α → σ → Prop} {R : β → σ → Prop}

theorem pure {a : α} (h : Q a v) : Runs v c (Pure.pure a : Prog κ ε σ α) c Q := by
  rintro _ _ hr
  cases hr
  exact ⟨rfl, rfl, h⟩

theorem fail {e : ε} : Runs v c (Handles.fail e : Prog κ ε σ α) c' Q := by
  rintro _ _ hr
  cases hr

theorem bind {m : Prog κ ε σ α} {f : α → Prog κ ε σ β} (h : Runs v c m c₁ Q)
    (hf : ∀ a v', Q a v' → Runs v' c₁ (f a) c' R) : Runs v c (m >>= f) c' R := by
  intro b t hr
  rcases hm : m ⟨v, c.locked⟩ with ⟨ws, ⟨a, s'⟩ | ⟨e, s'⟩⟩
  · rw [Program.bind_ok hm] at hr ⊢
    obtain ⟨hws, hl, hq⟩ := h a s' (by rw [hm])
    rw [hm] at hws
    have hs' : s' = ⟨s'.val, c₁.locked⟩ := by rw [← hl]
    rw [hs'] at hr ⊢
    obtain ⟨hws', hrest⟩ := hf a s'.val hq b t hr
    refine ⟨?_, hrest⟩
    rw [holds_append, hws, Option.bind_some, hws']
  · rw [Program.bind_error hm] at hr
    cases hr

theorem mono {m : Prog κ ε σ α} (h : Runs v c m c' Q) (hQ : ∀ a v', Q a v' → Q' a v') :
    Runs v c m c' Q' := by
  intro a s' hr
  obtain ⟨hws, hl, hq⟩ := h a s' hr
  exact ⟨hws, hl, hQ a s'.val hq⟩

theorem acquire {Q : Unit → σ → Prop} (h : k ∉ c.locked → Q () v) :
    Runs v c (acquire k : Prog κ ε σ Unit) (c.lock k) Q := by
  intro a s' hr
  unfold Handles.acquire at hr ⊢
  by_cases hk : k ∈ c.locked
  · rw [if_pos hk] at hr
    cases hr
  · rw [if_neg hk] at hr ⊢
    cases hr
    exact ⟨if_neg fun hk' => hk (c.own_subset hk'), rfl, h hk⟩

theorem acquire_bind {f : Unit → Prog κ ε σ β}
    (h : k ∉ c.locked → Runs v (c.lock k) (f ()) c' R) :
    Runs v c (Handles.acquire k >>= f) c' R := by
  refine (acquire (Q := fun _ v' => v' = v ∧ k ∉ c.locked) fun hk => ⟨rfl, hk⟩).bind ?_
  rintro _ _ ⟨rfl, hk⟩
  exact h hk

theorem release (hk : k ∉ c.locked) {Q : Unit → σ → Prop} (h : Q () v) :
    Runs v (c.lock k) (release k : Prog κ ε σ Unit) c Q := by
  intro a s' hr
  have hm : (Handles.release k : Prog κ ε σ Unit) ⟨v, (c.lock k).locked⟩ =
      ⟨[.release k], .ok () ⟨v, (insert k c.locked).erase k⟩⟩ :=
    if_pos (Finset.mem_insert_self k _)
  rw [hm] at hr ⊢
  cases hr
  refine ⟨?_, Finset.erase_insert hk, h⟩
  change (if k ∈ insert k c.own then some ((insert k c.own).erase k) else none) = _
  rw [if_pos (Finset.mem_insert_self k _),
    Finset.erase_insert fun hk' => hk (c.own_subset hk')]

theorem release_bind {f : Unit → Prog κ ε σ β} (hk : k ∉ c.locked)
    (h : Runs v c (f ()) c' R) : Runs v (c.lock k) (Handles.release k >>= f) c' R := by
  refine (release (Q := fun _ v' => v' = v) hk rfl).bind ?_
  rintro _ _ rfl
  exact h

theorem look {f : σ → α} (hk : k ∈ c.own) (h : Q (f v) v) :
    Runs v c (look k f : Prog κ ε σ α) c Q := by
  rintro _ _ hr
  cases hr
  exact ⟨if_pos hk, rfl, h⟩

theorem look_bind {f : σ → α} {g : α → Prog κ ε σ β} (hk : k ∈ c.own)
    (h : Runs v c (g (f v)) c' R) : Runs v c (Handles.look k f >>= g) c' R := by
  refine (look (Q := fun a v' => a = f v ∧ v' = v) hk ⟨rfl, rfl⟩).bind ?_
  rintro _ _ ⟨rfl, rfl⟩
  exact h

theorem store {f : σ → σ} {Q : Unit → σ → Prop} (hk : k ∈ c.own) (h : Q () (f v)) :
    Runs v c (store k f : Prog κ ε σ Unit) c Q := by
  rintro _ _ hr
  cases hr
  exact ⟨if_pos hk, rfl, h⟩

theorem store_bind {f : σ → σ} {g : Unit → Prog κ ε σ β} (hk : k ∈ c.own)
    (h : Runs (f v) c (g ()) c' R) : Runs v c (Handles.store k f >>= g) c' R := by
  refine (store (Q := fun _ v' => v' = f v) hk rfl).bind ?_
  rintro _ _ rfl
  exact h

theorem peek {f : σ → α} (h : Q (f v) v) : Runs v c (peek f : Prog κ ε σ α) c Q := by
  rintro _ _ hr
  cases hr
  exact ⟨rfl, rfl, h⟩

theorem peek_bind {f : σ → α} {g : α → Prog κ ε σ β} (h : Runs v c (g (f v)) c' R) :
    Runs v c (Handles.peek f >>= g) c' R := by
  refine (peek (Q := fun a v' => a = f v ∧ v' = v) ⟨rfl, rfl⟩).bind ?_
  rintro _ _ ⟨rfl, rfl⟩
  exact h

theorem poke {f : σ → σ} {Q : Unit → σ → Prop} (h : Q () (f v)) :
    Runs v c (poke f : Prog κ ε σ Unit) c Q := by
  rintro _ _ hr
  cases hr
  exact ⟨rfl, rfl, h⟩

theorem poke_bind {f : σ → σ} {g : Unit → Prog κ ε σ β} (h : Runs (f v) c (g ()) c' R) :
    Runs v c (Handles.poke f >>= g) c' R := by
  refine (poke (Q := fun _ v' => v' = f v) rfl).bind ?_
  rintro _ _ rfl
  exact h

theorem disciplined {m : Prog κ ε σ α} {s : State κ σ}
    (h : Runs s.val (Locks.others s.locked) m (Locks.others s.locked) Q) : Disciplined m s := by
  intro a s' hr
  obtain ⟨hws, hl, -⟩ := h a s' hr
  exact ⟨hws, hl⟩

end Runs

/-- The program computes `r` if it returns, and leaves the locks as they were. -/
def Computes (v : σ) (c : Locks κ) (m : Prog κ ε σ α) (r : Option (σ × α)) : Prop :=
  Runs v c m c fun a v' => r = some (v', a)

/-- The same for a program without a value. -/
def Executes (v : σ) (c : Locks κ) (m : Prog κ ε σ Unit) (r : Option σ) : Prop :=
  Runs v c m c fun _ v' => r = some v'

end Handles
