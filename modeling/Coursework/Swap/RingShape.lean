import Coursework.Swap.Lru
import Coursework.Swap.Ownership

/-! The LRU ring by itself, from `init_lru` on: what `lru_append` and `lru_delete` make of it in
any order. -/
namespace Swap
open Program

/-- The node that is reached from `head` by `k` times `next`. -/
def Kernel.follow (s : Kernel) (k : ℕ) : Option ℕ :=
  Ring.follow (fun i => (s.node i).next) k s.head

/-- The ring, from `head` on, is `l`: its nodes are the distinct nodes of one cycle of `next`
whose inverse is `prev`, the counters agree with it, and the nodes that count as available are
those outside. -/
structure RingShape (s : Kernel) (l : List ℕ) : Prop where
  nodup : l.Nodup
  lt : ∀ i ∈ l, i < 1536
  follow : ∀ k, s.follow k = l[k % l.length]?
  next : ∀ i ∈ l, ∃ j ∈ l, (s.node i).next = some j ∧ (s.node j).prev = some i
  prev : ∀ i ∈ l, ∃ j ∈ l, (s.node i).prev = some j ∧ (s.node j).next = some i
  numLru : s.numLru = l.length
  head : s.head = none ↔ s.numLru = 0
  count : s.numFree + s.numLru = 1536
  available : ∀ i < 1536, (s.node i).isAvailable = true ↔ i ∉ l

/-- A node put in after the first one. -/
def insertAfterHead (idx : ℕ) : List ℕ → List ℕ
  | [] => [idx]
  | h :: t => h :: idx :: t

inductive RingCall where
  | append (pgdir vaddr : ℕ)
  | delete (node : ℕ)

def RingCall.exec : RingCall → M Unit
  | .append pgdir vaddr => lruAppend pgdir vaddr
  | .delete node => lruDelete node

/-- A slot is free for the node to append, the node to delete is in the ring. -/
def RingCall.Allowed (s : Kernel) : RingCall → Prop
  | .append _ _ => ∃ i < 1536, (s.node i).isAvailable = true
  | .delete node => ∃ k, s.follow k = some node

/-- The runs of allowed calls. -/
def RingRuns (s₀ : Kernel) (ws : List Handout) (o : Option Panic) (s : Kernel) : Prop :=
  Visits RingCall.exec (fun s c => c.Allowed s) s₀ ws o s

/-- What a call makes of the ring `l`: an appended node goes after the head and becomes the head,
a deleted one goes and leaves the others in their order. The others keep what they stand for. -/
def RingCall.Effect (s s' : Kernel) (l : List ℕ) : RingCall → Prop
  | .append pgdir vaddr => ∃ idx, idx ∉ l ∧ s'.head = some idx ∧
      RingShape s' ((insertAfterHead idx l).rotate 1) ∧
      (s'.node idx).pgdir = pgdir ∧ (s'.node idx).vaddr = vaddr ∧
      ∀ b ∈ l, (s'.node b).pgdir = (s.node b).pgdir ∧ (s'.node b).vaddr = (s.node b).vaddr
  | .delete node => RingShape s' (l.erase node) ∧
      ∀ b ∈ l.erase node, (s'.node b).pgdir = (s.node b).pgdir ∧
        (s'.node b).vaddr = (s.node b).vaddr

section
variable {s s₀ : Kernel} {l : List ℕ}

theorem rotate_insertAfterHead (idx : ℕ) (l : List ℕ) :
    (insertAfterHead idx l).rotate 1 = idx :: l.rotate 1 := by
  cases l with
  | nil => rw [insertAfterHead, List.rotate_singleton, List.rotate_nil]
  | cons h t =>
    rw [insertAfterHead, List.rotate_cons_succ, List.rotate_zero, List.rotate_cons_succ,
      List.rotate_zero, List.cons_append]

theorem RingOf.available_iff (h : RingOf s l) (i : ℕ) :
    (s.node i).isAvailable = true ↔ i ∉ l := by
  rw [Page.isAvailable_iff]
  exact ⟨fun hz hi => h.next_ne hi hz, h.zero i⟩

theorem RingOf.shape (h : RingOf s l) (hcount : s.numFree + l.length = 1536) :
    RingShape s l where
  nodup := h.nodup
  lt := h.lt
  follow k := by
    rw [Kernel.follow, h.head]
    exact h.linked.follow_eq k
  next _ hi := h.linked.exists_next hi
  prev i hi := by
    obtain ⟨p, hp, hnext, hprev⟩ := h.linked.exists_prev hi
    exact ⟨p, hp, hprev, hnext⟩
  numLru := h.numLru
  head := by rw [h.head, h.numLru, List.head?_eq_none_iff, List.length_eq_zero_iff]
  count := by rw [h.numLru, hcount]
  available i _ := h.available_iff i

theorem RingShape.mem_of_follow (h : RingShape s l) {k i : ℕ} (hk : s.follow k = some i) :
    i ∈ l := by
  rw [h.follow] at hk
  exact List.mem_of_getElem? hk

theorem RingOf.count_of_running (h : RingOf s l) (hr : Running s) :
    s.numFree + l.length = 1536 := by
  obtain hc | ⟨rfl, h0⟩ := h.numFree
  · exact hc
  · obtain hf | hh := hr
    · exact absurd h0 hf
    · exact absurd h.head hh

/-- The ring of a state that `init_lru` and calls have led to. -/
structure Counted (s : Kernel) (l : List ℕ) : Prop where
  ring : RingOf s l
  count : s.numFree + l.length = 1536

theorem Counted.shape (h : Counted s l) : RingShape s l := h.ring.shape h.count

/-- With a free slot `lru_append` returns. -/
theorem Counted.lruAppend (h : Counted s l) {i : ℕ} (hi : i < 1536)
    (ha : (s.node i).isAvailable = true) (d va : ℕ) :
    ∃ a s', (Swap.lruAppend d va s).result = .ok a s' ∧ ∃ idx, idx ∉ l ∧
      Counted s' (idx :: l.rotate 1) ∧ (s'.node idx).pgdir = d ∧ (s'.node idx).vaddr = va ∧
      ∀ b ∈ l, (s'.node b).pgdir = (s.node b).pgdir ∧ (s'.node b).vaddr = (s.node b).vaddr := by
  have hfree : s.numFree ≠ 0 := by
    intro h0
    have hcount := h.count
    have hout := (h.ring.available_iff i).1 ha
    have hsub : (i :: l).Subperm (List.range 1536) := by
      refine (List.nodup_cons.2 ⟨hout, h.ring.nodup⟩).subperm fun j hj => ?_
      obtain rfl | hj := List.mem_cons.1 hj
      · exact List.mem_range.2 hi
      · exact List.mem_range.2 (h.ring.lt j hj)
    have hle := hsub.length_le
    rw [List.length_cons, List.length_range] at hle
    omega
  have hspec : Ensures (fun _ => True) (fun _ => True) (Swap.lruAppend d va) s _ _ :=
    lruAppend_spec h.ring
  obtain ⟨a, s', hres, -, -, idx, hidx, hring, hpg, hva, hkeep⟩ :=
    (hspec.mono (fun _ _ hq => hq) fun _ _ he => hfree he.2.1).returns
  have hrun : Running s' := .inr (by
    rw [hring.head]
    exact Option.some_ne_none idx)
  exact ⟨a, s', hres, idx, hidx, ⟨hring, hring.count_of_running hrun⟩, hpg, hva, hkeep⟩

theorem Counted.lruDelete (h : Counted s l) {i : ℕ} (hi : i ∈ l) :
    ∃ a s', (Swap.lruDelete i s).result = .ok a s' ∧ Counted s' (l.erase i) ∧
      ∀ b ∈ l.erase i, (s'.node b).pgdir = (s.node b).pgdir ∧
        (s'.node b).vaddr = (s.node b).vaddr := by
  have hspec := lruDelete_spec (A := fun _ => True) (G := fun _ => True) h.ring hi
  obtain ⟨a, s', hres, -, hring, hrun, hkeep⟩ := hspec.returns
  refine ⟨a, s', hres, ⟨hring, hring.count_of_running hrun⟩, fun b hb => hkeep b ?_⟩
  rintro rfl
  exact h.ring.nodup.not_mem_erase hb

theorem Counted.call (h : Counted s l) {c : RingCall} (hc : c.Allowed s) :
    ∃ a s', (c.exec s).result = .ok a s' ∧ c.Effect s s' l ∧ ∃ l', Counted s' l' := by
  cases c with
  | append d va =>
    obtain ⟨i, hi, ha⟩ := hc
    obtain ⟨a, s', hres, idx, hidx, hcounted, hpg, hva, hkeep⟩ := h.lruAppend hi ha d va
    refine ⟨a, s', hres, ⟨idx, hidx, hcounted.ring.head, ?_, hpg, hva, hkeep⟩, _, hcounted⟩
    rw [rotate_insertAfterHead]
    exact hcounted.shape
  | delete i =>
    obtain ⟨k, hk⟩ := hc
    obtain ⟨a, s', hres, hcounted, hkeep⟩ := h.lruDelete (h.shape.mem_of_follow hk)
    exact ⟨a, s', hres, ⟨hcounted.shape, hkeep⟩, _, hcounted⟩

theorem initLru_counted {a : Unit} (h : (initLru s₀).result = .ok a s) : Counted s [] := by
  cases h
  exact ⟨⟨rfl, .inl rfl, rfl, List.nodup_nil, fun _ hi => absurd hi List.not_mem_nil,
    Ring.linked_nil, fun _ _ => rfl⟩, rfl⟩

theorem visits_counted {s' : Kernel} (h : Counted s l) {ws : List Handout} {o : Option Panic}
    (hrun : RingRuns s ws o s') :
    o = none ∧ ∃ l', Counted s' l' := by
  have hinv := Visits.invariant (A := fun _ => True) (G := fun _ => True)
    (I := fun s => ∃ l, Counted s l) (E := fun _ _ => False) ?_ ⟨l, h⟩ hrun fun _ _ => trivial
  · obtain ⟨-, hinv⟩ := hinv
    cases o with
    | none => exact ⟨rfl, hinv⟩
    | some e => exact hinv.elim
  · rintro s c ⟨l, hl⟩ hc
    obtain ⟨a, s', hres, -, hnext⟩ := hl.call hc
    exact Ensures.of_result hres hnext

/-- From `init_lru` on no allowed call stops the kernel, in every state the ring is well formed,
and every call that is allowed then does what it should to it. -/
theorem ring_runs {a : Unit} {s' : Kernel} {ws : List Handout} {o : Option Panic}
    (hinit : (initLru s₀).result = .ok a s)
    (hrun : RingRuns s ws o s') :
    o = none ∧ ∃ l, RingShape s' l ∧ ∀ c : RingCall, c.Allowed s' →
      ∃ a s'', (c.exec s').result = .ok a s'' ∧ c.Effect s' s'' l := by
  obtain ⟨ho, l, hl⟩ := visits_counted (initLru_counted hinit) hrun
  refine ⟨ho, l, hl.shape, fun c hc => ?_⟩
  obtain ⟨a, s'', hres, heffect, -⟩ := hl.call hc
  exact ⟨a, s'', hres, heffect⟩

end

/-- A kernel whose ring has been set up. -/
def ringReady : Kernel :=
  { booted 0 with node := fun _ => Page.zero, head := none, numFree := 1536, numLru := 0 }

/-- A page at address 0, one at address 4096, and the first of them deleted. -/
theorem ring_runs_threeCalls : ∃ ws s', RingRuns ringReady ws none s' ∧ s'.head = some 1 ∧
    ∃ l, RingShape s' l ∧ ∀ c : RingCall, c.Allowed s' →
      ∃ a s'', (c.exec s').result = .ok a s'' ∧ c.Effect s' s'' l := by
  have h₀ : RingRuns ringReady [] none ringReady := Visits.start
  have h₁ := h₀.step (show RingCall.Allowed _ (.append 0 0) from ⟨0, by decide, rfl⟩) rfl
  have h₂ := h₁.step (show RingCall.Allowed _ (.append 7 4096) from ⟨1, by decide, rfl⟩) rfl
  have h₃ := h₂.step (show RingCall.Allowed _ (.delete 0) from ⟨1, rfl⟩) rfl
  have hinit : (initLru (booted 0)).result = .ok () ringReady := rfl
  exact ⟨_, _, h₃, rfl, (ring_runs hinit h₃).2⟩

end Swap
