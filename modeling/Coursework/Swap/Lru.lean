import Mathlib.Data.List.Perm.Subperm
import Coursework.Swap.Invariant

/-! `lru_append`, `lru_delete` and the scan of `kfree` on a well-linked ring. -/
namespace Swap
open Program

/-- Nothing but the ring differs. -/
def RingOnly (s s' : Kernel) : Prop :=
  s' = { s with node := s'.node, head := s'.head, numFree := s'.numFree, numLru := s'.numLru }

namespace RingOnly

variable {s s' s'' : Kernel}

theorem refl (s : Kernel) : RingOnly s s := rfl

theorem trans (h : RingOnly s s') (h' : RingOnly s' s'') : RingOnly s s'' := by
  unfold RingOnly at h h' ⊢
  rw [h] at h'
  exact h'

theorem setNext (h : RingOnly s s') (i : ℕ) (n : Option ℕ) : RingOnly s (s'.setNext i n) :=
  h.trans rfl

theorem setPrev (h : RingOnly s s') (i : ℕ) (n : Option ℕ) : RingOnly s (s'.setPrev i n) :=
  h.trans rfl

theorem setHead (h : RingOnly s s') (n : Option ℕ) : RingOnly s { s' with head := n } :=
  h.trans rfl

theorem dirs (h : RingOnly s s') : s'.dirs = s.dirs := by
  have e := congrArg Kernel.dirs h
  exact e

theorem freelist (h : RingOnly s s') : s'.freelist = s.freelist := by
  have e := congrArg Kernel.freelist h
  exact e

theorem held (h : RingOnly s s') : s'.held = s.held := by
  have e := congrArg Kernel.held h
  exact e

theorem kernel (h : RingOnly s s') : s'.kernel = s.kernel := by
  have e := congrArg Kernel.kernel h
  exact e

theorem mem (h : RingOnly s s') : s'.mem = s.mem := by
  have e := congrArg Kernel.mem h
  exact e

theorem bitmap (h : RingOnly s s') : s'.bitmap = s.bitmap := by
  have e := congrArg Kernel.bitmap h
  exact e

theorem disk (h : RingOnly s s') : s'.disk = s.disk := by
  have e := congrArg Kernel.disk h
  exact e

theorem evicted (h : RingOnly s s') : s'.evicted = s.evicted := by
  have e := congrArg Kernel.evicted h
  exact e

end RingOnly

namespace Kernel

variable (s : Kernel) (i b : ℕ) (n : Option ℕ)

theorem node_setNode (m : Page) : (s.setNode i m).node b = if b = i then m else s.node b :=
  Function.update_apply ..

@[simp] theorem next_setNext :
    ((s.setNext i n).node b).next = if b = i then n else (s.node b).next := by
  rw [setNext, node_setNode]
  split <;> rfl

@[simp] theorem prev_setNext : ((s.setNext i n).node b).prev = (s.node b).prev := by
  rw [setNext, node_setNode]
  split
  case isTrue h => rw [h]
  case isFalse => rfl

@[simp] theorem pgdir_setNext : ((s.setNext i n).node b).pgdir = (s.node b).pgdir := by
  rw [setNext, node_setNode]
  split
  case isTrue h => rw [h]
  case isFalse => rfl

@[simp] theorem vaddr_setNext : ((s.setNext i n).node b).vaddr = (s.node b).vaddr := by
  rw [setNext, node_setNode]
  split
  case isTrue h => rw [h]
  case isFalse => rfl

@[simp] theorem prev_setPrev :
    ((s.setPrev i n).node b).prev = if b = i then n else (s.node b).prev := by
  rw [setPrev, node_setNode]
  split <;> rfl

@[simp] theorem next_setPrev : ((s.setPrev i n).node b).next = (s.node b).next := by
  rw [setPrev, node_setNode]
  split
  case isTrue h => rw [h]
  case isFalse => rfl

@[simp] theorem pgdir_setPrev : ((s.setPrev i n).node b).pgdir = (s.node b).pgdir := by
  rw [setPrev, node_setNode]
  split
  case isTrue h => rw [h]
  case isFalse => rfl

@[simp] theorem vaddr_setPrev : ((s.setPrev i n).node b).vaddr = (s.node b).vaddr := by
  rw [setPrev, node_setNode]
  split
  case isTrue h => rw [h]
  case isFalse => rfl

@[simp] theorem numLru_setNext : (s.setNext i n).numLru = s.numLru := rfl
@[simp] theorem numLru_setPrev : (s.setPrev i n).numLru = s.numLru := rfl
@[simp] theorem numFree_setNext : (s.setNext i n).numFree = s.numFree := rfl
@[simp] theorem numFree_setPrev : (s.setPrev i n).numFree = s.numFree := rfl

theorem node_setNext_of_ne {s : Kernel} {i b : ℕ} {n : Option ℕ} (h : b ≠ i) :
    (s.setNext i n).node b = s.node b := Function.update_of_ne h ..

theorem node_setPrev_of_ne {s : Kernel} {i b : ℕ} {n : Option ℕ} (h : b ≠ i) :
    (s.setPrev i n).node b = s.node b := Function.update_of_ne h ..

end Kernel

theorem Page.isAvailable_iff {n : Page} : n.isAvailable = true ↔ n = Page.zero := by
  cases n with
  | mk next prev pgdir vaddr => simp [isAvailable, zero]; tauto

section
variable {s s' : Kernel} {l : List ℕ} {idx d va v i : ℕ}

theorem RingOf.next_ne (h : RingOf s l) (hi : i ∈ l) : s.node i ≠ Page.zero := by
  obtain ⟨n, -, hn, -⟩ := h.linked.exists_next hi
  intro e
  simp [e, Page.zero] at hn

theorem RingOf.available (h : RingOf s l) (hs : s.getAvailableLinkedList = some idx) :
    idx ∉ l ∧ idx < 1536 := by
  rw [Kernel.getAvailableLinkedList] at hs
  have ha := List.find?_some hs
  have hz : s.node idx = Page.zero := Page.isAvailable_iff.1 ha
  have hr := List.mem_of_find?_eq_some hs
  exact ⟨fun hi => h.next_ne hi hz, by simpa [List.mem_range'_1] using hr⟩

theorem RingOf.exists_available (h : RingOf s l) (hn : s.numFree ≠ 0) :
    ∃ idx, s.getAvailableLinkedList = some idx := by
  by_contra hc
  have hnone : s.getAvailableLinkedList = none := by
    cases hg : s.getAvailableLinkedList with
    | none => rfl
    | some idx => exact absurd ⟨idx, hg⟩ hc
  have hsub : List.range' 0 1536 ⊆ l := by
    intro i hi
    by_contra hil
    have := List.find?_eq_none.1 hnone i hi
    exact this (Page.isAvailable_iff.2 (h.zero i hil))
  have hnd : (List.range' 0 1536).Nodup := List.nodup_range'
  have hle := (hnd.subperm hsub).length_le
  rw [List.length_range'] at hle
  rcases h.numFree with hf | hf
  · omega
  · exact hn hf.2

variable {A G : Handout → Prop}

/-- Only links differ, of nodes of `l`, and they run around `l'`. -/
structure Relinked (l l' : List ℕ) (s s' : Kernel) : Prop where
  only : RingOnly s s'
  numLru : s'.numLru = s.numLru
  numFree : s'.numFree = s.numFree
  head : s'.head = l'.head?
  linked : Ring.Linked (fun i => (s'.node i).next) (fun i => (s'.node i).prev) l'
  names : ∀ b, (s'.node b).pgdir = (s.node b).pgdir ∧ (s'.node b).vaddr = (s.node b).vaddr
  other : ∀ b ∉ l, s'.node b = s.node b

/-- The links of a ring with a node put in after its head, from where the ring is then read. -/
theorem linkHead_spec (hlru : s.numLru = l.length) (hhead : s.head = l.head?) (hnd : l.Nodup)
    (hl : Ring.Linked (fun i => (s.node i).next) (fun i => (s.node i).prev) l)
    (hidx : idx ∉ l) :
    Ensures A G (linkHead idx) s (fun _ => Relinked (idx :: l) (idx :: l.rotate 1) s)
      (fun _ _ => False) := by
  apply Ensures.read_bind
  match l with
  | [] =>
    have h0 : s.numLru = 0 := hlru
    rw [if_pos h0]
    apply Ensures.change
    refine ⟨rfl, rfl, rfl, rfl, ?_, fun b => by simp, fun b hb => ?_⟩
    · rw [List.rotate_nil, Ring.linked_singleton]
      simp
    · have hb : b ≠ idx := by simpa using hb
      exact (Kernel.node_setNext_of_ne hb).trans (Kernel.node_setPrev_of_ne hb)
  | [h] =>
    have hne : h ≠ idx := by
      rintro rfl
      exact hidx List.mem_cons_self
    have hn : (s.node h).next = some h := (Ring.linked_singleton.1 hl).1
    have h1 : s.numLru = 1 := hlru
    rw [if_neg (by omega), hhead]
    simp only [List.head?_cons]
    rw [if_pos h1]
    apply Ensures.change
    refine ⟨?_, by simp, by simp, rfl, ?_, fun b => by simp, fun b hb => ?_⟩
    · exact ((((RingOnly.refl s).setNext _ _).setPrev _ _).setPrev _ _ |>.setNext _ _).setHead _
    · rw [List.rotate_singleton]
      exact hl.insert (t := []) hnd hidx hn (by simp [hne]) (by simp) (by simp)
        (by simp [hne]) (by simp) (by simp)
    · have hb : b ≠ idx ∧ b ≠ h := by simpa using hb
      exact (Kernel.node_setNext_of_ne hb.1).trans ((Kernel.node_setPrev_of_ne hb.1).trans
        ((Kernel.node_setPrev_of_ne hb.2).trans (Kernel.node_setNext_of_ne hb.2)))
  | h :: n :: t =>
    have hne : h ≠ idx := by
      rintro rfl
      exact hidx List.mem_cons_self
    have hnidx : n ≠ idx := by
      rintro rfl
      exact hidx (List.mem_cons_of_mem _ List.mem_cons_self)
    have hnh : n ≠ h := by
      rintro rfl
      simp at hnd
    have hn : (s.node h).next = some n :=
      ((List.isChain_cons_cons.1 hl.isChain).1).1
    have h2 : s.numLru = t.length + 2 := hlru
    rw [if_neg (by omega), hhead]
    simp only [List.head?_cons]
    rw [if_neg (by omega), hn]
    apply Ensures.change
    refine ⟨?_, by simp, by simp, rfl, ?_, fun b => by simp, fun b hb => ?_⟩
    · exact ((((RingOnly.refl s).setNext _ _).setPrev _ _).setPrev _ _ |>.setNext _ _).setHead _
    · rw [List.rotate_cons_succ, List.rotate_zero]
      apply hl.insert hnd hidx hn
      · simp [hne]
      · simp
      · simp [hnidx.symm]
      · simp
      · intro b hb
        have hb1 : b ≠ idx := by
          rintro rfl
          exact hidx (List.mem_cons_of_mem _ hb)
        have hb2 : b ≠ h := by
          rintro rfl
          exact (List.nodup_cons.1 hnd).1 hb
        simp [hb1, hb2]
      · intro b hb hbn
        have hb1 : b ≠ idx := by
          rintro rfl
          exact hidx hb
        simp [hb1, hbn]
    · have hb : b ≠ idx ∧ b ≠ h ∧ b ≠ n := by
        simp only [List.mem_cons, not_or] at hb
        exact ⟨hb.1, hb.2.1, hb.2.2.1⟩
      exact (Kernel.node_setNext_of_ne hb.1).trans ((Kernel.node_setPrev_of_ne hb.2.2).trans
        ((Kernel.node_setPrev_of_ne hb.1).trans (Kernel.node_setNext_of_ne hb.2.1)))

/-- `lru_append` adds a node for the given address after the head, and stops only if no node is
left. -/
theorem lruAppend_spec (hr : RingOf s l) :
    Ensures A G (lruAppend d va) s (fun _ s' => RingOnly s s' ∧ s.numFree ≠ 0 ∧
      ∃ idx, idx ∉ l ∧ RingOf s' (idx :: l.rotate 1) ∧
        (s'.node idx).pgdir = d ∧ (s'.node idx).vaddr = va ∧
        ∀ b ∈ l, (s'.node b).pgdir = (s.node b).pgdir ∧ (s'.node b).vaddr = (s.node b).vaddr)
      (fun e s' => s' = s ∧ s.numFree = 0 ∧ ∀ k, e ≠ .swapRange k) := by
  apply Ensures.read_bind
  cases hg : s.getAvailableLinkedList with
  | none =>
    apply Ensures.stop
    refine ⟨rfl, ?_, by simp⟩
    by_contra hn
    obtain ⟨idx, hi⟩ := hr.exists_available hn
    rw [hg] at hi
    exact absurd hi (by simp)
  | some idx =>
    obtain ⟨hidx, hlt⟩ := hr.available hg
    by_cases hn : s.numFree = 0
    · simp only [if_pos hn]
      exact Ensures.stop ⟨rfl, hn, by simp⟩
    simp only [if_neg hn]
    have hnode : ∀ b, b ≠ idx → (s.setNode idx
        { s.node idx with pgdir := d, vaddr := va }).node b = s.node b :=
      fun b hb => Function.update_of_ne hb ..
    have hself : (s.setNode idx { s.node idx with pgdir := d, vaddr := va }).node idx =
        { s.node idx with pgdir := d, vaddr := va } := Function.update_self ..
    have hmem : ∀ b ∈ l, b ≠ idx := by
      rintro b hb rfl
      exact hidx hb
    apply Ensures.change_bind
    have hlinks := linkHead_spec (A := A) (G := G) (l := l)
      (s := s.setNode idx { s.node idx with pgdir := d, vaddr := va }) hr.numLru hr.head hr.nodup
      (hr.linked.congr (fun b hb => congrArg Page.next (hnode b (hmem b hb)))
        fun b hb => congrArg Page.prev (hnode b (hmem b hb))) hidx
    apply Ensures.bind (hlinks.mono (fun _ _ h => h) fun _ _ h => h.elim)
    rintro - s' ⟨hro, hlru, hfree, hhead, hlinked, hfields, hrest⟩
    have hperm : (l.rotate 1).Perm l := List.rotate_perm l 1
    apply Ensures.change
    refine ⟨?_, hn, idx, hidx, ⟨?_, ?_, ?_, ?_, ?_, ?_, ?_⟩, ?_, ?_, ?_⟩
    · have hro' : RingOnly s s' := by
        unfold RingOnly at hro ⊢
        exact hro
      unfold RingOnly at hro' ⊢
      rw [hro']
    · change s'.numLru + 1 = _
      rw [hlru, List.length_cons, hperm.length_eq]
      exact congrArg (· + 1) hr.numLru
    · change s'.numFree - 1 + _ = 1536 ∨ _
      have hf : s'.numFree = s.numFree := hfree
      rcases hr.numFree with h | h
      · left
        rw [hf, List.length_cons, hperm.length_eq]
        omega
      · exact absurd h.2 hn
    · exact hhead
    · exact List.nodup_cons.2 ⟨fun h => hidx (hperm.mem_iff.1 h), hperm.nodup_iff.2 hr.nodup⟩
    · intro i hi
      rcases List.mem_cons.1 hi with rfl | hi
      · exact hlt
      · exact hr.lt i (hperm.mem_iff.1 hi)
    · exact hlinked
    · intro i hi
      rw [List.mem_cons, hperm.mem_iff, ← List.mem_cons] at hi
      have hii : i ≠ idx := fun e => hi (e ▸ List.mem_cons_self)
      rw [show s'.node i = s.node i from (hrest i hi).trans (hnode i hii)]
      exact hr.zero i fun h => hi (List.mem_cons_of_mem _ h)
    · exact (hfields idx).1.trans (congrArg Page.pgdir hself)
    · exact (hfields idx).2.trans (congrArg Page.vaddr hself)
    · intro b hb
      have hb' := hnode b (hmem b hb)
      exact ⟨(hfields b).1.trans (congrArg Page.pgdir hb'),
        (hfields b).2.trans (congrArg Page.vaddr hb')⟩

theorem passHead_spec (hr : RingOf s l) (hi : i ∈ l) :
    Ensures A G (passHead i) s (fun _ s' => ∃ h, s' = { s with head := h } ∧
      (l ≠ [i] → h = (l.erase i).head?)) (fun _ _ => False) := by
  obtain ⟨h, t, rfl⟩ := List.exists_cons_of_ne_nil (List.ne_nil_of_mem hi)
  have hhead : s.head = some h := hr.head
  apply Ensures.change
  rw [hhead]
  by_cases e : h = i
  · subst e
    rw [if_pos rfl]
    refine ⟨_, rfl, fun hne => ?_⟩
    obtain ⟨b, t, rfl⟩ := List.exists_cons_of_ne_nil fun ht : t = [] => hne (by rw [ht])
    rw [List.erase_cons_head]
    exact (List.isChain_cons_cons.1 hr.linked.isChain).1.1
  · rw [if_neg fun he => e (Option.some.inj he)]
    refine ⟨_, rfl, fun _ => ?_⟩
    rw [List.erase_cons_tail (by simpa using e)]
    exact hhead

/-- The neighbours of a node are linked to each other. -/
theorem unlink_spec (hr : RingOf s l) (hi : i ∈ l) {h : Option ℕ}
    (hh : l ≠ [i] → h = (l.erase i).head?) :
    Ensures A G (unlink i) { s with head := h } (fun _ => Relinked l (l.erase i) s)
      (fun _ _ => False) := by
  apply Ensures.read_bind
  by_cases h1 : s.numLru = 1
  · obtain ⟨b, rfl⟩ := List.length_eq_one_iff.1 (hr.numLru.symm.trans h1)
    obtain rfl : i = b := List.mem_singleton.1 hi
    rw [if_pos h1, List.erase_cons_head]
    apply Ensures.change
    exact ⟨rfl, rfl, rfl, rfl, Ring.linked_nil, fun _ => ⟨rfl, rfl⟩, fun _ _ => rfl⟩
  have hne : l ≠ [i] := by
    rintro rfl
    exact h1 hr.numLru
  obtain ⟨n, hnl, hn, -⟩ := hr.linked.exists_next hi
  obtain ⟨p, hpl, -, hp⟩ := hr.linked.exists_prev hi
  have hpi := hr.linked.prev_ne hr.nodup hi hne hp
  have hni := hr.linked.next_ne hr.nodup hi hne hn
  rw [if_neg h1, hp, hn]
  apply Ensures.change
  refine ⟨rfl, rfl, rfl, hh hne, ?_, fun b => by simp, fun b hb => ?_⟩
  · apply hr.linked.erase hr.nodup hi hne hn hp
    · simp
    · simp
    · intro b _ _ hbp
      simp [hbp]
    · intro b _ _ hbn
      simp [hbn]
  · have hbp : b ≠ p := by
      rintro rfl
      exact hb hpl
    have hbn : b ≠ n := by
      rintro rfl
      exact hb hnl
    rw [Kernel.node_setPrev_of_ne hbn, Kernel.node_setNext_of_ne hbp]

/-- The node that has been taken out of the links is cleared. -/
theorem Relinked.clear (h : Relinked l (l.erase i) s s') (hr : RingOf s l) (hi : i ∈ l) :
    RingOf { s'.setNode i Page.zero with
      numFree := s'.numFree + 1, numLru := s'.numLru - 1 } (l.erase i) := by
  have hlen : 0 < l.length := List.length_pos_of_mem hi
  have herase := List.length_erase_of_mem hi
  have hnode : ∀ b, b ≠ i → (s'.setNode i Page.zero).node b = s'.node b :=
    fun b hb => Function.update_of_ne hb ..
  have hne : ∀ b ∈ l.erase i, b ≠ i := by
    rintro b hb rfl
    exact hr.nodup.not_mem_erase hb
  refine ⟨?_, .inl ?_, h.head, hr.nodup.erase i,
    fun b hb => hr.lt b (List.mem_of_mem_erase hb), ?_, fun b hb => ?_⟩
  · change s'.numLru - 1 = _
    rw [h.numLru, hr.numLru, herase]
  · change s'.numFree + 1 + _ = 1536
    rw [h.numFree]
    rcases hr.numFree with hf | hf
    · omega
    · rw [hf.1] at hlen
      exact absurd hlen (lt_irrefl 0)
  · exact h.linked.congr (fun b hb => congrArg Page.next (hnode b (hne b hb)))
      fun b hb => congrArg Page.prev (hnode b (hne b hb))
  · by_cases e : b = i
    · rw [e]
      exact Function.update_self ..
    · have hbl : b ∉ l := fun hbl => hb ((List.mem_erase_of_ne e).2 hbl)
      exact (hnode b e).trans ((h.other b hbl).trans (hr.zero b hbl))

theorem lruDelete_spec (hr : RingOf s l) (hi : i ∈ l) :
    Ensures A G (lruDelete i) s (fun _ s' => RingOnly s s' ∧ RingOf s' (l.erase i) ∧
      Running s' ∧ ∀ b, b ≠ i → (s'.node b).pgdir = (s.node b).pgdir ∧
        (s'.node b).vaddr = (s.node b).vaddr)
      (fun _ _ => False) := by
  have hlen : 0 < l.length := List.length_pos_of_mem hi
  apply Ensures.read_bind
  rw [if_neg (by rw [hr.numLru]; omega)]
  apply Ensures.bind (passHead_spec hr hi)
  rintro - _ ⟨h, rfl, hh⟩
  apply Ensures.bind (unlink_spec hr hi hh)
  rintro - s₂ hs₂
  apply Ensures.change
  refine ⟨?_, hs₂.clear hr hi, .inl (Nat.succ_ne_zero _), fun b hb => ?_⟩
  · have hro := hs₂.only
    unfold RingOnly at hro ⊢
    rw [hro]
    rfl
  · have hnode : (s₂.setNode i Page.zero).node b = s₂.node b := Function.update_of_ne hb ..
    exact ⟨(congrArg Page.pgdir hnode).trans (hs₂.names b).1,
      (congrArg Page.vaddr hnode).trans (hs₂.names b).2⟩

/-- What the scan of `kfree` for the frame `f` did to a ring. -/
def Unlisted (f : ℕ) (l : List ℕ) (s s' : Kernel) : Prop :=
  (s' = s ∧ ∀ i ∈ l, (s.entry i).pfn ≠ f) ∨
    ∃ i ∈ l, (s.entry i).pfn = f ∧ RingOnly s s' ∧ RingOf s' (l.erase i) ∧ Running s' ∧
      ∀ b, b ≠ i → (s'.node b).pgdir = (s.node b).pgdir ∧ (s'.node b).vaddr = (s.node b).vaddr

theorem scanLru_spec {f : ℕ} (hr : RingOf s l) (hp : ∀ i ∈ l, (s.entry i).p = true)
    (l₂ : List ℕ) : ∀ l₁, l = l₁ ++ l₂ → (∀ i ∈ l₁, (s.entry i).pfn ≠ f) →
      Ensures A G (scanLru f l₂.length l₂.head?) s (fun _ => Unlisted f l s)
        (fun _ _ => False) := by
  induction l₂ with
  | nil =>
    intro l₁ hl h₁
    rw [List.append_nil] at hl
    exact Ensures.pure (.inl ⟨rfl, hl ▸ h₁⟩)
  | cons a t ih =>
    intro l₁ hl h₁
    have ha : a ∈ l := hl ▸ List.mem_append_right _ List.mem_cons_self
    have hw : s.walkpgdir (s.node a).pgdir ((s.node a).vaddr / 4096) = some (s.entry a) :=
      Kernel.walk_of_present (hp a ha)
    apply Ensures.read_bind
    rw [hw]
    by_cases hf : (s.entry a).pfn = f
    · simp only [if_pos hf]
      apply (lruDelete_spec hr ha).mono
      · exact fun _ s' h => .inr ⟨a, ha, hf, h⟩
      · exact fun _ _ h => h.elim
    · simp only [if_neg hf]
      have hl' : l = (l₁ ++ [a]) ++ t := by rw [hl, List.append_assoc, List.singleton_append]
      have h₁' : ∀ i ∈ l₁ ++ [a], (s.entry i).pfn ≠ f := by
        intro i hi
        rcases List.mem_append.1 hi with hi | hi
        · exact h₁ i hi
        · exact List.mem_singleton.1 hi ▸ hf
      cases t with
      | nil => exact Ensures.pure (.inl ⟨rfl, hl ▸ h₁'⟩)
      | cons b t =>
        have hc := hr.linked.isChain
        rw [hl, List.isChain_append_cons_cons] at hc
        have hnext : (s.node a).next = (b :: t).head? := hc.2.1.1
        rw [hnext]
        exact ih _ hl' h₁'

theorem unlist_spec {f : ℕ} (hr : RingOf s l) (hp : ∀ i ∈ l, (s.entry i).p = true) :
    Ensures A G (unlist f) s (fun _ => Unlisted f l s) (fun _ _ => False) := by
  apply Ensures.read_bind
  rw [hr.head, hr.numLru]
  cases l with
  | nil => exact Ensures.pure (.inl ⟨rfl, fun i hi => absurd hi List.not_mem_nil⟩)
  | cons a t => exact scanLru_spec hr hp (a :: t) [] rfl fun i hi => absurd hi List.not_mem_nil

theorem initLru_spec :
    Ensures A G initLru s (fun _ s' => RingOnly s s' ∧ RingOf s' [] ∧ s'.numFree = 1536)
      (fun _ _ => False) :=
  Ensures.change ⟨rfl, ⟨rfl, .inl rfl, rfl, List.nodup_nil, fun _ hi => absurd hi List.not_mem_nil,
    Ring.linked_nil, fun _ _ => rfl⟩, rfl⟩

end
end Swap
