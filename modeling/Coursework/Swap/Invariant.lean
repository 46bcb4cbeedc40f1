import Coursework.Lib.Custody
import Coursework.Lib.Ring
import Coursework.Swap.PageTables
import Coursework.Swap.Vm

/-! What holds of the kernel state between two steps: who has which frame, which slots the
entries name, and which pages the LRU ring lists. -/
namespace Swap
namespace Kernel

/-- The directory and the page that a node stands for. -/
def names (s : Kernel) (i : ℕ) : ℕ × ℕ := ((s.node i).pgdir, (s.node i).vaddr / 4096)

/-- The entry of the page that a node stands for. -/
def entry (s : Kernel) (i : ℕ) : Pte := s.look (s.names i).1 (s.names i).2

/-- What a slot of the swap area holds. -/
def slotBytes (s : Kernel) (k o : ℕ) : ℕ := s.disk (k * 8 + 500 + o / 512) (o % 512)

end Kernel

/-- Which invariants hold beside the common ones: the free list is kept apart (`strict`), a
set bit is in use (`exact`), and a present page is on the ring (`covered`). The pages in
`skipped` are not on the ring. -/
structure Mode where
  strict : Prop
  exact : ℕ → Prop
  covered : ℕ → ℕ → Prop
  skipped : ℕ → ℕ → Prop

def Mode.lax (m : Mode) : Mode := { m with strict := False }

/-- Without the slot `k`. -/
def Mode.skipSlot (m : Mode) (k : ℕ) : Mode := { m with exact := fun k' => k' ≠ k ∧ m.exact k' }

/-- Without the page `v` of the directory `d`. -/
def Mode.skipPage (m : Mode) (d v : ℕ) : Mode :=
  { m with skipped := fun d' v' => d' = d ∧ v' = v ∨ m.skipped d' v' }

/-- The hand-outs from which the invariants follow. -/
def Admitted (strict : Prop) (h : Handout) : Prop :=
  (strict → h.before.freelist ≠ []) ∧
    (¬ strict → h.before.freelist ≠ [] → h.frame ∉ h.before.held)

/-- When `kalloc` returns the frame, it is not on the free list, no caller holds it, and no
present entry maps it. -/
def Exclusive (h : Handout) : Prop :=
  h.frame ∉ h.after.freelist ∧ h.frame ∉ h.after.held ∧
    ∀ d v, (h.after.look d v).p = true → (h.after.look d v).pfn ≠ h.frame

/-- Under `strict` every hand-out is exclusive. -/
def Granted (strict : Prop) (h : Handout) : Prop := strict → Exclusive h

/-- A slot out of range is used only when all slots in range are in use. -/
def Full (e : Panic) (s : Kernel) : Prop :=
  ∀ blkno, e = .swapRange blkno → ∀ k, 1 ≤ k → k < 12437 → s.bitmap k = true

/-- The LRU ring is linked, from `head` on, through the nodes `l`, and the other nodes are
zero. Before `init_lru` there are no free nodes. -/
structure RingOf (s : Kernel) (l : List ℕ) : Prop where
  numLru : s.numLru = l.length
  numFree : s.numFree + l.length = 1536 ∨ l = [] ∧ s.numFree = 0
  head : s.head = l.head?
  nodup : l.Nodup
  lt : ∀ i ∈ l, i < 1536
  linked : Ring.Linked (fun i => (s.node i).next) (fun i => (s.node i).prev) l
  zero : ∀ i, i ∉ l → s.node i = Page.zero

/-- Each node stands for a present page, no two for the same, and the pages of which the
mode says so have a node. -/
structure Lists (m : Mode) (s : Kernel) (l : List ℕ) : Prop where
  present : ∀ i ∈ l, (s.entry i).p = true
  apart : ∀ i ∈ l, ¬ m.skipped (s.names i).1 (s.names i).2
  inj : ∀ i ∈ l, ∀ j ∈ l, s.names i = s.names j → i = j
  covers : ∀ d v, m.covered d v → ¬ m.skipped d v → (s.look d v).p = true →
    ∃ i ∈ l, s.names i = (d, v) ∧ (s.node i).vaddr % 4096 = 0

/-- The swapped entries name distinct slots in range that hold what was evicted. -/
structure Slots (s : Kernel) : Prop where
  range : ∀ {d v}, (s.look d v).Swapped → 1 ≤ (s.look d v).pfn ∧ (s.look d v).pfn < 12437
  used : ∀ {d v}, (s.look d v).Swapped → s.bitmap (s.look d v).pfn = true
  inj : ∀ {d v d' v'}, (s.look d v).Swapped → (s.look d' v').Swapped →
    (s.look d v).pfn = (s.look d' v').pfn → d = d' ∧ v = v'
  stored : ∀ {d v}, (s.look d v).Swapped → ∃ e, s.evicted d v = some e ∧ e.pte.p = true ∧
    s.look d v = { e.pte with pfn := (s.look d v).pfn, p := false } ∧
    ∀ o < 4096, s.slotBytes (s.look d v).pfn o = e.node o

/-- Entries stand in the user half, page tables within the directory. -/
structure Tidy (s : Kernel) : Prop where
  user : ∀ {d v}, s.look d v ≠ Pte.zero → v < 524288
  table : ∀ {d D i t}, s.dirs d = some D → D.table i = some t → i < 1024

/-- The frames on the free list and those handed out. -/
structure Supply (m : Mode) (s : Kernel) : Prop where
  free_lt : ∀ f ∈ s.freelist, f < 1536
  held_lt : ∀ f ∈ s.held, f < 1536
  strict : m.strict → s.freelist.Nodup ∧ ∀ f ∈ s.freelist, f ∉ s.held

/-- The invariant, with the frames in `hand` not put to use yet. -/
structure Inv (m : Mode) (hand : List ℕ) (s : Kernel) : Prop where
  custody : Custody s.own (hand ++ s.kernel) s.held
  supply : Supply m s
  tidy : Tidy s
  slots : Slots s
  ring : ∃ l, RingOf s l ∧ Lists m s l
  exact : ∀ k, m.exact k → s.bitmap k = true → ∃ d v, (s.look d v).Swapped ∧ (s.look d v).pfn = k

/-- `init_lru` has been called. -/
def Running (s : Kernel) : Prop := s.numFree ≠ 0 ∨ s.head ≠ none

/-- Before `init_lru` there are no entries. -/
def Fresh (s : Kernel) : Prop := ¬ Running s → ∀ d v, s.look d v = Pte.zero

/-- What the calls of `kalloc` leave as it was, the directories and the absent pages apart
from those in `X`. -/
structure Grown (X : ℕ → ℕ → Prop) (s s' : Kernel) : Prop where
  dirs : ∀ {d}, (s.dirs d).isSome → (s'.dirs d).isSome
  walk : ∀ {d v}, (s.walkpgdir d v).isSome → (s'.walkpgdir d v).isSome
  look : ∀ {d v}, ¬ X d v → (s.look d v).p = false → s'.look d v = s.look d v
  evicted : ∀ {d v}, ¬ X d v → (s.look d v).p = false → s'.evicted d v = s.evicted d v
  kernel : s'.kernel = s.kernel
  running : Running s → Running s'

/-- The page `v` of the directory `d`. -/
def Only (d v d' v' : ℕ) : Prop := d' = d ∧ v' = v

/-- No page. -/
def Nowhere (_ _ : ℕ) : Prop := False

namespace Grown

variable {X Y : ℕ → ℕ → Prop} {s s' s'' : Kernel}

theorem refl (s : Kernel) : Grown X s s :=
  ⟨id, id, fun _ _ => rfl, fun _ _ => rfl, rfl, id⟩

theorem mono (h : Grown X s s') (hxy : ∀ d v, X d v → Y d v) : Grown Y s s' :=
  ⟨h.dirs, h.walk, fun hy => h.look (mt (hxy _ _) hy), fun hy => h.evicted (mt (hxy _ _) hy),
    h.kernel, h.running⟩

theorem trans (h : Grown X s s') (h' : Grown X s' s'') : Grown X s s'' where
  dirs hd := h'.dirs (h.dirs hd)
  walk hw := h'.walk (h.walk hw)
  look hx hp := by
    have e := h.look hx hp
    rw [h'.look hx (by rw [e, hp]), e]
  evicted hx hp := by
    have e := h.look hx hp
    rw [h'.evicted hx (by rw [e, hp]), h.evicted hx hp]
  kernel := h'.kernel.trans h.kernel
  running hr := h'.running (h.running hr)

theorem present (h : Grown X s s') {d v : ℕ} (hx : ¬ X d v) (hp : (s'.look d v).p = true) :
    (s.look d v).p = true := by
  by_contra hn
  rw [h.look hx (Bool.eq_false_of_not_eq_true hn)] at hp
  exact hn hp

theorem fresh (h : Grown Nowhere s s') (hf : Fresh s) : Fresh s' := by
  intro hr d v
  have hz := hf (mt h.running hr) d v
  rw [h.look id (by rw [hz]; rfl), hz]

end Grown

section
variable {m : Mode} {hand l l' : List ℕ} {s s' : Kernel} {d v f : ℕ} {e : Pte}

namespace Lists

theorem congr (h : Lists m s l) (hl : ∀ d v, (s'.look d v).p = (s.look d v).p)
    (hn : s'.node = s.node) : Lists m s' l := by
  have hnm : ∀ i, s'.names i = s.names i := fun i => by rw [Kernel.names, Kernel.names, hn]
  refine ⟨fun i hi => ?_, fun i hi => ?_, fun i hi j hj => ?_, fun d v hc hs hp => ?_⟩
  · rw [Kernel.entry, hnm, hl]
    exact h.present i hi
  · rw [hnm]
    exact h.apart i hi
  · rw [hnm, hnm]
    exact h.inj i hi j hj
  · obtain ⟨i, hi, hin, ha⟩ := h.covers d v hc hs (hl d v ▸ hp)
    exact ⟨i, hi, by rw [hnm, hin], by rw [hn, ha]⟩

theorem perm (h : Lists m s l) (hp : l'.Perm l) : Lists m s l' where
  present i hi := h.present i (hp.mem_iff.1 hi)
  apart i hi := h.apart i (hp.mem_iff.1 hi)
  inj i hi j hj := h.inj i (hp.mem_iff.1 hi) j (hp.mem_iff.1 hj)
  covers d v hc hs hv := by
    obtain ⟨i, hi, hin⟩ := h.covers d v hc hs hv
    exact ⟨i, hp.mem_iff.2 hi, hin⟩

theorem ne_of_absent (h : Lists m s l) (hp : (s.look d v).p = false) :
    ∀ i ∈ l, ¬ ((s.names i).1 = d ∧ (s.names i).2 = v) := by
  rintro i hi ⟨rfl, rfl⟩
  have hpi := h.present i hi
  rw [Kernel.entry, hp] at hpi
  cases hpi

theorem setPte_flags (h : Lists m s l) (hp : (s.look d v).p = true) (he : e.p = true) :
    Lists m (s.setPte d v e) l := by
  have hw : (s.walkpgdir d v).isSome := by rw [Kernel.walk_of_present hp]; rfl
  refine ⟨fun i hi => ?_, h.apart, h.inj, fun d' v' hc hs hp' => h.covers d' v' hc hs ?_⟩
  · rw [Kernel.entry, Kernel.look_setPte hw]
    split
    · exact he
    · exact h.present i hi
  · rw [Kernel.look_setPte hw] at hp'
    split at hp'
    case isTrue hc => rw [hc.1, hc.2, hp]
    case isFalse => exact hp'

theorem setPte_present (h : Lists m s l) (hw : (s.walkpgdir d v).isSome)
    (hp : (s.look d v).p = false) : Lists (m.skipPage d v) (s.setPte d v e) l where
  present i hi := by
    change ((s.setPte d v e).look (s.names i).1 (s.names i).2).p = true
    rw [Kernel.look_setPte hw, if_neg (h.ne_of_absent hp i hi)]
    exact h.present i hi
  apart i hi := not_or.2 ⟨h.ne_of_absent hp i hi, h.apart i hi⟩
  inj := h.inj
  covers d' v' hc hs hp' := by
    obtain ⟨hne, hs⟩ := not_or.1 hs
    rw [Kernel.look_setPte_of_ne hne] at hp'
    exact h.covers d' v' hc hs hp'

theorem setPte_absent (h : Lists (m.skipPage d v) s l) (hw : (s.walkpgdir d v).isSome)
    (he : e.p = false) : Lists m (s.setPte d v e) l where
  present i hi := by
    change ((s.setPte d v e).look (s.names i).1 (s.names i).2).p = true
    rw [Kernel.look_setPte_of_ne (not_or.1 (h.apart i hi)).1]
    exact h.present i hi
  apart i hi := (not_or.1 (h.apart i hi)).2
  inj := h.inj
  covers d' v' hc hs hp := by
    rw [Kernel.look_setPte hw] at hp
    split at hp
    case isTrue => simp [he] at hp
    case isFalse hne => exact h.covers d' v' hc (not_or.2 ⟨hne, hs⟩) hp

theorem uncovered (h : Lists (m.skipPage d v) s l) (hc : ¬ m.covered d v) : Lists m s l where
  present := h.present
  apart i hi := (not_or.1 (h.apart i hi)).2
  inj := h.inj
  covers d' v' hc' hs hp := by
    refine h.covers d' v' hc' (not_or.2 ⟨?_, hs⟩) hp
    rintro ⟨rfl, rfl⟩
    exact hc hc'

theorem skip (h : Lists m s l) (hn : ∀ i ∈ l, ¬ ((s.names i).1 = d ∧ (s.names i).2 = v)) :
    Lists (m.skipPage d v) s l where
  present := h.present
  apart i hi := not_or.2 ⟨hn i hi, h.apart i hi⟩
  inj := h.inj
  covers d' v' hc hs hp := h.covers d' v' hc (not_or.1 hs).2 hp

/-- A page gets its node. -/
theorem append {idx va : ℕ} (h : Lists (m.skipPage d v) s l) (hp : (s.look d v).p = true)
    (hd : s'.dirs = s.dirs) (hperm : l'.Perm l) (hpg : (s'.node idx).pgdir = d)
    (hva : (s'.node idx).vaddr = va) (hv : va / 4096 = v) (ha : m.covered d v → va % 4096 = 0)
    (hs : ¬ m.skipped d v) (hkeep : ∀ b ∈ l, (s'.node b).pgdir = (s.node b).pgdir ∧
      (s'.node b).vaddr = (s.node b).vaddr) : Lists m s' (idx :: l') := by
  have hnm : ∀ b ∈ l, s'.names b = s.names b := fun b hb => by
    rw [Kernel.names, Kernel.names, (hkeep b hb).1, (hkeep b hb).2]
  have hidx : s'.names idx = (d, v) := by rw [Kernel.names, hpg, hva, hv]
  have hmem : ∀ {b}, b ∈ idx :: l' → b = idx ∨ b ∈ l := by
    intro b hb
    rwa [List.mem_cons, hperm.mem_iff] at hb
  have hne : ∀ b ∈ l, s'.names b ≠ (d, v) := by
    intro b hb e
    rw [hnm b hb] at e
    exact h.apart b hb (.inl ⟨congrArg Prod.fst e, congrArg Prod.snd e⟩)
  refine ⟨fun i hi => ?_, fun i hi => ?_, fun i hi j hj hij => ?_, fun d' v' hc hs' hp' => ?_⟩
  · rw [Kernel.entry, Kernel.look_congr hd]
    rcases hmem hi with rfl | hi
    · rwa [hidx]
    · rw [hnm i hi]
      exact h.present i hi
  · rcases hmem hi with rfl | hi
    · rwa [hidx]
    · rw [hnm i hi]
      exact (not_or.1 (h.apart i hi)).2
  · rcases hmem hi with hi' | hi' <;> rcases hmem hj with hj' | hj'
    · rw [hi', hj']
    · rw [hi'] at hij
      exact absurd (hij.symm.trans hidx) (hne j hj')
    · rw [hj'] at hij
      exact absurd (hij.trans hidx) (hne i hi')
    · rw [hnm i hi', hnm j hj'] at hij
      exact h.inj i hi' j hj' hij
  · by_cases hdv : d' = d ∧ v' = v
    · obtain ⟨rfl, rfl⟩ := hdv
      exact ⟨idx, List.mem_cons_self, hidx, hva ▸ ha hc⟩
    · rw [Kernel.look_congr hd] at hp'
      obtain ⟨i, hi, hin, hal⟩ := h.covers d' v' hc (not_or.2 ⟨hdv, hs'⟩) hp'
      refine ⟨i, List.mem_cons_of_mem _ (hperm.mem_iff.2 hi), by rw [hnm i hi, hin], ?_⟩
      rw [(hkeep i hi).2, hal]

/-- A node is taken out, and its page stays behind. -/
theorem erase {i : ℕ} (h : Lists m s l) (hnd : l.Nodup) (hi : i ∈ l) (hd : s'.dirs = s.dirs)
    (hkeep : ∀ b, b ≠ i → (s'.node b).pgdir = (s.node b).pgdir ∧
      (s'.node b).vaddr = (s.node b).vaddr) :
    Lists (m.skipPage (s.names i).1 (s.names i).2) s' (l.erase i) := by
  have hmem : ∀ {b}, b ∈ l.erase i → b ∈ l ∧ b ≠ i := fun hb =>
    ⟨List.mem_of_mem_erase hb, (hnd.mem_erase_iff.1 hb).1⟩
  have hnm : ∀ {b}, b ≠ i → s'.names b = s.names b := fun hb => by
    rw [Kernel.names, Kernel.names, (hkeep _ hb).1, (hkeep _ hb).2]
  refine ⟨fun b hb => ?_, fun b hb => ?_, fun a ha b hb hab => ?_, fun d' v' hc hs hp => ?_⟩
  · rw [Kernel.entry, Kernel.look_congr hd, hnm (hmem hb).2]
    exact h.present b (hmem hb).1
  · rw [hnm (hmem hb).2]
    refine not_or.2 ⟨fun e => (hmem hb).2 ?_, h.apart b (hmem hb).1⟩
    exact h.inj b (hmem hb).1 i hi (Prod.ext e.1 e.2)
  · rw [hnm (hmem ha).2, hnm (hmem hb).2] at hab
    exact h.inj a (hmem ha).1 b (hmem hb).1 hab
  · rw [Kernel.look_congr hd] at hp
    obtain ⟨hne, hs⟩ := not_or.1 hs
    obtain ⟨b, hb, hin, hal⟩ := h.covers d' v' hc hs hp
    have hbi : b ≠ i := by
      rintro rfl
      exact hne ⟨congrArg Prod.fst hin.symm, congrArg Prod.snd hin.symm⟩
    exact ⟨b, hnd.mem_erase_iff.2 ⟨hbi, hb⟩, by rw [hnm hbi, hin], by rw [(hkeep b hbi).2, hal]⟩

end Lists

namespace Slots

/-- An entry that names no slot. -/
theorem setPte (h : Slots s) (hw : (s.walkpgdir d v).isSome) (he : ¬ e.Swapped) :
    Slots (s.setPte d v e) := by
  have key : ∀ {d' v'}, ((s.setPte d v e).look d' v').Swapped →
      (s.setPte d v e).look d' v' = s.look d' v' := by
    intro d' v' hs
    rw [Kernel.look_setPte hw] at hs ⊢
    split
    case isTrue hc => exact absurd (by rwa [if_pos hc] at hs) he
    case isFalse => rfl
  refine ⟨fun hs => ?_, fun hs => ?_, fun hs hs' hk => ?_, fun hs => ?_⟩
  · have he := key hs
    rw [he] at hs ⊢
    exact h.range hs
  · have he := key hs
    rw [he] at hs ⊢
    exact h.used hs
  · rw [key hs, key hs'] at hk
    exact h.inj (key hs ▸ hs) (key hs' ▸ hs') hk
  · have he := key hs
    rw [he] at hs ⊢
    exact h.stored hs

/-- An entry that names a slot of its own. -/
theorem setPte_swapped (h : Slots s) (hw : (s.walkpgdir d v).isSome)
    (hrange : 1 ≤ e.pfn ∧ e.pfn < 12437) (hused : s.bitmap e.pfn = true)
    (hother : ∀ d' v', (s.look d' v').Swapped → (s.look d' v').pfn ≠ e.pfn)
    (hstored : ∃ ev, s.evicted d v = some ev ∧ ev.pte.p = true ∧
      e = { ev.pte with pfn := e.pfn, p := false } ∧
      ∀ o < 4096, s.slotBytes e.pfn o = ev.node o) :
    Slots (s.setPte d v e) := by
  have key : ∀ d' v', (d' = d ∧ v' = v) ∧ (s.setPte d v e).look d' v' = e ∨
      ¬ (d' = d ∧ v' = v) ∧ (s.setPte d v e).look d' v' = s.look d' v' := by
    intro d' v'
    rw [Kernel.look_setPte hw]
    by_cases hc : d' = d ∧ v' = v
    · exact .inl ⟨hc, if_pos hc⟩
    · exact .inr ⟨hc, if_neg hc⟩
  refine ⟨fun {d' v'} hs => ?_, fun {d' v'} hs => ?_, fun {d₁ v₁ d₂ v₂} hs hs' hk => ?_,
    fun {d' v'} hs => ?_⟩
  · obtain ⟨-, he⟩ | ⟨-, he⟩ := key d' v'
    · rw [he]
      exact hrange
    · rw [he] at hs ⊢
      exact h.range hs
  · obtain ⟨-, he⟩ | ⟨-, he⟩ := key d' v'
    · rw [he]
      exact hused
    · rw [he] at hs ⊢
      exact h.used hs
  · obtain ⟨hc, he⟩ | ⟨-, he⟩ := key d₁ v₁
    · obtain ⟨hc', -⟩ | ⟨-, he'⟩ := key d₂ v₂
      · exact ⟨hc.1.trans hc'.1.symm, hc.2.trans hc'.2.symm⟩
      · rw [he, he'] at hk
        exact absurd hk.symm (hother _ _ (he' ▸ hs'))
    · obtain ⟨-, he'⟩ | ⟨-, he'⟩ := key d₂ v₂
      · rw [he, he'] at hk
        exact absurd hk (hother _ _ (he ▸ hs))
      · rw [he, he'] at hk
        exact h.inj (he ▸ hs) (he' ▸ hs') hk
  · obtain ⟨⟨rfl, rfl⟩, he⟩ | ⟨-, he⟩ := key d' v'
    · rw [he]
      exact hstored
    · rw [he] at hs ⊢
      exact h.stored hs

end Slots

namespace Tidy

theorem setPte (h : Tidy s) (hw : (s.walkpgdir d v).isSome) (he : e ≠ Pte.zero → v < 524288) :
    Tidy (s.setPte d v e) where
  user {d' v'} hl := by
    rw [Kernel.look_setPte hw] at hl
    split at hl
    case isTrue hc => exact hc.2 ▸ he hl
    case isFalse => exact h.user hl
  table {d' D i t} hd ht := by
    rw [Kernel.dirs_setPte] at hd
    split at hd
    case isTrue =>
      obtain ⟨D', hD', rfl⟩ := Option.map_eq_some_iff.1 hd
      exact h.table hD' ht
    case isFalse => exact h.table hd ht

end Tidy

theorem Inv.setMem (h : Inv m hand s) (f : ℕ) (b : ℕ → ℕ) : Inv m hand (s.setMem f b) :=
  ⟨h.custody, ⟨h.supply.1, h.supply.2, h.supply.3⟩, ⟨h.tidy.1, h.tidy.2⟩,
    ⟨h.slots.1, h.slots.2, h.slots.3, h.slots.4⟩,
    h.ring.imp fun _ hl => ⟨⟨hl.1.1, hl.1.2, hl.1.3, hl.1.4, hl.1.5, hl.1.6, hl.1.7⟩,
      hl.2.congr (fun _ _ => rfl) rfl⟩, h.exact⟩

theorem Inv.held_lt_of_own (h : Inv m hand s) {o : Owner} (ho : s.own o = some f) : f < 1536 :=
  h.supply.held_lt f (h.custody.held_of_own ho)

theorem Inv.page_inj (h : Inv m hand s) {d' v' : ℕ} (hp : (s.look d v).p = true)
    (hp' : (s.look d' v').p = true) (hf : (s.look d v).pfn = (s.look d' v').pfn) :
    d = d' ∧ v = v' := by
  have e := h.custody.inj (Kernel.own_page_of_present hp)
    (hf ▸ Kernel.own_page_of_present hp')
  rwa [Owner.page.injEq] at e

end
end Swap
