import Coursework.Swap.Release

/-! The second chance of `clock`: it goes around the ring, clears accessed bits, and comes to
an end within one round. -/
namespace Swap
open Program

/-- What `clock` may change. -/
structure Swept (s s' : Kernel) : Prop extends Kept s s' where
  only : s' = { s with dirs := s'.dirs, head := s'.head }

namespace Swept

variable {s s' s'' : Kernel}

theorem refl (s : Kernel) : Swept s s := ⟨Kept.refl s, rfl⟩

theorem trans (h : Swept s s') (h' : Swept s' s'') : Swept s s'' := by
  refine ⟨h.toKept.trans h'.toKept, ?_⟩
  have e := h'.only
  rw [h.only] at e
  exact e

theorem freelist (h : Swept s s') : s'.freelist = s.freelist := by
  have e := congrArg Kernel.freelist h.only
  exact e

theorem held (h : Swept s s') : s'.held = s.held := by
  have e := congrArg Kernel.held h.only
  exact e

theorem bitmap (h : Swept s s') : s'.bitmap = s.bitmap := by
  have e := congrArg Kernel.bitmap h.only
  exact e

theorem numFree (h : Swept s s') : s'.numFree = s.numFree := by
  have e := congrArg Kernel.numFree h.only
  exact e

end Swept

section
variable {m : Mode} {hand l : List ℕ} {s : Kernel} {d v h : ℕ} {e : Pte}

/-- The head moves back by one node. -/
theorem RingOf.back (hr : RingOf s l) (hh : s.head = some h) :
    ∃ l', l'.Perm l ∧ RingOf { s with head := (s.node h).prev } l' := by
  have hl : l ≠ [] := by
    rintro rfl
    rw [hr.head] at hh
    cases hh
  obtain ⟨t, z, rfl⟩ := l.eq_nil_or_concat'.resolve_left hl
  obtain ⟨a, t', ht⟩ := List.exists_cons_of_ne_nil hl
  obtain rfl : a = h := by
    rw [hr.head, ht] at hh
    exact Option.some.inj hh
  have hprev : (s.node a).prev = some z := (hr.linked.link_head ht).2
  have hperm : (z :: t).Perm (t ++ [z]) := (List.perm_append_singleton z t).symm
  refine ⟨z :: t, hperm, ?_, ?_, hprev, hperm.nodup_iff.2 hr.nodup, fun i hi => ?_,
    hr.linked.rotate (List.isRotated_concat z t), fun i hi => ?_⟩
  · rw [hperm.length_eq]
    exact hr.numLru
  · rw [hperm.length_eq]
    exact hr.numFree.imp id fun e => absurd e.1 hl
  · exact hr.lt i (hperm.mem_iff.1 hi)
  · exact hr.zero i (mt hperm.mem_iff.2 hi)

theorem RingOf.running_back (hr : RingOf s l) (hh : h ∈ l) :
    Running s → Running { s with head := (s.node h).prev } := by
  rintro (hnf | -)
  · exact .inl hnf
  · obtain ⟨z, -, -, hz⟩ := hr.linked.exists_prev hh
    refine .inr ?_
    change (s.node h).prev ≠ none
    rw [show (s.node h).prev = some z from hz]
    exact Option.some_ne_none z

theorem Kept.flags (hp : (s.look d v).p = true) : Kept s (s.setPte d v e) := by
  have hdirs : ∀ d', ((s.setPte d v e).dirs d').map Dir.table = (s.dirs d').map Dir.table := by
    intro d'
    rw [Kernel.dirs_setPte]
    split
    case isTrue hd => rw [hd, Option.map_map]; rfl
    case isFalse => rfl
  have hne : ∀ {d' v'}, (s.look d' v').p = false → ¬ (d' = d ∧ v' = v) := by
    rintro d' v' hp' ⟨rfl, rfl⟩
    rw [hp] at hp'
    cases hp'
  exact ⟨⟨fun hd => by rwa [Kernel.dirs_isSome_setPte],
    fun hw => by rwa [Kernel.isSome_walkpgdir_setPte],
    fun _ hp' => Kernel.look_setPte_of_ne (hne hp'), fun _ _ => rfl, rfl, id⟩, hdirs⟩

/-- Clearing the accessed bit of a node's page clears that node's bit only. -/
theorem Lists.count_clear {i : ℕ} (hl : Lists m s l) (hi : i ∈ l) (hnd : l.Nodup)
    (ha : (s.entry i).a = true) :
    l.countP (fun b => ((s.setPte (s.names i).1 (s.names i).2
      { s.entry i with a := false }).entry b).a) + 1 = l.countP fun b => (s.entry b).a := by
  have hw : (s.walkpgdir (s.names i).1 (s.names i).2).isSome := by
    rw [Kernel.walk_of_present (hl.present i hi)]
    rfl
  set s' := s.setPte (s.names i).1 (s.names i).2 { s.entry i with a := false } with hs'
  have hself : (s'.entry i).a = false := by
    change (s'.look (s.names i).1 (s.names i).2).a = false
    rw [hs', Kernel.look_setPte_self hw]
  have hother : ∀ b ∈ l, b ≠ i → s'.entry b = s.entry b := by
    intro b hb hbi
    change s'.look (s.names b).1 (s.names b).2 = _
    rw [hs', Kernel.look_setPte_of_ne]
    · rfl
    · exact fun hc => hbi (hl.inj b hb i hi (Prod.ext hc.1 hc.2))
  obtain ⟨l₁, l₂, rfl⟩ := List.append_of_mem hi
  obtain ⟨hi', -⟩ := List.nodup_cons.1 (List.nodup_middle.1 hnd)
  have hrest : ∀ l' : List ℕ, (∀ b ∈ l', b ∈ l₁ ++ l₂) → (∀ b ∈ l', b ∈ l₁ ++ i :: l₂) →
      l'.countP (fun b => (s'.entry b).a) = l'.countP fun b => (s.entry b).a := by
    intro l' hsub hsub'
    apply List.countP_congr
    intro b hb
    rw [hother b (hsub' b hb) fun e => hi' (e ▸ hsub b hb)]
  have h₁ := hrest l₁ (fun b => List.mem_append_left _) fun b => List.mem_append_left _
  have h₂ := hrest l₂ (fun b => List.mem_append_right _) fun b hb =>
    List.mem_append_right _ (List.mem_cons_of_mem _ hb)
  rw [List.countP_append, List.countP_append, List.countP_cons, List.countP_cons, h₁, h₂, hself,
    ha]
  rfl

variable {A G : Handout → Prop}

theorem clockFrom_spec (n : ℕ) : ∀ {s : Kernel} {l : List ℕ}, Inv m hand s → RingOf s l →
    Lists m s l → (l.countP fun i => (s.entry i).a) < n →
    Ensures A G (clockFrom n) s (fun i s' => Inv m hand s' ∧ Swept s s' ∧
      ∃ l', RingOf s' l' ∧ Lists m s' l' ∧ i ∈ l')
      (fun e _ => e = .fault ∨ e = .invalidHead) := by
  induction n with
  | zero => exact fun _ _ _ hn => absurd hn (Nat.not_lt_zero _)
  | succ n ih =>
    intro s l hinv hr hl hn
    apply Ensures.read_bind
    cases hh : s.head with
    | none => exact Ensures.stop (.inl rfl)
    | some h =>
      dsimp only
      split
      · exact Ensures.stop (.inr rfl)
      have hmem : h ∈ l := List.mem_of_mem_head? (hr.head ▸ hh)
      have hp : (s.entry h).p = true := hl.present h hmem
      have hw : s.walkpgdir (s.node h).pgdir ((s.node h).vaddr / 4096) = some (s.entry h) :=
        Kernel.walk_of_present hp
      rw [hw]
      dsimp only
      obtain ⟨l', hperm, hr'⟩ := hr.back hh
      by_cases ha : (s.entry h).a = true
      · rw [if_pos ha]
        apply Ensures.change_bind
        -- The accessed bit goes, and with it one of the rounds that may be left.
        have hinv₁ := hinv.flags (e := { s.entry h with a := false }) hp hp rfl
        have hl₁ := (hl.setPte_flags (e := { s.entry h with a := false }) hp hp).perm hperm
        have hcount := hl.count_clear hmem hr.nodup ha
        have hr₁ : RingOf { s.setPte (s.names h).1 (s.names h).2 { s.entry h with a := false } with
            head := (s.node h).prev } l' := hr'.congr ⟨rfl, rfl, rfl, rfl⟩
        have hl₂ : Lists m { s.setPte (s.names h).1 (s.names h).2 { s.entry h with a := false } with
            head := (s.node h).prev } l' := hl₁.congr (fun _ _ => rfl) rfl
        have hinv₂ := hinv₁.relist (RingOnly.setHead (RingOnly.refl _) _) hr₁ hl₂ rfl rfl
        have hcount₂ : (l'.countP fun i => (Kernel.entry { s.setPte (s.names h).1 (s.names h).2
            { s.entry h with a := false } with head := (s.node h).prev } i).a) < n := by
          rw [hperm.countP_eq]
          change (l.countP fun b => ((s.setPte (s.names h).1 (s.names h).2
            { s.entry h with a := false }).entry b).a) < n
          omega
        apply (ih hinv₂ hr₁ hl₂ hcount₂).mono _ fun _ _ he => he
        rintro i s' ⟨hi, hs, hring⟩
        refine ⟨hi, Swept.trans ⟨?_, rfl⟩ hs, hring⟩
        have hk := Kept.flags (e := { s.entry h with a := false }) hp
        exact ⟨⟨hk.dirs, hk.walk, hk.look, hk.evicted, hk.kernel, hr.running_back hmem⟩, hk.table⟩
      · rw [if_neg ha]
        apply Ensures.change_bind
        apply Ensures.pure
        have hl' : Lists m { s with head := (s.node h).prev } l' :=
          (hl.perm hperm).congr (fun _ _ => rfl) rfl
        refine ⟨hinv.relist (RingOnly.setHead (RingOnly.refl _) _) hr' hl' rfl rfl, ⟨?_, rfl⟩,
          l', hr', hl', hperm.mem_iff.2 hmem⟩
        exact ⟨⟨id, id, fun _ _ => rfl, fun _ _ => rfl, rfl, hr.running_back hmem⟩,
          fun _ => rfl⟩

theorem clock_spec (h : Inv m hand s) :
    Ensures A G clock s (fun i s' => Inv m hand s' ∧ Swept s s' ∧
      ∃ l, RingOf s' l ∧ Lists m s' l ∧ i ∈ l)
      (fun e _ => e = .fault ∨ e = .invalidHead) := by
  obtain ⟨l, hr, hl⟩ := h.ring
  apply Ensures.read_bind
  apply clockFrom_spec _ h hr hl
  rw [hr.numLru]
  exact Nat.lt_succ_of_le List.countP_le_length

end
end Swap
