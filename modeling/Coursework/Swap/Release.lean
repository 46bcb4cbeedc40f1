import Coursework.Swap.Updates

/-! The frames that go back: `kfree`, `deallocuvm` and `freevm`. -/
namespace Swap
open Program

/-- What a program ensures under the mode `m`. -/
abbrev Meets {α : Type} (m : Mode) (p : M α) (s : Kernel) (Q : α → Kernel → Prop) : Prop :=
  Ensures (Admitted m.strict) (Granted m.strict) p s Q Full

theorem full_of_ne {e : Panic} {s : Kernel} (h : ∀ k, e ≠ .swapRange k) : Full e s :=
  fun k hk => absurd hk (h k)

section
variable {m : Mode} {hand : List ℕ} {s : Kernel} {d v f : ℕ}

theorem kfree_other (h : Inv m hand s)
    (hf : ∀ d v, (s.look d v).p = true → (s.look d v).pfn ≠ f) :
    Meets m (kfree f) s (fun _ s' => s' = s.pushFree f) := by
  obtain ⟨l, hr, hl⟩ := h.ring
  apply Ensures.read_bind
  split
  case isTrue => exact Ensures.stop (full_of_ne (by simp))
  case isFalse =>
    apply Ensures.bind ((unlist_spec hr hl.present).mono (fun _ _ h => h) fun _ _ h => h.elim)
    rintro - s' hs'
    apply Ensures.change
    rcases hs' with ⟨rfl, -⟩ | ⟨i, hi, hif, -⟩
    · rfl
    · exact absurd hif (hf _ _ (hl.present i hi))

theorem kfree_page (h : Inv m hand s) (hp : (s.look d v).p = true) :
    Meets m (kfree (s.look d v).pfn) s (fun _ s' => ∃ s₁, s' = s₁.pushFree (s.look d v).pfn ∧
      Inv (m.skipPage d v) hand s₁ ∧ RingOnly s s₁ ∧ (Running s → Running s₁)) := by
  obtain ⟨l, hr, hl⟩ := h.ring
  apply Ensures.read_bind
  split
  case isTrue => exact Ensures.stop (full_of_ne (by simp))
  case isFalse =>
    apply Ensures.bind ((unlist_spec hr hl.present).mono (fun _ _ h => h) fun _ _ h => h.elim)
    rintro - s₁ hs₁
    apply Ensures.change
    refine ⟨s₁, rfl, ?_⟩
    rcases hs₁ with ⟨rfl, hne⟩ | ⟨i, hi, hif, hro, hr', hrun, hkeep⟩
    · have hskip : Lists (m.skipPage d v) s₁ l := hl.skip fun i hi e => by
        apply hne i hi
        rw [Kernel.entry, e.1, e.2]
      exact ⟨h.relist (RingOnly.refl _) hr hskip rfl rfl, RingOnly.refl _, id⟩
    · obtain ⟨rfl, rfl⟩ := h.page_inj hp (hl.present i hi) hif.symm
      exact ⟨h.relist hro hr' (hl.erase hr.nodup hi hro.dirs hkeep) rfl rfl, hro, fun _ => hrun⟩

/-- What the release of pages leaves as it was. -/
structure Shrunk (s s' : Kernel) : Prop where
  look : ∀ d v, s'.look d v = s.look d v ∨ s'.look d v = Pte.zero
  swapped : ∀ {d v}, (s.look d v).p = false → s'.look d v = s.look d v
  dirs : ∀ d, (s'.dirs d).isSome = (s.dirs d).isSome
  kernel : s'.kernel = s.kernel
  running : Running s → Running s'

namespace Shrunk

variable {s' s'' : Kernel}

theorem refl (s : Kernel) : Shrunk s s :=
  ⟨fun _ _ => .inl rfl, fun _ => rfl, fun _ => rfl, rfl, id⟩

theorem trans (h : Shrunk s s') (h' : Shrunk s' s'') : Shrunk s s'' where
  look d v := by
    rcases h'.look d v with e | e
    · rw [e]
      exact h.look d v
    · exact .inr e
  swapped hp := by
    have e := h.swapped hp
    rw [h'.swapped (by rw [e, hp]), e]
  dirs d := (h'.dirs d).trans (h.dirs d)
  kernel := h'.kernel.trans h.kernel
  running hr := h'.running (h.running hr)

theorem absent (h : Shrunk s s') (hp : (s.look d v).p = false) : (s'.look d v).p = false := by
  rw [h.swapped hp, hp]

theorem fresh (h : Shrunk s s') (hf : Fresh s) : Fresh s' := by
  intro hr d v
  rcases h.look d v with e | e
  · rw [e]
    exact hf (mt h.running hr) d v
  · exact e

end Shrunk

theorem deallocPage_spec (h : Inv m hand s) : Meets m (deallocPage d v) s (fun _ s' =>
    Inv m hand s' ∧ Shrunk s s' ∧ (s'.look d v).p = false) := by
  apply Ensures.read_bind
  cases hw : s.walkpgdir d v with
  | none =>
    apply Ensures.pure
    refine ⟨h, Shrunk.refl s, ?_⟩
    rw [Kernel.look_of_not_walk hw]
    rfl
  | some pte =>
    obtain rfl : s.look d v = pte := Kernel.look_of_walk hw
    dsimp only
    by_cases hp : (s.look d v).p = true
    · rw [if_pos hp]
      split
      · exact Ensures.stop (full_of_ne (by simp))
      apply Ensures.bind (kfree_page h hp)
      rintro - _ ⟨s₁, rfl, hinv, hro, hrun⟩
      apply Ensures.change
      have hl₁ : ∀ {d v}, s₁.look d v = s.look d v := fun {d v} => Kernel.look_congr hro.dirs
      have hw₁ : (s₁.walkpgdir d v).isSome := by rw [Kernel.walkpgdir_congr hro.dirs, hw]; rfl
      have hinv' := hinv.unmap_zero (by rw [hl₁, hp])
      rw [hl₁] at hinv'
      have hlook : ∀ d' v', (s₁.setPte d v Pte.zero).look d' v' =
          if d' = d ∧ v' = v then Pte.zero else s.look d' v' := fun d' v' => by
        rw [Kernel.look_setPte hw₁, hl₁]
      -- The page is unmapped after its frame has gone back, which makes no difference.
      have hcomm : (s₁.pushFree (s.look d v).pfn).setPte d v Pte.zero =
          (s₁.setPte d v Pte.zero).pushFree (s.look d v).pfn := rfl
      rw [hcomm]
      refine ⟨hinv'.pushFree, ⟨fun d' v' => ?_, fun {d' v'} hp' => ?_, fun d' => ?_, hro.kernel,
        hrun⟩, ?_⟩
      · change (s₁.setPte d v Pte.zero).look d' v' = _ ∨ (s₁.setPte d v Pte.zero).look d' v' = _
        rw [hlook]
        split
        · exact .inr rfl
        · exact .inl rfl
      · change (s₁.setPte d v Pte.zero).look d' v' = _
        rw [hlook, if_neg]
        rintro ⟨rfl, rfl⟩
        rw [hp] at hp'
        cases hp'
      · change ((s₁.setPte d v Pte.zero).dirs d').isSome = _
        rw [Kernel.dirs_isSome_setPte, hro.dirs]
      · change ((s₁.setPte d v Pte.zero).look d v).p = false
        rw [hlook, if_pos ⟨rfl, rfl⟩]
        rfl
    · rw [if_neg hp]
      exact Ensures.pure ⟨h, Shrunk.refl s, by simpa using hp⟩

theorem deallocuvm_spec {oldsz newsz : ℕ} (h : Inv m hand s) :
    Meets m (deallocuvm d oldsz newsz) s (fun _ s' => Inv m hand s' ∧ Shrunk s s' ∧
      (newsz < oldsz → ∀ v ∈ pageRange newsz oldsz, (s'.look d v).p = false)) := by
  unfold deallocuvm
  split
  case isTrue hle =>
    exact Ensures.pure ⟨h, Shrunk.refl s, fun hlt => absurd hlt (Nat.not_lt.2 hle)⟩
  case isFalse =>
    -- What is left of the range may still be present.
    have hloop := Ensures.forM (f := fun v => deallocPage d v) (E := Full)
      (A := Admitted m.strict) (G := Granted m.strict)
      (I := fun vs s' => Inv m hand s' ∧ Shrunk s s' ∧
        ∀ v ∈ pageRange newsz oldsz, v ∉ vs → (s'.look d v).p = false)
      (fun v vs s' ⟨hi, hs, hgone⟩ => by
        apply (deallocPage_spec hi).mono _ fun _ _ he => he
        rintro - s'' ⟨hi', hs', hv⟩
        refine ⟨hi', hs.trans hs', fun v' hmem hvs => ?_⟩
        by_cases hvv : v' = v
        · rw [hvv, hv]
        · exact hs'.absent (hgone v' hmem fun hc => (List.mem_cons.1 hc).elim hvv hvs))
      (pageRange newsz oldsz) (s := s)
      ⟨h, Shrunk.refl s, fun v hmem hv => absurd hmem hv⟩
    apply Ensures.bind hloop
    rintro - s' ⟨hi, hs, hgone⟩
    exact Ensures.pure ⟨hi, hs, fun _ v hv => hgone v hv List.not_mem_nil⟩

theorem kfree_owned {o : Owner} (h : Inv m hand s) (ho : s.own o = some f)
    (hpage : ∀ d v, o ≠ .page d v) :
    Meets m (kfree f) s (fun _ s' => s' = s.pushFree f) := by
  apply kfree_other h
  rintro d v hp rfl
  exact hpage d v (h.custody.inj ho (Kernel.own_page_of_present hp))

/-- While `freevm` runs through the directory `d`: the tables at the indices in `is` are
left. -/
structure Emptied (m : Mode) (hand : List ℕ) (d : ℕ) (s₀ : Kernel) (is : List ℕ) (s : Kernel) :
    Prop where
  inv : Inv m hand s
  dir : ∃ D, s.dirs d = some D ∧ ∀ i < 1024, i ∉ is → D.table i = none
  absent : ∀ v, (s.look d v).p = false
  swapped : ∀ v, (s.look d v).Swapped → ¬ m.exact (s.look d v).pfn
  other : ∀ d' v', d' ≠ d → s.look d' v' = s₀.look d' v'
  dirs : ∀ d' ≠ d, (s.dirs d').isSome = (s₀.dirs d').isSome
  kernel : s.kernel = s₀.kernel
  running : Running s₀ → Running s

theorem freeTable_spec {i : ℕ} {is : List ℕ} {s₀ : Kernel}
    (h : Emptied m hand d s₀ (i :: is) s) :
    Meets m (freeTable d i) s (fun _ => Emptied m hand d s₀ is) := by
  obtain ⟨D, hd, hnone⟩ := h.dir
  apply Ensures.read_bind
  rw [hd]
  simp only [Option.bind_some]
  cases ht : D.table i with
  | none =>
    refine Ensures.pure ⟨h.inv, ⟨D, hd, fun j hj his => ?_⟩, h.absent, h.swapped, h.other, h.dirs,
      h.kernel, h.running⟩
    by_cases hji : j = i
    · rw [hji, ht]
    · exact hnone j hj fun hc => (List.mem_cons.1 hc).elim hji his
  | some t =>
    have hown : s.own (.table d i) = some t := by
      change (s.dirs d).bind _ = some t
      rw [hd]
      exact ht
    apply Ensures.bind (kfree_owned h.inv hown (by simp))
    rintro - _ rfl
    apply Ensures.change
    have hcomm : (s.pushFree t).dropTable d i = (s.dropTable d i).pushFree t := rfl
    rw [hcomm]
    have hinv := (h.inv.dropTable hd ht h.absent h.swapped).pushFree
    have hlook : ∀ d' v', ((s.dropTable d i).pushFree t).look d' v' =
        if d' = d ∧ v' / 1024 = i then Pte.zero else s.look d' v' := fun d' v' =>
      Kernel.look_dropTable
    refine ⟨hinv, ⟨D.dropTable i, ?_, fun j hj his => ?_⟩, fun v => ?_, fun v hs => ?_,
      fun d' v' hne => ?_, fun d' hne => ?_, h.kernel, h.running⟩
    · change (s.dropTable d i).dirs d = _
      rw [Kernel.dirs_dropTable, if_pos rfl, hd]
      rfl
    · change Function.update D.table i none j = none
      by_cases hji : j = i
      · rw [hji, Function.update_self]
      · rw [Function.update_of_ne hji]
        exact hnone j hj fun hc => (List.mem_cons.1 hc).elim hji his
    · rw [hlook]
      split
      · rfl
      · exact h.absent v
    · rw [hlook] at hs ⊢
      split at hs
      case isTrue => exact absurd hs Pte.not_swapped_zero
      case isFalse hc =>
        rw [if_neg hc]
        exact h.swapped v hs
    · rw [hlook, if_neg fun hc => hne hc.1]
      exact h.other d' v' hne
    · change ((s.dropTable d i).dirs d').isSome = _
      rw [Kernel.dirs_dropTable, if_neg hne]
      exact h.dirs d' hne

theorem freevm_spec (h : Inv m hand s) (hd : (s.dirs d).isSome)
    (hx : ∀ v, (s.look d v).Swapped → ¬ m.exact (s.look d v).pfn) :
    Meets m (freevm d) s (fun _ s' => Inv m hand s' ∧ (Fresh s → Fresh s') ∧
      s'.kernel = s.kernel) := by
  apply Ensures.bind (deallocuvm_spec h)
  rintro - s₁ ⟨h₁, hs₁, hgone⟩
  have habsent : ∀ v, (s₁.look d v).p = false := by
    intro v
    by_cases hz : s₁.look d v = Pte.zero
    · rw [hz]
      rfl
    · have hlt := h₁.tidy.user hz
      apply hgone (by decide)
      unfold pageRange
      rw [List.mem_range'_1]
      omega
  have hswap : ∀ v, (s₁.look d v).Swapped → ¬ m.exact (s₁.look d v).pfn := by
    intro v hs
    rcases hs₁.look d v with e | e
    · rw [e] at hs ⊢
      exact hx v hs
    · rw [e] at hs
      exact absurd hs Pte.not_swapped_zero
  obtain ⟨D, hD⟩ := Option.isSome_iff_exists.1 ((hs₁.dirs d).trans hd)
  have hloop := Ensures.forM (f := fun i => freeTable d i) (E := Full)
    (A := Admitted m.strict) (G := Granted m.strict) (I := Emptied m hand d s₁)
    (fun i is s' hi => freeTable_spec hi) (List.range' 0 1024) (s := s₁)
    ⟨h₁, ⟨D, hD, fun i hi his => absurd (List.mem_range'_1.2 (by omega)) his⟩, habsent, hswap,
      fun _ _ _ => rfl, fun _ _ => rfl, rfl, id⟩
  apply Ensures.bind hloop
  rintro - s₂ h₂
  obtain ⟨D₂, hD₂, hnone⟩ := h₂.dir
  have hnone' : ∀ i, D₂.table i = none := by
    intro i
    cases ht : D₂.table i with
    | none => rfl
    | some t =>
      rw [← ht]
      exact hnone i (h₂.inv.tidy.table hD₂ ht) List.not_mem_nil
  have hown : s₂.own (.dir d) = some d := by rw [Kernel.own_dir, hD₂]; rfl
  apply Ensures.bind (kfree_owned h₂.inv hown (by simp))
  rintro - _ rfl
  apply Ensures.change
  have hcomm : (s₂.pushFree d).dropDir d = (s₂.dropDir d).pushFree d := rfl
  rw [hcomm]
  refine ⟨(h₂.inv.dropDir hD₂ hnone').pushFree, fun hf hr d' v' => ?_,
    h₂.kernel.trans hs₁.kernel⟩
  change (s₂.dropDir d).look d' v' = _
  rw [Kernel.look_dropDir]
  split
  · rfl
  case isFalse hne =>
    rw [h₂.other d' v' hne]
    exact hs₁.fresh hf (mt h₂.running hr) d' v'

theorem kernelFree_spec {k : ℕ} (h : Inv m [] s) : Meets m (kernelFree k) s (fun _ s' =>
    Inv m [] s' ∧ (Fresh s → Fresh s')) := by
  apply Ensures.read_bind
  cases hk : s.kernel[k]? with
  | none => exact Ensures.pure ⟨h, id⟩
  | some f =>
    have hf : f ∈ s.kernel := List.mem_of_getElem? hk
    have hother : ∀ d v, (s.look d v).p = true → (s.look d v).pfn ≠ f := by
      rintro d v hp rfl
      exact h.custody.apart (Kernel.own_page_of_present hp) hf
    apply Ensures.bind (kfree_other h hother)
    rintro - _ rfl
    apply Ensures.change
    have hinv : Inv m [f] { s with kernel := s.kernel.erase f } := by
      refine h.forget (h.custody.perm ?_ (List.Perm.refl _)) (h.supply.congr rfl rfl)
        h.tidy.table (fun _ _ => .inl rfl) ⟨rfl, rfl, rfl, rfl⟩ ⟨rfl, rfl, rfl⟩
      exact (List.perm_cons_erase hf).symm
    exact ⟨hinv.pushFree, id⟩

end
end Swap
