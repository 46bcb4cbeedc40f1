import Coursework.Swap.Evict

/-! Address spaces that are built and grown: `setupkvm`, `inituvm`, `allocuvm` and `copyuvm`
keep the invariant. -/
namespace Swap
open Program

section
variable {m : Mode} {hand : List ℕ} {s s' : Kernel} {d v f : ℕ} {e : Pte} {X : ℕ → ℕ → Prop}

theorem Grown.setMem (s : Kernel) (f : ℕ) (b : ℕ → ℕ) : Grown X s (s.setMem f b) :=
  ⟨id, id, fun _ _ => rfl, fun _ _ => rfl, rfl, id⟩

/-- A new page table changes no entry. -/
theorem Grown.addTable {D : Dir} {i t : ℕ} (hd : s.dirs d = some D) (hi : D.table i = none) :
    Grown X s (s.addTable d i t) := by
  refine ⟨fun {d'} hs => ?_, fun {d' v'} hs => ?_, fun _ _ => Kernel.look_addTable hd hi,
    fun _ _ => rfl, rfl, id⟩
  · rw [Kernel.dirs_addTable]
    split
    case isTrue hc => rwa [Option.isSome_map, ← hc]
    case isFalse => exact hs
  · rw [Kernel.walkpgdir_eq, Kernel.dirs_addTable]
    by_cases hc : d' = d
    · subst hc
      rw [if_pos rfl, hd]
      change ((Function.update D.table i (some t) (v' / 1024)).map _).isSome
      by_cases hv : v' / 1024 = i
      · rw [hv, Function.update_self]
        rfl
      · rw [Kernel.walkpgdir_of_some hd] at hs
        rw [Function.update_of_ne hv]
        simpa using hs
    · rwa [if_neg hc, ← Kernel.walkpgdir_eq]

theorem Grown.setPte : Grown (Only d v) s (s.setPte d v e) :=
  ⟨fun hd => by rwa [Kernel.dirs_isSome_setPte], fun hs => by rwa [Kernel.isSome_walkpgdir_setPte],
    fun hx _ => Kernel.look_setPte_of_ne hx, fun _ _ => rfl, rfl, id⟩

/-- After `walkpgdirAlloc` the page has a page table, one from `kalloc` if it had none. -/
theorem walkpgdirAlloc_spec (h : Inv m hand s) (hd : (s.dirs d).isSome) (hv : v / 1024 < 1024) :
    Meets m (walkpgdirAlloc d v) s (fun _ s' => Inv m hand s' ∧ Grown Nowhere s s' ∧
      (s'.walkpgdir d v).isSome ∧ ((s.walkpgdir d v).isSome → s' = s)) := by
  obtain ⟨D, hD⟩ := Option.isSome_iff_exists.1 hd
  have hwalk := Kernel.walkpgdir_of_some (v := v) hD
  apply Ensures.read_bind
  rw [hD]
  dsimp only
  cases ht : D.table (v / 1024) with
  | some t =>
    apply Ensures.pure
    refine ⟨h, Grown.refl s, ?_, fun _ => rfl⟩
    rw [hwalk, ht]
    rfl
  | none =>
    apply Ensures.bind (kalloc_spec h)
    rintro t s₁ ⟨h₁, hk⟩
    apply Ensures.change
    have htable := hk.table d
    rw [hD] at htable
    obtain ⟨D₁, hD₁, hD₁'⟩ := Option.map_eq_some_iff.1 htable
    have ht₁ : D₁.table (v / 1024) = none := by rw [hD₁', ht]
    refine ⟨h₁.addTable hD₁ ht₁ hv, hk.toGrown.trans (Grown.addTable hD₁ ht₁),
      Kernel.isSome_walkpgdir_addTable hD₁ rfl, fun hs => ?_⟩
    rw [hwalk, ht] at hs
    cases hs

theorem mappages_spec (h : Inv m (e.pfn :: hand) s) (hd : (s.dirs d).isSome) (hv : v < 524288)
    (hx : (s.look d v).Swapped → ¬ m.exact (s.look d v).pfn) :
    Meets m (mappages d v e) s (fun _ s' => Inv (m.skipPage d v) hand s' ∧
      Grown (Only d v) s s' ∧ s'.look d v = { e with p := true }) := by
  apply Ensures.bind (walkpgdirAlloc_spec h hd (v := v) (by omega))
  rintro - s₁ ⟨h₁, hg, hw, hsame⟩
  apply Ensures.read_bind
  split
  case isTrue => exact Ensures.stop (full_of_ne (by simp))
  case isFalse hp =>
    apply Ensures.change
    have hlook : s₁.look d v = s.look d v := by
      by_cases hp₀ : (s.look d v).p = true
      · rw [hsame (by rw [Kernel.walk_of_present hp₀]; rfl)]
      · exact hg.look id (by simpa using hp₀)
    have hpos : (s₁.look d v).p = false := by simpa using hp
    exact ⟨h₁.map (e := { e with p := true }) hw hpos rfl hv (by rwa [hlook]),
      (hg.mono fun _ _ hn => hn.elim).trans Grown.setPte, Kernel.look_setPte_self hw⟩

theorem lruAppend_inv {va : ℕ} (h : Inv (m.skipPage d v) hand s) (hp : (s.look d v).p = true)
    (hva : va / 4096 = v) (ha : m.covered d v → va % 4096 = 0) (hs : ¬ m.skipped d v) :
    Meets m (lruAppend d va) s (fun _ s' => Inv m hand s' ∧ RingOnly s s' ∧ Running s') := by
  obtain ⟨l, hr, hl⟩ := h.ring
  apply (lruAppend_spec hr).mono
  · rintro - s' ⟨hro, -, idx, -, hr', hpg, hv', hkeep⟩
    have hl' := hl.append hp hro.dirs (List.rotate_perm l 1) hpg hv' hva ha hs hkeep
    refine ⟨h.relist hro hr' hl' rfl rfl, hro, .inr ?_⟩
    rw [hr'.head]
    exact Option.some_ne_none idx
  · exact fun e s' he => full_of_ne he.2.2

theorem Grown.ringOnly (h : RingOnly s s') (hr : Running s') : Grown X s s' :=
  ⟨fun hd => by rwa [h.dirs], fun hs => by rwa [Kernel.walkpgdir_congr h.dirs],
    fun _ _ => Kernel.look_congr h.dirs, fun _ _ => by rw [h.evicted], h.kernel, fun _ => hr⟩

theorem fresh_of_running (h : Running s) : Fresh s := fun hn => absurd h hn

/-- A page of a mode that counts slots was not in use. -/
def Vacant (m : Mode) (s : Kernel) (d v : ℕ) : Prop :=
  s.look d v = Pte.zero ∨ ∀ k, ¬ m.exact k

theorem Vacant.not_exact (h : Vacant m s d v) :
    (s.look d v).Swapped → ¬ m.exact (s.look d v).pfn := by
  rcases h with hz | hx
  · intro hs
    rw [hz] at hs
    exact absurd hs Pte.not_swapped_zero
  · exact fun _ => hx _

theorem Vacant.grown (h : Vacant m s d v) (hg : Grown X s s') (hX : ¬ X d v) :
    Vacant m s' d v := by
  rcases h with hz | hx
  · refine .inl ?_
    rw [hg.look hX (by rw [hz]; rfl), hz]
  · exact .inr hx

theorem allocPage_spec (h : Inv m hand s) (hd : (s.dirs d).isSome) (hv : v < 524288)
    (hx : Vacant m s d v) (hs : ¬ m.skipped d v) :
    Meets m (allocPage d v) s (fun _ s' => Inv m hand s' ∧ Grown (Only d v) s s' ∧
      Running s') := by
  apply Ensures.bind (kalloc_spec h)
  rintro f s₁ ⟨h₁, hk⟩
  apply Ensures.change_bind
  have hmap := mappages_spec (e := ⟨f, true, true, true, false, false⟩)
    (h₁.setMem f fun _ => 0) (hk.dirs hd) hv (hx.grown hk.toGrown id).not_exact
  apply Ensures.bind hmap
  rintro - s₂ ⟨h₂, hg, hlook⟩
  have hg₂ : Grown (Only d v) s s₂ := (hk.grown.trans (Grown.setMem s₁ f _)).trans hg
  apply (lruAppend_inv h₂ (by rw [hlook]) (by omega) (fun _ => by omega) hs).mono _
    fun _ _ he => he
  exact fun _ s₃ ⟨h₃, hro, hrun⟩ => ⟨h₃, hg₂.trans (Grown.ringOnly hro hrun), hrun⟩

/-- While a range of pages is filled: those in `vs` are left. -/
structure Filling (m : Mode) (hand : List ℕ) (d : ℕ) (vs : List ℕ) (s : Kernel) : Prop where
  inv : Inv m hand s
  dir : (s.dirs d).isSome
  user : ∀ v ∈ vs, v < 524288
  nodup : vs.Nodup
  vacant : ∀ v ∈ vs, Vacant m s d v
  fresh : Fresh s

theorem Filling.next {vs : List ℕ} (h : Filling m hand d (v :: vs) s) (hi : Inv m hand s')
    (hg : Grown (Only d v) s s') (hf : Fresh s') : Filling m hand d vs s' := by
  obtain ⟨hv, hnd⟩ := List.nodup_cons.1 h.nodup
  refine ⟨hi, hg.dirs h.dir, fun w hw => h.user w (List.mem_cons_of_mem _ hw), hnd,
    fun w hw => ?_, hf⟩
  apply (h.vacant w (List.mem_cons_of_mem _ hw)).grown hg
  rintro ⟨-, rfl⟩
  exact hv hw

theorem pageRange_user {lo hi : ℕ} (h : hi ≤ 0x80000000) : ∀ v ∈ pageRange lo hi, v < 524288 := by
  intro v hv
  unfold pageRange at hv
  rw [List.mem_range'_1] at hv
  omega

theorem nodup_pageRange (lo hi : ℕ) : (pageRange lo hi).Nodup := List.nodup_range'

theorem allocuvm_spec {oldsz newsz : ℕ} (h : Inv m hand s) (hf : Fresh s)
    (hd : (s.dirs d).isSome) (hx : ∀ v ∈ pageRange oldsz newsz, Vacant m s d v)
    (hs : ∀ v, ¬ m.skipped d v) :
    Meets m (allocuvm d oldsz newsz) s (fun _ s' => Inv m hand s' ∧ Fresh s') := by
  unfold allocuvm
  split
  case isTrue => exact Ensures.pure ⟨h, hf⟩
  case isFalse hlt =>
    split
    case isTrue => exact Ensures.pure ⟨h, hf⟩
    case isFalse =>
      have hloop := Ensures.forM (f := fun v => allocPage d v) (E := Full)
        (A := Admitted m.strict) (G := Granted m.strict) (I := Filling m hand d)
        (fun v vs s' hi => by
          apply (allocPage_spec hi.inv hi.dir (hi.user v List.mem_cons_self)
            (hi.vacant v List.mem_cons_self) (hs v)).mono _ fun _ _ he => he
          exact fun _ s'' ⟨hi', hg, hr⟩ => hi.next hi' hg (fresh_of_running hr))
        (pageRange oldsz newsz) (s := s)
        ⟨h, hd, pageRange_user (by omega), nodup_pageRange _ _, hx, hf⟩
      apply Ensures.bind hloop
      exact fun _ s' hi => Ensures.pure ⟨hi.inv, hi.fresh⟩

/-- A new address space has no pages. -/
theorem setupkvm_spec (h : Inv m hand s) : Meets m setupkvm s (fun child s' =>
    Inv m hand s' ∧ Grown Nowhere s s' ∧ (s'.dirs child).isSome ∧
      ∀ v, s'.look child v = Pte.zero) := by
  apply Ensures.bind (kalloc_spec h)
  rintro child s₁ ⟨h₁, hk⟩
  apply Ensures.change_bind
  have hnone : s₁.dirs child = none := by
    by_contra hne
    refine h₁.custody.apart (o := .dir child) (f := child) ?_ List.mem_cons_self
    rw [Kernel.own_dir, if_pos (Option.isSome_iff_ne_none.2 hne)]
  have hself : (s₁.addDir child).dirs child = some Dir.empty := Function.update_self ..
  have hadd : Grown Nowhere s₁ (s₁.addDir child) := by
    refine ⟨fun {d'} hs => ?_, fun {d' v'} hs => ?_, fun _ _ => Kernel.look_addDir hnone,
      fun _ _ => rfl, rfl, id⟩
    · by_cases hd : d' = child
      · rw [hd, hself]
        rfl
      · rwa [show (s₁.addDir child).dirs d' = s₁.dirs d' from Function.update_of_ne hd ..]
    · have hd : d' ≠ child := by
        rintro rfl
        rw [Kernel.walkpgdir_of_none hnone] at hs
        cases hs
      rw [Kernel.walkpgdir_eq] at hs ⊢
      rwa [show (s₁.addDir child).dirs d' = s₁.dirs d' from Function.update_of_ne hd ..]
  have hloop := Ensures.forM (f := fun i => walkpgdirAlloc child (1024 * i)) (E := Full)
    (A := Admitted m.strict) (G := Granted m.strict)
    (I := fun is s' => Inv m hand s' ∧ Grown Nowhere (s₁.addDir child) s' ∧ ∀ i ∈ is, i < 1024)
    (fun i is s' ⟨hi, hg, hlt⟩ => by
      have hd : (s'.dirs child).isSome := hg.dirs (by rw [hself]; rfl)
      have hi' := hlt i List.mem_cons_self
      apply (walkpgdirAlloc_spec hi hd (v := 1024 * i) (by omega)).mono _ fun _ _ he => he
      exact fun _ s'' h'' => ⟨h''.1, hg.trans h''.2.1,
        fun j hj => hlt j (List.mem_cons_of_mem _ hj)⟩)
    kernelTables (s := s₁.addDir child) ⟨h₁.addDir, Grown.refl _, by decide⟩
  apply Ensures.bind hloop
  rintro - s₂ ⟨h₂, hg, -⟩
  apply Ensures.pure
  refine ⟨h₂, (hk.toGrown.trans hadd).trans hg, hg.dirs (by rw [hself]; rfl), fun v => ?_⟩
  have hz : (s₁.addDir child).look child v = Pte.zero := by
    rw [Kernel.look_addDir hnone]
    exact Kernel.look_of_not_walk (Kernel.walkpgdir_of_none hnone)
  rw [hg.look id (by rw [hz]; rfl), hz]

/-- The copy of a page has no node. -/
theorem copyPage_spec {child : ℕ} (h : Inv m hand s) (hf : Fresh s) (hd : (s.dirs child).isSome)
    (hv : v < 524288) (hx : Vacant m s child v) (hc : ¬ m.covered child v) :
    Meets m (copyPage d child v) s (fun _ s' => Inv m hand s' ∧ Grown (Only child v) s s' ∧
      Fresh s') := by
  apply Ensures.read_bind
  cases hw : s.walkpgdir d v with
  | none => exact Ensures.stop (full_of_ne (by simp))
  | some pte =>
    dsimp only
    split
    case isFalse => exact Ensures.stop (full_of_ne (by simp))
    case isTrue hp =>
      have hrun : Running s := by
        by_contra hn
        have hz := hf hn d v
        rw [Kernel.look_of_walk hw] at hz
        rw [hz] at hp
        cases hp
      apply Ensures.bind (kalloc_spec h)
      rintro f s₁ ⟨h₁, hk⟩
      apply Ensures.change_bind
      apply (mappages_spec (e := { pte with pfn := f }) (h₁.setMem f (s₁.mem pte.pfn))
        (hk.dirs hd) hv (hx.grown hk.toGrown id).not_exact).mono _ fun _ _ he => he
      rintro - s₂ ⟨h₂, hg, -⟩
      have hg₂ := (hk.grown.trans (Grown.setMem s₁ f _)).trans hg
      exact ⟨h₂.uncovered hc, hg₂, fresh_of_running (hg₂.running hrun)⟩

theorem copyuvm_spec {sz : ℕ} (h : Inv m hand s) (hf : Fresh s) (hsz : sz ≤ 0x80000000)
    (hc : sz = 0 ∨ ∀ d v, ¬ m.covered d v) :
    Meets m (copyuvm d sz) s (fun _ s' => Inv m hand s' ∧ Fresh s') := by
  apply Ensures.bind (setupkvm_spec h)
  rintro child s₁ ⟨h₁, hg, hd, hz⟩
  rcases hc with rfl | hc
  · have hnil : pageRange 0 0 = [] := rfl
    rw [hnil]
    apply Ensures.bind (Ensures.pure (Q := fun _ s' => s' = s₁) rfl)
    rintro - _ rfl
    exact Ensures.pure ⟨h₁, hg.fresh hf⟩
  · have hloop := Ensures.forM (f := fun v => copyPage d child v) (E := Full)
      (A := Admitted m.strict) (G := Granted m.strict) (I := Filling m hand child)
      (fun v vs s' hi => by
        apply (copyPage_spec hi.inv hi.fresh hi.dir (hi.user v List.mem_cons_self)
          (hi.vacant v List.mem_cons_self) (hc child v)).mono _ fun _ _ he => he
        exact fun _ s'' ⟨hi', hg', hf'⟩ => hi.next hi' hg' hf')
      (pageRange 0 sz) (s := s₁)
      ⟨h₁, hd, pageRange_user hsz, nodup_pageRange _ _, fun v _ => .inl (hz v), hg.fresh hf⟩
    apply Ensures.bind hloop
    exact fun _ s' hi => Ensures.pure ⟨hi.inv, hi.fresh⟩

/-- `inituvm` starts the ring anew. -/
theorem inituvm_spec {init : ℕ → ℕ} {sz : ℕ} (h : Inv m hand s) (hd : (s.dirs d).isSome)
    (hx : Vacant m s d 0)
    (hc : (∀ d v, ¬ m.covered d v) ∨ ∀ d v, (s.look d v).p = false) (hs : ¬ m.skipped d 0) :
    Meets m (inituvm d init sz) s (fun _ s' => Inv m hand s' ∧ Fresh s') := by
  unfold inituvm
  split
  case isTrue => exact Ensures.stop (full_of_ne (by simp))
  case isFalse =>
    apply Ensures.bind (kalloc_spec h)
    rintro f s₁ ⟨h₁, hk⟩
    apply Ensures.change_bind
    apply Ensures.bind (mappages_spec (e := ⟨f, true, true, true, false, false⟩)
      (h₁.setMem f fun _ => 0) (hk.dirs hd) (by decide) (hx.grown hk.toGrown id).not_exact)
    rintro - s₂ ⟨h₂, hg, hlook⟩
    apply Ensures.change_bind
    generalize hb : (fun o => if o < sz then init o else s₂.mem f o) = b
    have h₂' := h₂.setMem f b
    have hg₂ : Grown (Only d 0) s s₂ := (hk.grown.trans (Grown.setMem s₁ f _)).trans hg
    apply Ensures.bind (initLru_spec.mono (fun _ _ h => h) fun _ _ h => h.elim)
    rintro - s₃ ⟨hro, hr, -⟩
    have hl : Lists (m.skipPage d 0) s₃ [] := by
      refine ⟨fun i hi => absurd hi List.not_mem_nil, fun i hi => absurd hi List.not_mem_nil,
        fun i hi => absurd hi List.not_mem_nil, fun d' v' hcov hskip hp => ?_⟩
      rcases hc with hc | hc
      · exact absurd hcov (hc d' v')
      · rw [Kernel.look_congr hro.dirs] at hp
        have hp' := hg₂.present (not_or.1 hskip).1 hp
        rw [hc] at hp'
        cases hp'
    have h₃ := h₂'.relist hro hr hl rfl rfl
    have hp₃ : (s₃.look d 0).p = true := by
      rw [Kernel.look_congr hro.dirs]
      exact (congrArg Pte.p hlook).trans rfl
    apply (lruAppend_inv h₃ hp₃ rfl (fun _ => rfl) hs).mono _ fun _ _ he => he
    exact fun _ s₄ h₄ => ⟨h₄.1, fresh_of_running h₄.2.2⟩

end
end Swap
