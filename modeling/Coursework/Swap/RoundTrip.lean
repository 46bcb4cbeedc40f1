import Coursework.Swap.Ownership

/-! The round trip of a swapped-out page: the first access maps it again with its flags, and
with the bytes that `swapout` wrote, which are those from the `struct page` on. -/
namespace Swap
open Program

section
variable {m : Mode} {hand l : List ℕ} {s s' : Kernel} {d v f va : ℕ} {byte : Option ℕ}

/-- There are fewer pages than nodes: the nodes' pages have frames of their own, and a
directory has another. -/
theorem Inv.numFree_ne (h : Inv m hand s) (hrun : Running s) (hd : (s.dirs d).isSome) :
    s.numFree ≠ 0 := by
  obtain ⟨l, hr, hl⟩ := h.ring
  intro h0
  have hlen : l.length = 1536 := by
    rcases hr.numFree with e | ⟨rfl, -⟩
    · omega
    · rcases hrun with hn | hh
      · exact absurd h0 hn
      · exact absurd hr.head hh
  have hown : ∀ i ∈ l, s.own (.page (s.names i).1 (s.names i).2) = some (s.entry i).pfn :=
    fun i hi => Kernel.own_page_of_present (hl.present i hi)
  have hdir : s.own (.dir d) = some d := by rw [Kernel.own_dir, if_pos hd]
  have hnd : (d :: l.map fun i => (s.entry i).pfn).Nodup := by
    refine List.nodup_cons.2 ⟨fun hmem => ?_, hr.nodup.map_on fun i hi j hj hij => ?_⟩
    · obtain ⟨i, hi, hid⟩ := List.mem_map.1 hmem
      exact absurd (h.custody.inj (hid ▸ hown i hi) hdir) (by simp)
    · obtain ⟨h₁, h₂⟩ := h.page_inj (hl.present i hi) (hl.present j hj) hij
      exact hl.inj i hi j hj (Prod.ext h₁ h₂)
  have hsub : (d :: l.map fun i => (s.entry i).pfn) ⊆ List.range 1536 := by
    intro f hf
    rw [List.mem_range]
    rcases List.mem_cons.1 hf with rfl | hf
    · exact h.held_lt_of_own hdir
    · obtain ⟨i, hi, rfl⟩ := List.mem_map.1 hf
      exact h.held_lt_of_own (hown i hi)
  have hle := (hnd.subperm hsub).length_le
  rw [List.length_cons, List.length_map, List.length_range, hlen] at hle
  omega

/-- With a frame on the free list, the access to a swapped-out page does not fail. -/
theorem access_of_free (h : Sound m s) (hd : (s.dirs d).isSome)
    (hsw : (s.look d (va / 4096)).Swapped) (hfree : s.freelist ≠ []) :
    Ensures (Admitted m.strict) (Granted m.strict) (access d va byte) s (fun _ _ => True)
      (fun _ _ => False) := by
  obtain ⟨r, rest, hfree⟩ := List.exists_cons_of_ne_nil hfree
  have hrun : Running s := by
    by_contra hn
    exact hsw.2 (h.fresh hn d _)
  have hwalk := Kernel.walk_of_look hsw.2
  have hnum := h.inv.numFree_ne hrun hd
  obtain ⟨l, hr, hl⟩ := h.inv.ring
  generalize hv : va / 4096 = v at *
  apply Ensures.read_bind
  dsimp only
  rw [hv, if_neg (by rw [hsw.1]; simp)]
  apply Ensures.bind (Q := fun _ _ => True) _ fun _ _ _ => Ensures.pure trivial
  unfold swapin
  rw [hv]
  have htable : Ensures (Admitted m.strict) (Granted m.strict) (walkpgdirAlloc d v) s
      (fun _ s' => s' = s) (fun _ _ => False) := by
    obtain ⟨D, hD⟩ := Option.isSome_iff_exists.1 hd
    apply Ensures.read_bind
    rw [hD]
    dsimp only
    rw [Kernel.walkpgdir_of_some hD] at hwalk
    cases ht : D.table (v / 1024) with
    | none =>
      rw [ht] at hwalk
      cases hwalk
    | some t => exact Ensures.pure rfl
  apply Ensures.bind htable
  rintro - s₁ rfl
  apply Ensures.read_bind
  dsimp only
  rw [if_pos hsw]
  apply Ensures.bind (kalloc_of_free h.inv hfree)
  rintro f s₂ ⟨-, -, hs₂⟩
  have hbit : s₂.bitmap (s₁.look d v).pfn = true := by
    rw [hs₂]
    exact h.inv.slots.used hsw
  have hread : Ensures (Admitted m.strict) (Granted m.strict) (readSlot f (s₁.look d v).pfn) s₂
      (fun _ s' => ∃ b, s' = s₂.setMem f b) (fun _ _ => False) := by
    apply Ensures.read_bind
    rw [if_pos hbit]
    apply (swapread_spec (h.inv.slots.range hsw).2).mono _ fun _ _ he => he
    exact fun _ s' ⟨b, hb, _⟩ => ⟨b, hb⟩
  apply Ensures.bind hread
  rintro - _ ⟨b, rfl⟩
  apply Ensures.change_bind
  have hr₂ : RingOf ((s₂.setMem f b).setPte d v
      { (s₂.setMem f b).look d v with pfn := f, p := true })
      l := by
    refine hr.congr ?_
    rw [hs₂]
    exact ⟨rfl, rfl, rfl, rfl⟩
  apply Ensures.bind ((lruAppend_spec hr₂).mono (fun _ _ _ => trivial) ?_)
  · exact fun _ s₃ _ => Ensures.change_bind (Ensures.pure trivial)
  · rintro e s' ⟨-, h0, -⟩
    rw [hs₂] at h0
    exact hnum h0

end
/-- The frame was on the free list and no caller held it, or it was reclaimed. -/
def Undoubled (w : Handout) : Prop := w.before.freelist ≠ [] → w.frame ∉ w.before.held

instance (w : Handout) : Decidable (Undoubled w) := inferInstanceAs (Decidable (_ → _))

/-- The mode in which nothing beside the common invariants is asked. -/
def laxMode : Mode := ⟨False, fun _ => False, fun _ _ => False, Nowhere⟩

theorem Undoubled.admitted {w : Handout} (h : Undoubled w) : Admitted False w :=
  ⟨False.elim, fun _ => h⟩

/-- The first access to a swapped-out page maps it with the flags that it had, and finds its
bytes if and only if they are those that stood behind its `struct page`. -/
theorem swap_roundTrip {s₀ s : Kernel} {ws : List Handout} {d va : ℕ} {byte : Option ℕ}
    (hb : Boot s₀) (h : Runs (fun _ _ => True) s₀ ws none s) (hl : Legal s (.access d va byte))
    (hsw : (s.look d (va / 4096)).Swapped)
    (hA : ∀ w ∈ ws ++ (exec (.access d va byte) s).events, Undoubled w) :
    ∃ ev, s.evicted d (va / 4096) = some ev ∧
      (s.freelist ≠ [] → ∃ s', (exec (.access d va byte) s).result = .ok () s') ∧
      ∀ s', (exec (.access d va byte) s).result = .ok () s' →
        ∃ f, s'.look d (va / 4096) = { ev.pte with pfn := f } ∧ ev.pte.p = true ∧
          ((∀ o < 4096, s'.mem f o = ev.page o) ↔ ∀ o < 4096, ev.node o = ev.page o) := by
  have hsound : Sound laxMode s := (Runs.sound (m := laxMode) (fun _ _ hs => hs)
    (fun s op _ _ => fits_of_free (fun _ hx => hx) (fun _ _ hc => hc) s op) hb h
    fun w hw => (hA w (List.mem_append_left _ hw)).admitted).2
  have hA' : ∀ w ∈ (exec (.access d va byte) s).events, Admitted laxMode.strict w :=
    fun w hw => (hA w (List.mem_append_right _ hw)).admitted
  obtain ⟨ev, hev, hp, -, -⟩ := hsound.inv.slots.stored hsw
  have haccess : Meets laxMode (access d va byte) s (fun _ s' => Inv laxMode [] s' ∧ Fresh s' ∧
      Restored d (va / 4096) s s') :=
    access_spec hsound.inv hsound.fresh hl.1 hl.2 (fun hc => hc.elim) fun hs => hs
  have hspec := haccess hA'
  refine ⟨ev, hev, fun hfree => ?_, fun s' hr => ?_⟩
  · have hret : Ensures (Admitted laxMode.strict) (Granted laxMode.strict) (access d va byte) s
        (fun _ _ => True) (fun _ _ => False) := access_of_free hsound hl.1 hsw hfree
    have hok := hret hA'
    change ∃ s', (access d va byte s).result = .ok () s'
    rcases hr : (access d va byte s).result with ⟨⟨⟩, s'⟩ | ⟨e, s'⟩
    · exact ⟨s', rfl⟩
    · rw [hr] at hok
      exact hok.2.elim
  · change (access d va byte s).result = _ at hr
    rw [hr] at hspec
    obtain ⟨f, hf, hmem⟩ := hspec.2.2.2.page ev hsw hev
    refine ⟨f, hf, hp, forall₂_congr fun o ho => ?_⟩
    rw [hmem o ho]

section Example

/-- The second page of the process is swapped out, and a frame is free. -/
def swappedPage : List Op := twoPages ++ [.kalloc, .kfree 0]

theorem swap_roundTrip_swappedPage : ∃ s ev, s.evicted 700 1 = some ev ∧
    (s.look 700 1).Swapped ∧ ∃ s', (exec (.access 700 4100 none) s).result = .ok () s' ∧
      ∃ f, s'.look 700 1 = { ev.pte with pfn := f } ∧
        ((∀ o < 4096, s'.mem f o = ev.page o) ↔ ∀ o < 4096, ev.node o = ev.page o) := by
  have hrun : (runOps anyStep 14 swappedPage).any
      (fun r => decide (Legal r.2 (.access 700 4100 none)) &&
        decide (r.2.look 700 1).Swapped && !r.2.freelist.isEmpty &&
        (r.1 ++ (exec (.access 700 4100 none) r.2).events).all fun w => decide (Undoubled w)) =
      true := by
    decide +kernel
  obtain ⟨ws, s, hr, hc⟩ := runOps_any (P := fun _ _ => True)
    (c := fun ws s => decide (Legal s (.access 700 4100 none)) &&
      decide (s.look 700 1).Swapped && !s.freelist.isEmpty &&
      (ws ++ (exec (.access 700 4100 none) s).events).all fun w => decide (Undoubled w))
    (fun _ _ _ => trivial) hrun
  simp only [Bool.and_eq_true, decide_eq_true_eq] at hc
  obtain ⟨⟨⟨hl, hsw⟩, hfree⟩, hA⟩ := hc
  obtain ⟨ev, hev, hok, hpage⟩ := swap_roundTrip (booted_boot (by decide)) hr hl hsw
    fun w hw => of_decide_eq_true (List.all_eq_true.1 hA w hw)
  obtain ⟨s', hs'⟩ := hok (by simpa using hfree)
  obtain ⟨f, hf, -, hiff⟩ := hpage s' hs'
  exact ⟨s, ev, hev, hsw, s', hs', f, hf, hiff⟩

/-- The page that comes back starts with a kernel address. -/
theorem swapin_kernel_bytes : ¬ ∀ (s₀ s s' : Kernel) (ws : List Handout) (d va : ℕ)
    (byte : Option ℕ) (ev : Eviction), Boot s₀ → Runs (fun _ _ => True) s₀ ws none s →
    Legal s (.access d va byte) → (s.look d (va / 4096)).Swapped →
    s.evicted d (va / 4096) = some ev → (exec (.access d va byte) s).result = .ok () s' →
    ∀ o < 4096, s'.mem (s'.look d (va / 4096)).pfn o = ev.page o := by
  intro h
  have hrun : (runOps anyStep 14 swappedPage).any
      (fun r => decide (Legal r.2 (.access 700 4100 none)) &&
        decide (r.2.look 700 1).Swapped && ((r.2.evicted 700 1).any fun ev => ev.page 3 == 0) &&
      match (exec (.access 700 4100 none) r.2).result with
      | .ok _ s' => s'.mem (s'.look 700 1).pfn 3 == 128
      | .error _ _ => false) = true := by
    decide +kernel
  obtain ⟨ws, s, hr, hc⟩ := runOps_any (P := fun _ _ => True)
    (c := fun _ s => decide (Legal s (.access 700 4100 none)) &&
      decide (s.look 700 1).Swapped && ((s.evicted 700 1).any fun ev => ev.page 3 == 0) &&
      match (exec (.access 700 4100 none) s).result with
      | .ok _ s' => s'.mem (s'.look 700 1).pfn 3 == 128
      | .error _ _ => false) (fun _ _ _ => trivial) hrun
  simp only [Bool.and_eq_true, decide_eq_true_eq] at hc
  obtain ⟨⟨⟨hl, hsw⟩, hev⟩, hbyte⟩ := hc
  obtain ⟨ev, he, h0⟩ := (Option.any_eq_true _ _).1 hev
  rcases hs : (exec (.access 700 4100 none) s).result with ⟨⟨⟩, s'⟩ | ⟨e, s'⟩
  · rw [hs] at hbyte
    have hsame := h _ s s' ws 700 4100 none ev (booted_boot (by decide)) hr hl hsw he hs 3
      (by decide)
    change s'.mem (s'.look 700 1).pfn 3 = _ at hsame
    simp only [beq_iff_eq] at hbyte h0
    rw [hbyte, h0] at hsame
    cases hsame
  · rw [hs] at hbyte
    cases hbyte

end Example

end Swap
