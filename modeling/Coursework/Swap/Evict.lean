import Coursework.Swap.Clock

/-! `swapout` evicts a page to a slot of its own, and `kalloc` hands out a frame that no one
else has. -/
namespace Swap
open Program

section
variable {m : Mode} {hand l : List ℕ} {s s' : Kernel} {d v i f k : ℕ} {e : Pte}

/-- Only slot `k` and other bytes of the disk differ. -/
structure Written (k : ℕ) (ptr : ℕ → ℕ) (s s' : Kernel) : Prop where
  only : s' = { s with disk := s'.disk }
  self : ∀ o < 4096, s'.slotBytes k o = ptr o
  other : ∀ k' ≠ k, ∀ o < 4096, s'.slotBytes k' o = s.slotBytes k' o

theorem Written.dirs {ptr : ℕ → ℕ} (h : Written k ptr s s') : s'.dirs = s.dirs := by
  have e := congrArg Kernel.dirs h.only
  exact e

theorem Written.kernel {ptr : ℕ → ℕ} (h : Written k ptr s s') : s'.kernel = s.kernel := by
  have e := congrArg Kernel.kernel h.only
  exact e

variable {A G : Handout → Prop}

/-- `swapwrite` at a slot in range. -/
theorem swapwrite_spec {ptr : ℕ → ℕ} (hk : k < 12437) :
    Ensures A G (swapwrite ptr k) s (fun _ => Written k ptr s) (fun _ _ => False) := by
  unfold swapwrite
  rw [if_neg (by omega)]
  -- The sectors of the slot that are left to write still have their old bytes.
  have hloop := Ensures.forM (A := A) (G := G) (E := fun _ _ => False)
    (f := fun i => (change fun s => s.setSector ((k : ℤ).toNat * 8 + 500 + i)
      fun o => ptr (i * 512 + o) : M Unit))
    (I := fun is s' => s' = { s with disk := s'.disk } ∧ (∀ i ∈ is, i < 8) ∧
      (∀ i < 8, i ∉ is → ∀ o, s'.disk (k * 8 + 500 + i) o = ptr (i * 512 + o)) ∧
      ∀ n, n < k * 8 + 500 ∨ k * 8 + 508 ≤ n → s'.disk n = s.disk n)
    (fun i is s' ⟨honly, hlt, hself, hother⟩ => by
      apply Ensures.change
      have hdisk : ∀ n, (s'.setSector ((k : ℤ).toNat * 8 + 500 + i)
          fun o => ptr (i * 512 + o)).disk n =
          if n = k * 8 + 500 + i then fun o => ptr (i * 512 + o) else s'.disk n := by
        intro n
        rw [Int.toNat_natCast]
        exact Function.update_apply ..
      have hi := hlt i List.mem_cons_self
      refine ⟨?_, fun j hj => hlt j (List.mem_cons_of_mem _ hj), fun j hj hjs o => ?_,
        fun n hn => ?_⟩
      · rw [honly]
        rfl
      · rw [hdisk]
        by_cases hji : j = i
        · rw [if_pos (by rw [hji]), hji]
        · rw [if_neg (by omega)]
          exact hself j hj (fun hc => (List.mem_cons.1 hc).elim hji hjs) o
      · rw [hdisk, if_neg (by omega), hother n hn])
    (List.range' 0 8) (s := s)
    ⟨rfl, fun i hi => by simpa [List.mem_range'_1] using hi,
      fun i hi his => absurd (List.mem_range'_1.2 (by omega)) his, fun _ _ => rfl⟩
  apply hloop.mono _ fun _ _ he => he
  rintro - s' ⟨honly, -, hself, hother⟩
  refine ⟨honly, fun o ho => ?_, fun k' hne o ho => ?_⟩
  · rw [Kernel.slotBytes, hself (o / 512) (by omega) List.not_mem_nil,
      Nat.div_add_mod']
  · rw [Kernel.slotBytes, Kernel.slotBytes, hother _ (by omega)]

theorem available_full (h : s.getAvailableBitmap < 0 ∨ 12437 ≤ s.getAvailableBitmap) :
    ∀ k, 1 ≤ k → k < 12437 → s.bitmap k = true := by
  intro k h1 hk
  by_contra hb
  have hfree : (!s.bitmap k) = true := by simpa using hb
  unfold Kernel.getAvailableBitmap at h
  cases hf : (List.range' 1 32766).find? fun i => !s.bitmap i with
  | none => exact List.find?_eq_none.1 hf k (List.mem_range'_1.2 (by omega)) hfree
  | some j =>
    rw [hf] at h
    obtain ⟨-, -, hmin⟩ := List.find?_range'_eq_some.1 hf
    have hj := hmin k h1
    dsimp only at h
    have hlt : k < j := by omega
    exact absurd (by simpa using hj hlt) hb

theorem available_free (h : ¬ (s.getAvailableBitmap < 0 ∨ 12437 ≤ s.getAvailableBitmap)) :
    ∃ k : ℕ, s.getAvailableBitmap = k ∧ 1 ≤ k ∧ k < 12437 ∧ s.bitmap k = false := by
  unfold Kernel.getAvailableBitmap at h ⊢
  cases hf : (List.range' 1 32766).find? fun i => !s.bitmap i with
  | none =>
    rw [hf] at h
    exact absurd (.inl (by decide)) h
  | some j =>
    rw [hf] at h
    obtain ⟨hj, hmem, -⟩ := List.find?_range'_eq_some.1 hf
    dsimp only at h
    rw [List.mem_range'_1] at hmem
    exact ⟨j, rfl, hmem.1, by omega, by simpa using hj⟩

theorem swapwrite_available {ptr : ℕ → ℕ} :
    Meets m (swapwrite ptr s.getAvailableBitmap) s (fun _ s' => ∃ k : ℕ,
      s.getAvailableBitmap = k ∧ (1 ≤ k ∧ k < 12437) ∧ s.bitmap k = false ∧
        Written k ptr s s') := by
  by_cases hrange : s.getAvailableBitmap < 0 ∨ 12437 ≤ s.getAvailableBitmap
  · unfold swapwrite
    rw [if_pos hrange]
    exact Ensures.stop fun _ _ => available_full hrange
  · obtain ⟨k, hk, h1, hlt, hb⟩ := available_free hrange
    rw [hk]
    apply (swapwrite_spec hlt).mono _ fun _ _ he => he.elim
    exact fun _ s' hs => ⟨k, rfl, ⟨h1, hlt⟩, hb, hs⟩

theorem Inv.unskipSlot (h : Inv (m.skipSlot k) hand s)
    (hk : m.exact k → s.bitmap k = true → ∃ d v, (s.look d v).Swapped ∧ (s.look d v).pfn = k) :
    Inv m hand s := by
  refine ⟨h.custody, ⟨h.supply.1, h.supply.2, h.supply.3⟩, h.tidy, h.slots,
    h.ring.imp fun _ hl => ⟨hl.1, hl.2.1, hl.2.2, hl.2.3, hl.2.4⟩, fun k' hk' hb => ?_⟩
  by_cases e : k' = k
  · subst e
    exact hk hk' hb
  · exact h.exact k' ⟨e, hk'⟩ hb

theorem Inv.regain (h : Inv m (f :: hand) s) :
    Inv m.lax (f :: hand) { s.pushFree f with held := f :: s.held.erase f } := by
  have hperm : (f :: s.held.erase f).Perm s.held :=
    (List.perm_cons_erase (h.custody.held_of_hand List.mem_cons_self)).symm
  have hlt := h.supply.held_lt f (h.custody.held_of_hand List.mem_cons_self)
  refine h.lax.forget (h.custody.perm (List.Perm.refl _) hperm) ⟨fun g hg => ?_, fun g hg => ?_,
    fun hs => hs.elim⟩ h.tidy.table (fun _ _ => .inl rfl) ⟨rfl, rfl, rfl, rfl⟩ ⟨rfl, rfl, rfl⟩
  · rcases List.mem_cons.1 hg with rfl | hg
    · exact hlt
    · exact h.supply.free_lt g hg
  · exact h.supply.held_lt g (hperm.mem_iff.1 hg)

/-- A page is written to the free slot `k`, which no entry names yet. -/
theorem Inv.write {ptr : ℕ → ℕ} {ev : Eviction} {s₁ : Kernel} (h : Inv m hand s)
    (hp : (s.look d v).p = true) (hk : s.bitmap k = false) (hw : Written k ptr s s₁) :
    Inv (m.skipSlot k) hand ((s₁.evict d v ev).setBitmap k true) := by
  obtain ⟨honly, -, hother⟩ := hw
  generalize s₁.disk = D at honly
  subst honly
  have hne : ∀ {d' v'}, (s.look d' v').Swapped → (s.look d' v').pfn ≠ k ∧
      ¬ (d' = d ∧ v' = v) := by
    refine fun {d' v'} hs => ⟨?_, ?_⟩
    · rintro rfl
      rw [h.slots.used hs] at hk
      cases hk
    · rintro ⟨rfl, rfl⟩
      exact Pte.not_swapped_of_p hp hs
  refine ⟨h.custody, ⟨h.supply.1, h.supply.2, h.supply.3⟩, ⟨h.tidy.1, h.tidy.2⟩,
    ⟨h.slots.1, fun {d' v'} hs => ?_, h.slots.3, fun {d' v'} hs => ?_⟩, ?_, fun k' hk' hb => ?_⟩
  · exact (Function.update_of_ne (hne hs).1 ..).trans (h.slots.used hs)
  · obtain ⟨e', he, hep, hlook, hbytes⟩ := h.slots.stored hs
    refine ⟨e', ?_, hep, hlook, fun o ho => (hother _ (hne hs).1 o ho).trans (hbytes o ho)⟩
    rw [← he]
    change Function.update s.evicted d (Function.update (s.evicted d) v _) d' v' = _
    by_cases hd : d' = d
    · subst hd
      have hv : v' ≠ v := fun e => (hne hs).2 ⟨rfl, e⟩
      rw [Function.update_self, Function.update_of_ne hv]
    · rw [Function.update_of_ne hd]
  · obtain ⟨l, hr, hl⟩ := h.ring
    exact ⟨l, hr.congr ⟨rfl, rfl, rfl, rfl⟩, hl.1, hl.2, hl.3, hl.4⟩
  · have e : ((Kernel.evict { s with disk := D } d v ev).setBitmap k true).bitmap k' =
        s.bitmap k' := Function.update_of_ne hk'.1 ..
    rw [e] at hb
    exact h.exact k' hk'.2 hb

theorem Written.kept {ptr : ℕ → ℕ} {ev : Eviction} (h : Written k ptr s s')
    (hp : (s.look d v).p = true) : Kept s ((s'.evict d v ev).setBitmap k true) := by
  obtain ⟨honly, -, -⟩ := h
  generalize s'.disk = D at honly
  subst honly
  refine ⟨⟨id, id, fun _ _ => rfl, fun {d' v'} _ hp' => ?_, rfl, id⟩, fun _ => rfl⟩
  change Function.update s.evicted d (Function.update (s.evicted d) v (some ev)) d' v' = _
  by_cases hd : d' = d
  · subst hd
    have hv : v' ≠ v := by
      rintro rfl
      rw [hp] at hp'
      cases hp'
    rw [Function.update_self, Function.update_of_ne hv]
  · rw [Function.update_of_ne hd]

theorem RingOnly.kept (h : RingOnly s s') (hrun : Running s → Running s') : Kept s s' := by
  refine ⟨⟨fun {d'} hd => ?_, fun {d' v'} hw => ?_, fun {d' v'} _ _ => ?_, fun {d' v'} _ _ => ?_,
    h.kernel, hrun⟩, fun d' => ?_⟩
  · rwa [h.dirs]
  · rwa [Kernel.walkpgdir_congr h.dirs]
  · rw [Kernel.look_congr h.dirs]
  · rw [h.evicted]
  · rw [h.dirs]

/-- The entry of a page that has been written to the slot `k` names the slot, and its frame is in
hand. -/
theorem Inv.swapEntry (h : Inv ((m.skipSlot k).skipPage d v) hand s)
    (hp : (s.look d v).p = true) (hk : 1 ≤ k ∧ k < 12437) (hv : v < 524288)
    (hbit : s.bitmap k = true)
    (hfresh : ∀ d' v', (s.look d' v').Swapped → (s.look d' v').pfn ≠ k)
    (hstored : ∃ ev, s.evicted d v = some ev ∧ ev.pte = s.look d v ∧
      ∀ o < 4096, s.slotBytes k o = ev.node o) :
    Inv m ((s.look d v).pfn :: hand)
      (s.setPte d v { s.look d v with pfn := k, p := false }) := by
  have hw : (s.walkpgdir d v).isSome := by rw [Kernel.walk_of_present hp]; rfl
  generalize he : ({ s.look d v with pfn := k, p := false } : Pte) = e
  have hepfn : e.pfn = k := by rw [← he]
  have hep : e.p = false := by rw [← he]
  have hswapped : e.Swapped := ⟨hep, fun hz => by
    rw [hz] at hepfn
    have hz0 : Pte.zero.pfn = 0 := rfl
    omega⟩
  have hslots : Slots (s.setPte d v e) := by
    obtain ⟨ev, hev, hpte, hbytes⟩ := hstored
    apply h.slots.setPte_swapped hw
    · rwa [hepfn]
    · rw [hepfn, hbit]
    · rwa [hepfn]
    · refine ⟨ev, hev, ?_, ?_, ?_⟩
      · rw [hpte, hp]
      · rw [← he, hpte]
      · rwa [hepfn]
  apply Inv.unskipSlot (k := k)
  · refine h.unmap hp hep (fun _ => hv) hslots fun k' hk' hb' => ?_
    obtain ⟨d', v', hs', hpfn⟩ := h.exact k' hk' hb'
    have hdv : ¬ (d' = d ∧ v' = v) := by
      rintro ⟨rfl, rfl⟩
      exact Pte.not_swapped_of_p hp hs'
    rw [← Kernel.look_setPte_of_ne (e := e) hdv] at hs' hpfn
    exact ⟨d', v', hs', hpfn⟩
  · intro _ _
    refine ⟨d, v, ?_, ?_⟩ <;> rw [Kernel.look_setPte_self hw]
    · exact hswapped
    · exact hepfn

/-- The victim's page goes to a slot, and its frame is free and handed out at once. -/
theorem evictVictim_spec (h : Inv m hand s) (hl : Lists m s l) (hi : i ∈ l) :
    Meets m (evictVictim i s.getAvailableBitmap) s (fun f s' =>
      Inv m.lax (f :: hand) { s' with held := f :: s'.held } ∧ Kept s s') := by
  have hp : (s.look (s.node i).pgdir ((s.node i).vaddr / 4096)).p = true := hl.present i hi
  unfold evictVictim
  apply Ensures.read_bind
  dsimp only
  generalize (s.node i).pgdir = d at hp ⊢
  generalize (s.node i).vaddr / 4096 = v at hp ⊢
  rw [Kernel.walk_of_present hp]
  dsimp only
  apply Ensures.bind swapwrite_available
  rintro - s₁ ⟨k, hk, hrange, hb, hwr⟩
  rw [hk, Int.toNat_natCast]
  apply Ensures.change_bind
  apply Ensures.change_bind
  have hnode : s₁.structBytes i = s.structBytes i := by rw [hwr.only]; rfl
  generalize hev : (⟨s₁.mem (s.look d v).pfn, s₁.structBytes i, s.look d v⟩ : Eviction) = ev
  have hinv : Inv (m.skipSlot k) hand ((s₁.evict d v ev).setBitmap k true) := h.write hp hb hwr
  have hkept : Kept s ((s₁.evict d v ev).setBitmap k true) := hwr.kept hp
  generalize ht : (s₁.evict d v ev).setBitmap k true = t at hinv hkept ⊢
  have hlook : ∀ {d v}, t.look d v = s.look d v := fun {d v} => by
    rw [← ht]
    exact Kernel.look_congr hwr.dirs
  have hfree := kfree_page hinv (d := d) (v := v) (by rw [hlook, hp])
  rw [hlook] at hfree
  apply Ensures.bind hfree
  rintro - _ ⟨s₄, rfl, hinv₄, hro, hrun⟩
  apply Ensures.change_bind
  apply Ensures.pure
  have hlook₄ : ∀ {d v}, s₄.look d v = s.look d v := fun {d v} => by
    rw [Kernel.look_congr hro.dirs, hlook]
  have hp₄ : (s₄.look d v).p = true := by rw [hlook₄, hp]
  have hsame : (s₄.pushFree (s.look d v).pfn).look d v = s₄.look d v := rfl
  have hev₄ : s₄.evicted d v = some ev := by
    rw [hro.evicted, ← ht]
    change Function.update s₁.evicted d (Function.update (s₁.evicted d) v (some ev)) d v = _
    rw [Function.update_self, Function.update_self]
  have hslot : ∀ o < 4096, s₄.slotBytes k o = ev.node o := by
    intro o ho
    rw [Kernel.slotBytes, hro.disk, ← ht, ← hev]
    exact (hwr.self o ho).trans (congrFun hnode.symm o)
  rw [hsame]
  have hswap : Inv m ((s.look d v).pfn :: hand)
      (s₄.setPte d v { s₄.look d v with pfn := k, p := false }) := by
    rw [← hlook₄]
    refine hinv₄.swapEntry hp₄ hrange ?_ ?_ (fun d' v' hs' => ?_) ⟨ev, hev₄, ?_, hslot⟩
    · apply h.tidy.user (d := d)
      intro hz
      rw [hz] at hp
      cases hp
    · rw [hro.bitmap, ← ht]
      exact Function.update_self ..
    · rintro hpfn
      rw [hlook₄] at hs' hpfn
      have hu := h.slots.used hs'
      rw [hpfn, hb] at hu
      cases hu
    · rw [← hev, hlook₄]
  have hkept₄ := (hkept.trans (hro.kept hrun)).trans
    (Kept.flags (e := { s₄.look d v with pfn := k, p := false }) hp₄)
  exact ⟨hswap.regain, ⟨⟨hkept₄.dirs, hkept₄.walk, hkept₄.look, hkept₄.evicted, hkept₄.kernel,
    hkept₄.running⟩, hkept₄.table⟩⟩

theorem swapout_spec (h : Inv m hand s) : Meets m swapout s (fun f s' =>
    Inv m.lax (f :: hand) { s' with held := f :: s'.held } ∧ Kept s s') := by
  apply Ensures.read_bind
  split
  case isTrue => exact Ensures.stop (full_of_ne (by simp))
  case isFalse =>
    have hclock : Meets m clock s (fun i s' => Inv m hand s' ∧ Swept s s' ∧
        ∃ l, RingOf s' l ∧ Lists m s' l ∧ i ∈ l) := by
      apply (clock_spec h).mono fun _ _ h => h
      rintro e s' (rfl | rfl) <;> exact full_of_ne (by simp)
    apply Ensures.bind hclock
    rintro i s₁ ⟨h₁, hs, l, -, hl, hi⟩
    have hb : s.getAvailableBitmap = s₁.getAvailableBitmap := by
      rw [Kernel.getAvailableBitmap, Kernel.getAvailableBitmap, hs.bitmap]
    rw [hb]
    apply (evictVictim_spec h₁ hl hi).mono _ fun _ _ he => he
    exact fun f s' h' => ⟨h'.1, hs.toKept.trans h'.2⟩

theorem Inv.exclusive {r : ℕ} {rest : List ℕ} (h : Inv m hand s) (hfree : s.freelist = r :: rest)
    (hs : m.strict) : Exclusive ⟨s, r, { s with freelist := rest }⟩ := by
  obtain ⟨hnd, hapart⟩ := h.supply.strict hs
  rw [hfree] at hnd hapart
  have hr : r ∉ s.held := hapart r List.mem_cons_self
  refine ⟨(List.nodup_cons.1 hnd).1, hr, fun d v hp hpfn => hr ?_⟩
  have hp' : (s.look d v).p = true := hp
  have hpfn' : (s.look d v).pfn = r := hpfn
  exact hpfn' ▸ h.custody.held_of_own (Kernel.own_page_of_present hp')

/-- With a frame on the free list `kalloc` does not fail. -/
theorem kalloc_of_free {r : ℕ} {rest : List ℕ} (h : Inv m hand s)
    (hfree : s.freelist = r :: rest) :
    Ensures (Admitted m.strict) (Granted m.strict) kalloc s (fun f s' => f = r ∧ r ∉ s.held ∧
      s' = { s with freelist := rest, held := r :: s.held }) (fun _ _ => False) := by
  have htake : Ensures (Admitted m.strict) (Granted m.strict) takeFrame s
      (fun f s' => f = r ∧ s' = { s with freelist := rest }) (fun _ _ => False) := by
    apply Ensures.read_bind
    rw [hfree]
    apply Ensures.change_bind
    exact Ensures.pure ⟨rfl, rfl⟩
  apply Ensures.read_bind
  apply Ensures.bind htake
  rintro r _ ⟨rfl, rfl⟩
  apply Ensures.read_bind
  apply Ensures.bind (Q := fun _ s' => s' = { s with freelist := rest } ∧ r ∉ s.held)
  · apply Ensures.emit
    intro hA
    refine ⟨fun hs => h.exclusive hfree hs, rfl, ?_⟩
    by_cases hs : m.strict
    · exact (h.exclusive hfree hs).2.1
    · exact hA.2 hs (by rw [hfree]; exact List.cons_ne_nil r rest)
  · rintro - _ ⟨rfl, hr⟩
    apply Ensures.change_bind
    exact Ensures.pure ⟨rfl, hr, rfl⟩

theorem kalloc_spec (h : Inv m hand s) : Meets m kalloc s (fun f s' =>
    Inv m (f :: hand) s' ∧ Kept s s') := by
  cases hfree : s.freelist with
  | nil =>
    have htake : Meets m takeFrame s (fun f s' =>
        Inv m.lax (f :: hand) { s' with held := f :: s'.held } ∧ Kept s s') := by
      apply Ensures.read_bind
      rw [hfree]
      exact swapout_spec h
    apply Ensures.read_bind
    apply Ensures.bind htake
    rintro f s₁ ⟨h₁, hk⟩
    apply Ensures.read_bind
    apply Ensures.bind (Q := fun _ s' => s' = s₁ ∧ ¬ m.strict)
    · apply Ensures.emit
      intro hA
      have hns : ¬ m.strict := fun hs => hA.1 hs hfree
      exact ⟨fun hs => absurd hs hns, rfl, hns⟩
    · rintro - _ ⟨rfl, hns⟩
      apply Ensures.change_bind
      apply Ensures.pure
      exact ⟨h₁.unlax hns, ⟨⟨hk.dirs, hk.walk, hk.look, hk.evicted, hk.kernel, hk.running⟩,
        hk.table⟩⟩
  | cons r rest =>
    apply (kalloc_of_free h hfree).mono _ fun _ _ he => he.elim
    rintro f _ ⟨rfl, hr, rfl⟩
    exact ⟨h.take hfree hr, ⟨⟨id, id, fun _ _ => rfl, fun _ _ => rfl, rfl, id⟩, fun _ => rfl⟩⟩

theorem kernelAlloc_spec (h : Inv m [] s) : Meets m kernelAlloc s (fun _ s' =>
    Inv m [] s' ∧ (Fresh s → Fresh s')) := by
  apply Ensures.bind (kalloc_spec h)
  rintro f s₁ ⟨h₁, hk⟩
  apply Ensures.change
  refine ⟨?_, hk.toGrown.fresh⟩
  exact h₁.forget h₁.custody (h₁.supply.congr rfl rfl) h₁.tidy.table
    (fun _ _ => .inl rfl) ⟨rfl, rfl, rfl, rfl⟩ ⟨rfl, rfl, rfl⟩

end
end Swap
