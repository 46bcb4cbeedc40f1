import Coursework.Swap.Lru

/-! What the updates of the kernel state do to the invariant. -/
namespace Swap

/-- What a call of `kalloc` leaves as it was. -/
structure Kept (s s' : Kernel) : Prop extends Grown Nowhere s s' where
  table : ∀ d, (s'.dirs d).map Dir.table = (s.dirs d).map Dir.table

theorem Kept.refl (s : Kernel) : Kept s s := ⟨Grown.refl s, fun _ => rfl⟩

theorem Kept.trans {s s' s'' : Kernel} (h : Kept s s') (h' : Kept s' s'') : Kept s s'' :=
  ⟨h.toGrown.trans h'.toGrown, fun d => (h'.table d).trans (h.table d)⟩

theorem Kept.grown {X : ℕ → ℕ → Prop} {s s' : Kernel} (h : Kept s s') : Grown X s s' :=
  h.toGrown.mono fun _ _ hx => hx.elim

/-- The nodes of the ring are the same. -/
structure SameRing (s s' : Kernel) : Prop where
  node : s'.node = s.node
  head : s'.head = s.head
  numFree : s'.numFree = s.numFree
  numLru : s'.numLru = s.numLru

/-- The swap area is the same. -/
structure SameSwap (s s' : Kernel) : Prop where
  bitmap : s'.bitmap = s.bitmap
  disk : s'.disk = s.disk
  evicted : s'.evicted = s.evicted

section
variable {m m' : Mode} {hand hand' l l' : List ℕ} {s s' : Kernel} {d v f i t k : ℕ} {e : Pte}

theorem RingOf.congr (h : RingOf s l) (hs : SameRing s s') : RingOf s' l where
  numLru := hs.numLru.trans h.numLru
  numFree := by rw [hs.numFree]; exact h.numFree
  head := hs.head.trans h.head
  nodup := h.nodup
  lt := h.lt
  linked := by rw [hs.node]; exact h.linked
  zero i hi := by rw [hs.node, h.zero i hi]

theorem Slots.forget (h : Slots s) (hs : SameSwap s s')
    (hl : ∀ {d v}, (s'.look d v).Swapped → s'.look d v = s.look d v) : Slots s' := by
  have hb : ∀ k o, s'.slotBytes k o = s.slotBytes k o := fun k o => by
    rw [Kernel.slotBytes, Kernel.slotBytes, hs.disk]
  refine ⟨fun hw => ?_, fun hw => ?_, fun hw hw' hk => ?_, fun hw => ?_⟩
  · have e := hl hw
    rw [e] at hw ⊢
    exact h.range hw
  · have e := hl hw
    rw [e] at hw ⊢
    rw [hs.bitmap]
    exact h.used hw
  · rw [hl hw, hl hw'] at hk
    exact h.inj (hl hw ▸ hw) (hl hw' ▸ hw') hk
  · have e := hl hw
    rw [e] at hw ⊢
    obtain ⟨ev, hev, hp, hlook, hbytes⟩ := h.stored hw
    exact ⟨ev, by rw [hs.evicted, hev], hp, hlook, fun o ho => by rw [hb, hbytes o ho]⟩

/-- Some absent entries are dropped, and nothing else happens to the entries. -/
theorem Inv.forget (h : Inv m hand s) (hc : Custody s'.own (hand' ++ s'.kernel) s'.held)
    (hsup : Supply m s')
    (htab : ∀ {d D i t}, s'.dirs d = some D → D.table i = some t → i < 1024)
    (hl : ∀ d v, s'.look d v = s.look d v ∨ s'.look d v = Pte.zero ∧ (s.look d v).p = false ∧
      ((s.look d v).Swapped → ¬ m.exact (s.look d v).pfn))
    (hr : SameRing s s') (hs : SameSwap s s') : Inv m hand' s' := by
  have hp : ∀ d v, (s'.look d v).p = (s.look d v).p := by
    intro d v
    rcases hl d v with e | ⟨e, hp, -⟩
    · rw [e]
    · rw [e, hp]; rfl
  have hkeep : ∀ {d v}, s'.look d v ≠ Pte.zero → s'.look d v = s.look d v := fun hne =>
    (hl _ _).resolve_right fun e => hne e.1
  have hswap : ∀ {d v}, (s'.look d v).Swapped → s'.look d v = s.look d v := fun hw =>
    hkeep hw.2
  refine ⟨hc, hsup, ⟨fun {d v} hne => ?_, htab⟩, h.slots.forget hs hswap, ?_,
    fun k hk hb => ?_⟩
  · have e := hkeep hne
    rw [e] at hne
    exact h.tidy.user hne
  · obtain ⟨l, hring, hlists⟩ := h.ring
    exact ⟨l, hring.congr hr, hlists.congr hp hr.node⟩
  · rw [hs.bitmap] at hb
    obtain ⟨d, v, hw, hpfn⟩ := h.exact k hk hb
    rcases hl d v with e | ⟨-, -, hx⟩
    · exact ⟨d, v, by rwa [e], by rwa [e]⟩
    · exact absurd (hpfn ▸ hk) (hx hw)

theorem Supply.congr (h : Supply m s) (hf : s'.freelist = s.freelist) (hh : s'.held = s.held) :
    Supply m s' := by
  refine ⟨?_, ?_, ?_⟩
  · rw [hf]
    exact h.free_lt
  · rw [hh]
    exact h.held_lt
  · rw [hf, hh]
    exact h.strict

theorem Inv.lax (h : Inv m hand s) : Inv m.lax hand s :=
  ⟨h.custody, ⟨h.supply.1, h.supply.2, fun hs => hs.elim⟩, h.tidy, h.slots,
    h.ring.imp fun _ hl => ⟨hl.1, hl.2.1, hl.2.2, hl.2.3, hl.2.4⟩, h.exact⟩

theorem Inv.unlax (h : Inv m.lax hand s) (hs : ¬ m.strict) : Inv m hand s :=
  ⟨h.custody, ⟨h.supply.1, h.supply.2, fun hs' => absurd hs' hs⟩, h.tidy, h.slots,
    h.ring.imp fun _ hl => ⟨hl.1, hl.2.1, hl.2.2, hl.2.3, hl.2.4⟩, h.exact⟩

theorem Inv.take {r : ℕ} {rest : List ℕ} (h : Inv m hand s) (hfree : s.freelist = r :: rest)
    (hr : r ∉ s.held) :
    Inv m (r :: hand) { s with freelist := rest, held := r :: s.held } := by
  refine h.forget (h.custody.take hr) ⟨fun f hf => ?_, fun f hf => ?_, fun hs => ?_⟩ h.tidy.table
    (fun _ _ => .inl rfl) ⟨rfl, rfl, rfl, rfl⟩ ⟨rfl, rfl, rfl⟩
  · exact h.supply.free_lt f (hfree ▸ List.mem_cons_of_mem _ hf)
  · rcases List.mem_cons.1 hf with rfl | hf
    · exact h.supply.free_lt f (hfree ▸ List.mem_cons_self)
    · exact h.supply.held_lt f hf
  · obtain ⟨hnd, hapart⟩ := h.supply.strict hs
    rw [hfree] at hnd hapart
    obtain ⟨hrest, hnd⟩ := List.nodup_cons.1 hnd
    refine ⟨hnd, fun f hf hf' => ?_⟩
    rcases List.mem_cons.1 hf' with rfl | hf'
    · exact hrest hf
    · exact hapart f (List.mem_cons_of_mem _ hf) hf'

theorem Inv.pushFree (h : Inv m (f :: hand) s) : Inv m hand (s.pushFree f) := by
  have hheld : f ∈ s.held := h.custody.held_of_hand List.mem_cons_self
  refine h.forget h.custody.give ⟨fun g hg => ?_, fun g hg => ?_, fun hs => ?_⟩ h.tidy.table
    (fun _ _ => .inl rfl) ⟨rfl, rfl, rfl, rfl⟩ ⟨rfl, rfl, rfl⟩
  · rcases List.mem_cons.1 hg with rfl | hg
    · exact h.supply.held_lt g hheld
    · exact h.supply.free_lt g hg
  · exact h.supply.held_lt g (List.mem_of_mem_erase hg)
  · obtain ⟨hnd, hapart⟩ := h.supply.strict hs
    refine ⟨List.nodup_cons.2 ⟨fun hf => hapart f hf hheld, hnd⟩, fun g hg hg' => ?_⟩
    rcases List.mem_cons.1 hg with rfl | hg
    · exact h.custody.nodup.not_mem_erase hg'
    · exact hapart g hg (List.mem_of_mem_erase hg')

theorem Inv.relist (h : Inv m hand s) (hro : RingOnly s s') (hr : RingOf s' l)
    (hl : Lists m' s' l) (hs : m'.strict = m.strict) (he : m'.exact = m.exact) :
    Inv m' hand s' := by
  have hlook : ∀ {d v}, s'.look d v = s.look d v := fun {d v} => Kernel.look_congr hro.dirs
  refine ⟨?_, ?_, ⟨fun {d v} hne => ?_, fun {d D i t} hd => ?_⟩, ?_, ⟨l, hr, hl⟩,
    fun k hk hb => ?_⟩
  · rw [Kernel.own_congr hro.dirs, hro.kernel, hro.held]
    exact h.custody
  · have hsup := h.supply.congr hro.freelist hro.held
    exact ⟨hsup.1, hsup.2, hs ▸ hsup.3⟩
  · rw [hlook] at hne
    exact h.tidy.user hne
  · rw [hro.dirs] at hd
    exact h.tidy.table hd
  · exact h.slots.forget ⟨hro.bitmap, hro.disk, hro.evicted⟩ fun _ => hlook
  · rw [he] at hk
    rw [hro.bitmap] at hb
    obtain ⟨d, v, hw, hpfn⟩ := h.exact k hk hb
    exact ⟨d, v, by rwa [hlook], by rwa [hlook]⟩

theorem Inv.uncovered (h : Inv (m.skipPage d v) hand s) (hc : ¬ m.covered d v) : Inv m hand s :=
  ⟨h.custody, ⟨h.supply.1, h.supply.2, h.supply.3⟩, h.tidy, h.slots,
    h.ring.imp fun _ hl => ⟨hl.1, hl.2.uncovered hc⟩, h.exact⟩

theorem SameRing.setPte : SameRing s (s.setPte d v e) := ⟨rfl, rfl, rfl, rfl⟩

theorem Inv.flags (h : Inv m hand s) (hp : (s.look d v).p = true) (he : e.p = true)
    (hf : e.pfn = (s.look d v).pfn) : Inv m hand (s.setPte d v e) := by
  have hw : (s.walkpgdir d v).isSome := by rw [Kernel.walk_of_present hp]; rfl
  have hne : s.look d v ≠ Pte.zero := fun hz => by rw [hz] at hp; cases hp
  have hown : (s.setPte d v e).own = s.own := by
    rw [Kernel.own_setPte hw, if_pos he, hf, ← Kernel.own_page_of_present hp,
      Function.update_eq_self]
  refine ⟨hown ▸ h.custody, h.supply.congr rfl rfl, h.tidy.setPte hw fun _ => h.tidy.user hne,
    h.slots.setPte hw (Pte.not_swapped_of_p he), ?_, fun k hk hb => ?_⟩
  · obtain ⟨l, hr, hl⟩ := h.ring
    exact ⟨l, hr.congr SameRing.setPte, hl.setPte_flags hp he⟩
  · obtain ⟨d', v', hw', hpfn⟩ := h.exact k hk hb
    have hdv : ¬ (d' = d ∧ v' = v) := by
      rintro ⟨rfl, rfl⟩
      exact Pte.not_swapped_of_p hp hw'
    rw [← Kernel.look_setPte_of_ne (e := e) hdv] at hw' hpfn
    exact ⟨d', v', hw', hpfn⟩

theorem Inv.map (h : Inv m (e.pfn :: hand) s) (hw : (s.walkpgdir d v).isSome)
    (hp : (s.look d v).p = false) (he : e.p = true) (hv : v < 524288)
    (hx : (s.look d v).Swapped → ¬ m.exact (s.look d v).pfn) :
    Inv (m.skipPage d v) hand (s.setPte d v e) := by
  refine ⟨?_, ⟨h.supply.1, h.supply.2, h.supply.3⟩, h.tidy.setPte hw fun _ => hv,
    h.slots.setPte hw (Pte.not_swapped_of_p he), ?_, fun k hk hb => ?_⟩
  · rw [Kernel.own_setPte hw, if_pos he]
    exact h.custody.hang (Kernel.own_page_of_absent hp)
  · obtain ⟨l, hr, hl⟩ := h.ring
    exact ⟨l, hr.congr SameRing.setPte, hl.setPte_present hw hp⟩
  · obtain ⟨d', v', hw', hpfn⟩ := h.exact k hk hb
    have hdv : ¬ (d' = d ∧ v' = v) := by
      rintro ⟨rfl, rfl⟩
      exact hx hw' (hpfn ▸ hk)
    rw [← Kernel.look_setPte_of_ne (e := e) hdv] at hw' hpfn
    exact ⟨d', v', hw', hpfn⟩

theorem Inv.unmap (h : Inv (m.skipPage d v) hand s) (hp : (s.look d v).p = true)
    (he : e.p = false) (hv : e ≠ Pte.zero → v < 524288) (hs : Slots (s.setPte d v e))
    (hx : ∀ k, m.exact k → s.bitmap k = true → ∃ d' v', ((s.setPte d v e).look d' v').Swapped ∧
      ((s.setPte d v e).look d' v').pfn = k) :
    Inv m ((s.look d v).pfn :: hand) (s.setPte d v e) := by
  have hw : (s.walkpgdir d v).isSome := by rw [Kernel.walk_of_present hp]; rfl
  refine ⟨?_, ⟨h.supply.1, h.supply.2, h.supply.3⟩, h.tidy.setPte hw hv, hs, ?_, hx⟩
  · rw [Kernel.own_setPte hw, he]
    exact h.custody.unhang (Kernel.own_page_of_present hp)
  · obtain ⟨l, hr, hl⟩ := h.ring
    exact ⟨l, hr.congr SameRing.setPte, hl.setPte_absent hw he⟩

theorem Inv.unmap_zero (h : Inv (m.skipPage d v) hand s) (hp : (s.look d v).p = true) :
    Inv m ((s.look d v).pfn :: hand) (s.setPte d v Pte.zero) := by
  have hw : (s.walkpgdir d v).isSome := by rw [Kernel.walk_of_present hp]; rfl
  refine h.unmap hp rfl (fun hne => absurd rfl hne) (h.slots.setPte hw Pte.not_swapped_zero)
    fun k hk hb => ?_
  obtain ⟨d', v', hw', hpfn⟩ := h.exact k hk hb
  have hdv : ¬ (d' = d ∧ v' = v) := by
    rintro ⟨rfl, rfl⟩
    exact Pte.not_swapped_of_p hp hw'
  rw [← Kernel.look_setPte_of_ne (e := Pte.zero) hdv] at hw' hpfn
  exact ⟨d', v', hw', hpfn⟩

/-- A page table from the hand. -/
theorem Inv.addTable {D : Dir} (h : Inv m (t :: hand) s) (hd : s.dirs d = some D)
    (hi : D.table i = none) (hlt : i < 1024) : Inv m hand (s.addTable d i t) := by
  refine h.forget ?_ (h.supply.congr rfl rfl) (fun {d' D' i' t'} hd' ht' => ?_)
    (fun _ _ => .inl (Kernel.look_addTable hd hi)) ⟨rfl, rfl, rfl, rfl⟩ ⟨rfl, rfl, rfl⟩
  · rw [Kernel.own_addTable hd hi]
    apply h.custody.hang
    change (s.dirs d).bind _ = none
    rw [hd]
    exact hi
  · rw [Kernel.dirs_addTable] at hd'
    split at hd'
    case isTrue =>
      obtain ⟨D₀, hD₀, rfl⟩ := Option.map_eq_some_iff.1 hd'
      change Function.update D₀.table i (some t) i' = some t' at ht'
      by_cases hii : i' = i
      · rwa [hii]
      · rw [Function.update_of_ne hii] at ht'
        exact h.tidy.table hD₀ ht'
    case isFalse => exact h.tidy.table hd' ht'

/-- A page directory from the hand. -/
theorem Inv.addDir (h : Inv m (d :: hand) s) : Inv m hand (s.addDir d) := by
  have hd : s.dirs d = none := by
    by_contra hne
    refine h.custody.apart (o := .dir d) (f := d) ?_ List.mem_cons_self
    rw [Kernel.own_dir, if_pos (Option.isSome_iff_ne_none.2 hne)]
  refine h.forget ?_ (h.supply.congr rfl rfl) (fun {d' D' i' t'} hd' ht' => ?_)
    (fun _ _ => .inl (Kernel.look_addDir hd)) ⟨rfl, rfl, rfl, rfl⟩ ⟨rfl, rfl, rfl⟩
  · rw [Kernel.own_addDir hd]
    apply h.custody.hang
    rw [Kernel.own_dir, hd]
    rfl
  · by_cases hdd : d' = d
    · subst hdd
      have e : (s.addDir d').dirs d' = some Dir.empty := Function.update_self ..
      rw [e] at hd'
      rw [← Option.some.inj hd'] at ht'
      cases ht'
    · have e : (s.addDir d).dirs d' = s.dirs d' := Function.update_of_ne hdd ..
      rw [e] at hd'
      exact h.tidy.table hd' ht'

/-- A page table without present pages, taken into the hand. -/
theorem Inv.dropTable {D : Dir} (h : Inv m hand s) (hd : s.dirs d = some D)
    (ht : D.table i = some t) (hp : ∀ v, (s.look d v).p = false)
    (hx : ∀ v, (s.look d v).Swapped → ¬ m.exact (s.look d v).pfn) :
    Inv m (t :: hand) (s.dropTable d i) := by
  refine h.forget ?_ (h.supply.congr rfl rfl) (fun {d' D' i' t'} hd' ht' => ?_)
    (fun d' v' => ?_) ⟨rfl, rfl, rfl, rfl⟩ ⟨rfl, rfl, rfl⟩
  · rw [Kernel.own_dropTable fun v _ => hp v]
    apply h.custody.unhang
    change (s.dirs d).bind _ = some t
    rw [hd]
    exact ht
  · rw [Kernel.dirs_dropTable] at hd'
    split at hd'
    case isTrue =>
      obtain ⟨D₀, hD₀, rfl⟩ := Option.map_eq_some_iff.1 hd'
      change Function.update D₀.table i none i' = some t' at ht'
      by_cases hii : i' = i
      · rw [hii, Function.update_self] at ht'
        cases ht'
      · rw [Function.update_of_ne hii] at ht'
        exact h.tidy.table hD₀ ht'
    case isFalse => exact h.tidy.table hd' ht'
  · rw [Kernel.look_dropTable]
    split
    case isTrue hc =>
      rw [hc.1]
      exact .inr ⟨rfl, hp v', hx v'⟩
    case isFalse => exact .inl rfl

/-- A page directory without page tables, taken into the hand. -/
theorem Inv.dropDir {D : Dir} (h : Inv m hand s) (hd : s.dirs d = some D)
    (ht : ∀ i, D.table i = none) : Inv m (d :: hand) (s.dropDir d) := by
  have hz : ∀ v, s.look d v = Pte.zero := fun v => by
    apply Kernel.look_of_not_walk
    rw [Kernel.walkpgdir_of_some hd, ht]
    rfl
  refine h.forget ?_ (h.supply.congr rfl rfl) (fun {d' D' i' t'} hd' ht' => ?_)
    (fun d' v' => .inl ?_) ⟨rfl, rfl, rfl, rfl⟩ ⟨rfl, rfl, rfl⟩
  · rw [Kernel.own_dropDir hd ht]
    apply h.custody.unhang
    rw [Kernel.own_dir, hd]
    rfl
  · by_cases hdd : d' = d
    · subst hdd
      have e : (s.dropDir d').dirs d' = none := Function.update_self ..
      rw [e] at hd'
      cases hd'
    · have e : (s.dropDir d).dirs d' = s.dirs d' := Function.update_of_ne hdd ..
      rw [e] at hd'
      exact h.tidy.table hd' ht'
  · rw [Kernel.look_dropDir]
    split
    case isTrue hc => rw [hc, hz v']
    case isFalse => rfl

end
end Swap
