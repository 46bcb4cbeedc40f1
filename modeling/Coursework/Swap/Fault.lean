import Coursework.Swap.Spaces

/-! The page fault: `swapin` maps the page again with what its slot holds. Then every step of
the system keeps the invariant. -/
namespace Swap
open Program

section
variable {m : Mode} {hand : List ℕ} {s s' : Kernel} {d v f k va : ℕ} {e : Pte}
variable {A G : Handout → Prop}

/-- `swapread` of a slot in range. -/
theorem swapread_spec (hk : k < 12437) :
    Ensures A G (swapread f k) s (fun _ s' => ∃ b, s' = s.setMem f b ∧
      ∀ o < 4096, b o = s.slotBytes k o) (fun _ _ => False) := by
  unfold swapread
  rw [if_neg (by omega)]
  -- The sectors that are left to read do not matter yet.
  have hloop := Ensures.forM (A := A) (G := G) (E := fun _ _ => False)
    (f := fun i => (change fun s => s.setMem f fun o =>
      if i * 512 ≤ o ∧ o < (i + 1) * 512 then
        s.disk ((k : ℤ).toNat * 8 + 500 + i) (o - i * 512) else s.mem f o : M Unit))
    (I := fun is s' => ∃ b, s' = s.setMem f b ∧ ∀ o < 4096, o / 512 ∉ is →
      b o = s.slotBytes k o)
    (fun i is s' ⟨b, hs', hb⟩ => by
      apply Ensures.change
      subst hs'
      refine ⟨_, congrArg (fun M => { s with mem := M }) (Function.update_idem _ _ _),
        fun o ho his => ?_⟩
      rw [Int.toNat_natCast]
      by_cases hi : o / 512 = i
      · rw [if_pos (by omega), Kernel.slotBytes, hi, show o - i * 512 = o % 512 by omega]
        rfl
      · rw [if_neg (by omega)]
        change Function.update s.mem f b f o = _
        rw [Function.update_self]
        exact hb o ho fun hc => (List.mem_cons.1 hc).elim hi his)
    (List.range' 0 8) (s := s)
    ⟨s.mem f, congrArg (fun M => { s with mem := M }) (Function.update_eq_self _ _).symm,
      fun o ho his => absurd (List.mem_range'_1.2 (by omega)) his⟩
  apply hloop.mono _ fun _ _ he => he
  rintro - s' ⟨b, hs', hb⟩
  exact ⟨b, hs', fun o ho => hb o ho List.not_mem_nil⟩

theorem Inv.skipSlot (h : Inv m hand s) : Inv (m.skipSlot k) hand s :=
  ⟨h.custody, ⟨h.supply.1, h.supply.2, h.supply.3⟩, h.tidy, h.slots,
    h.ring.imp fun _ hl => ⟨hl.1, hl.2.1, hl.2.2, hl.2.3, hl.2.4⟩, fun k' hk' => h.exact k' hk'.2⟩

theorem Inv.clearBit (h : Inv (m.skipSlot k) hand s)
    (hk : ∀ d v, (s.look d v).Swapped → (s.look d v).pfn ≠ k) :
    Inv m hand (s.setBitmap k false) := by
  refine ⟨h.custody, ⟨h.supply.1, h.supply.2, h.supply.3⟩, ⟨h.tidy.1, h.tidy.2⟩,
    ⟨h.slots.1, fun {d v} hs => ?_, h.slots.3, h.slots.4⟩, ?_, fun k' hk' hb => ?_⟩
  · exact (Function.update_of_ne (hk d v hs) ..).trans (h.slots.used hs)
  · obtain ⟨l, hr, hl⟩ := h.ring
    exact ⟨l, hr.congr ⟨rfl, rfl, rfl, rfl⟩, hl.1, hl.2, hl.3, hl.4⟩
  · change Function.update s.bitmap k false k' = true at hb
    by_cases e : k' = k
    · rw [e, Function.update_self] at hb
      cases hb
    · rw [Function.update_of_ne e] at hb
      exact h.exact k' ⟨e, hk'⟩ hb

/-- What `swapin` did to the page of the fault. -/
structure Restored (d v : ℕ) (s s' : Kernel) : Prop where
  page : ∀ ev, (s.look d v).Swapped → s.evicted d v = some ev →
    ∃ f, s'.look d v = { ev.pte with pfn := f } ∧ ∀ o < 4096, s'.mem f o = ev.node o

theorem swapin_spec (h : Inv m hand s) (hf : Fresh s) (hd : (s.dirs d).isSome)
    (hva : va < 2 ^ 32)
    (ha : m.covered d (va / 4096) → (s.look d (va / 4096)).Swapped → va % 4096 = 0)
    (hs : ¬ m.skipped d (va / 4096)) :
    Meets m (swapin d va) s (fun _ s' => Inv m hand s' ∧ Fresh s' ∧
      Restored d (va / 4096) s s') := by
  apply Ensures.bind (walkpgdirAlloc_spec h hd (v := va / 4096) (by omega))
  rintro - s₁ ⟨h₁, hg, hw, hsame⟩
  generalize hv : va / 4096 = v at *
  have hlook₁ : s₁.look d v = s.look d v := by
    by_cases hp : (s.look d v).p = true
    · rw [hsame (by rw [Kernel.walk_of_present hp]; rfl)]
    · exact hg.look id (by simpa using hp)
  apply Ensures.read_bind
  dsimp only
  by_cases hsw : (s₁.look d v).Swapped
  · rw [if_pos hsw]
    apply Ensures.bind (kalloc_spec h₁)
    rintro f s₂ ⟨h₂, hk₂⟩
    have hlook₂ : s₂.look d v = s₁.look d v := hk₂.look id hsw.1
    have hsw₂ : (s₂.look d v).Swapped := hlook₂ ▸ hsw
    obtain ⟨ev, hev, hevp, hevl, hbytes⟩ := h₂.slots.stored hsw₂
    have hlt := (h₂.slots.range hsw₂).2
    have hbit := h₂.slots.used hsw₂
    rw [← hlook₂]
    generalize hk : (s₂.look d v).pfn = k at *
    have hread : Meets m (readSlot f k) s₂ (fun _ s' => ∃ b, s' = s₂.setMem f b ∧
        ∀ o < 4096, b o = s₂.slotBytes k o) := by
      apply Ensures.read_bind
      rw [if_pos hbit]
      exact (swapread_spec hlt).mono (fun _ _ h => h) fun _ _ h => h.elim
    apply Ensures.bind hread
    rintro - _ ⟨b, rfl, hb⟩
    apply Ensures.change_bind
    have hw₂ : (s₂.walkpgdir d v).isSome := hk₂.walk hw
    have h₃ : Inv (m.skipSlot k) (f :: hand) (s₂.setMem f b) := (h₂.setMem f b).skipSlot
    generalize he : ({ (s₂.setMem f b).look d v with pfn := f, p := true } : Pte) = e
    have hep : e.p = true := by rw [← he]
    have h₄ : Inv ((m.skipSlot k).skipPage d v) hand ((s₂.setMem f b).setPte d v e) := by
      refine Inv.map ?_ hw₂ hsw₂.1 hep (h₂.tidy.user hsw₂.2) fun _ hc => hc.1 hk
      rw [show e.pfn = f by rw [← he]]
      exact h₃
    have hlook₄ : ∀ {d' v'}, ((s₂.setMem f b).setPte d v e).look d' v' =
        if d' = d ∧ v' = v then e else s₂.look d' v' := fun {d' v'} => Kernel.look_setPte hw₂
    apply Ensures.bind (Q := fun _ s' => Inv (m.skipSlot k) hand s' ∧
      RingOnly ((s₂.setMem f b).setPte d v e) s' ∧ Running s')
    · refine lruAppend_inv h₄ ?_ hv (fun hc => ha hc (hlook₁ ▸ hsw)) hs
      rw [hlook₄, if_pos ⟨rfl, rfl⟩, hep]
    · rintro - s₅ ⟨h₅, hro, hrun⟩
      have hlook₅ : ∀ {d' v'}, s₅.look d' v' = if d' = d ∧ v' = v then e else s₂.look d' v' :=
        fun {d' v'} => (Kernel.look_congr hro.dirs).trans hlook₄
      apply Ensures.change_bind
      apply Ensures.pure
      refine ⟨h₅.clearBit fun d' v' hs' hpfn => ?_, fresh_of_running hrun,
        ⟨fun ev' _ hev' => ⟨f, ?_, fun o ho => ?_⟩⟩⟩
      · rw [hlook₅] at hs' hpfn
        split at hs'
        case isTrue => exact Pte.not_swapped_of_p hep hs'
        case isFalse hne =>
          rw [if_neg hne] at hpfn
          exact hne (h₂.slots.inj hs' hsw₂ (hpfn.trans hk.symm))
      all_goals
        have hsame : ev' = ev := by
          rw [hk₂.evicted id hsw.1, hg.evicted id (by rw [← hlook₁]; exact hsw.1), hev'] at hev
          exact Option.some.inj hev
      · change s₅.look d v = _
        rw [hlook₅, if_pos ⟨rfl, rfl⟩, ← he, hsame]
        change ({ s₂.look d v with pfn := f, p := true } : Pte) = _
        rw [hevl, ← hevp]
      · change s₅.mem f o = _
        rw [hro.mem, hsame, ← hbytes o ho, ← hb o ho]
        change Function.update s₂.mem f b f o = _
        rw [Function.update_self]
  · rw [if_neg hsw]
    apply Ensures.pure
    refine ⟨h₁, hg.fresh hf, ⟨fun _ hs' => absurd ?_ hsw⟩⟩
    rwa [hlook₁]

theorem access_spec {byte : Option ℕ} (h : Inv m hand s) (hf : Fresh s) (hd : (s.dirs d).isSome)
    (hva : va < 2 ^ 32)
    (ha : m.covered d (va / 4096) → (s.look d (va / 4096)).Swapped → va % 4096 = 0)
    (hs : ¬ m.skipped d (va / 4096)) :
    Meets m (access d va byte) s (fun _ s' => Inv m hand s' ∧ Fresh s' ∧
      Restored d (va / 4096) s s') := by
  apply Ensures.read_bind
  dsimp only
  split
  case isTrue hc =>
    apply Ensures.change
    have hp : (s.look d (va / 4096)).p = true := by
      rw [Bool.and_eq_true, Bool.and_eq_true] at hc
      exact hc.1.1
    have hrun : Running s := by
      by_contra hn
      rw [hf hn] at hp
      cases hp
    refine ⟨(h.flags ?_ ?_ ?_).setMem _ _, fresh_of_running hrun,
      ⟨fun _ hs' => absurd hs' (Pte.not_swapped_of_p hp)⟩⟩
    · exact hp
    · exact hp
    · rfl
  case isFalse =>
    apply Ensures.bind (swapin_spec h hf hd hva ha hs)
    exact fun _ s' h' => Ensures.pure h'

end

/-- The steps that keep the invariant of the mode `m`. -/
def Fits (m : Mode) (s : Kernel) : Op → Prop
  | .kalloc | .kfree _ | .setupkvm | .deallocuvm .. => True
  | .inituvm d _ _ => Vacant m s d 0 ∧
      ((∀ d v, ¬ m.covered d v) ∨ ∀ d v, (s.look d v).p = false)
  | .allocuvm d oldsz newsz => ∀ v ∈ pageRange oldsz newsz, Vacant m s d v
  | .copyuvm _ sz => sz = 0 ∨ ∀ d v, ¬ m.covered d v
  | .freevm d => ∀ v, (s.look d v).Swapped → ¬ m.exact (s.look d v).pfn
  | .access d va _ => m.covered d (va / 4096) → (s.look d (va / 4096)).Swapped → va % 4096 = 0

/-- What holds between two steps. -/
structure Sound (m : Mode) (s : Kernel) : Prop where
  inv : Inv m [] s
  fresh : Fresh s

theorem exec_spec {m : Mode} (hm : ∀ d v, ¬ m.skipped d v) {s : Kernel} {op : Op}
    (h : Sound m s) (hl : Legal s op) (hfit : Fits m s op) :
    Meets m (exec op) s (fun _ => Sound m) := by
  obtain ⟨h, hf⟩ := h
  cases op with
  | kalloc => exact (kernelAlloc_spec h).mono (fun _ _ h' => ⟨h'.1, h'.2 hf⟩) fun _ _ he => he
  | kfree k => exact (kernelFree_spec h).mono (fun _ _ h' => ⟨h'.1, h'.2 hf⟩) fun _ _ he => he
  | setupkvm =>
    apply Ensures.bind (setupkvm_spec h)
    exact fun _ s' h' => Ensures.pure ⟨h'.1, h'.2.1.fresh hf⟩
  | inituvm d init sz =>
    apply (inituvm_spec h hl hfit.1 hfit.2 (hm d 0)).mono _ fun _ _ he => he
    exact fun _ _ h' => ⟨h'.1, h'.2⟩
  | allocuvm d oldsz newsz =>
    apply Ensures.bind (allocuvm_spec h hf hl hfit (hm d))
    exact fun _ s' h' => Ensures.pure ⟨h'.1, h'.2⟩
  | deallocuvm d oldsz newsz =>
    apply Ensures.bind (deallocuvm_spec h)
    exact fun _ s' h' => Ensures.pure ⟨h'.1, h'.2.1.fresh hf⟩
  | copyuvm d sz =>
    apply Ensures.bind (copyuvm_spec h hf hl.2 hfit)
    exact fun _ s' h' => Ensures.pure ⟨h'.1, h'.2⟩
  | freevm d =>
    apply (freevm_spec h hl hfit).mono _ fun _ _ he => he
    exact fun _ _ h' => ⟨h'.1, h'.2.1 hf⟩
  | access d va byte =>
    apply (access_spec h hf hl.1 hl.2 hfit (hm d _)).mono _ fun _ _ he => he
    exact fun _ _ h' => ⟨h'.1, h'.2.1⟩

/-- After booting, nothing is mapped and no slot is taken. -/
theorem Boot.sound {m : Mode} {s : Kernel} (h : Boot s) : Sound m s := by
  have hz : ∀ d v, s.look d v = Pte.zero := fun d v =>
    Kernel.look_of_not_walk (Kernel.walkpgdir_of_none (h.dirs d))
  have hns : ∀ {d v}, ¬ (s.look d v).Swapped := fun {d v} hs => by
    rw [hz] at hs
    exact Pte.not_swapped_zero hs
  have hown : ∀ o, s.own o = none := by
    intro o
    cases o with
    | dir d => rw [Kernel.own_dir, h.dirs]; rfl
    | table d i => rw [Kernel.own, h.dirs]; rfl
    | page d v => exact Kernel.own_page_of_absent (by rw [hz]; rfl)
  refine ⟨⟨?_, ⟨h.frames, ?_, fun _ => ?_⟩, ⟨fun {d v} hne => absurd (hz d v) hne, ?_⟩,
    ⟨fun hs => absurd hs hns, fun hs => absurd hs hns, fun hs => absurd hs hns,
      fun hs => absurd hs hns⟩, ⟨[], ?_, ?_⟩, fun k _ hb => ?_⟩, fun _ => hz⟩
  · rw [List.nil_append, h.held]
    exact Custody.init h.kernel hown
  · rw [h.held]
    exact h.kernel_frames
  · rw [h.held]
    exact ⟨h.nodup, h.apart⟩
  · intro d D i t hd
    rw [h.dirs] at hd
    cases hd
  · exact ⟨h.numLru, .inr ⟨rfl, h.numFree⟩, h.head, List.nodup_nil,
      fun i hi => absurd hi List.not_mem_nil, Ring.linked_nil, fun i _ => h.node i⟩
  · refine ⟨fun i hi => absurd hi List.not_mem_nil, fun i hi => absurd hi List.not_mem_nil,
      fun i hi => absurd hi List.not_mem_nil, fun d v _ _ hp => ?_⟩
    rw [hz] at hp
    cases hp
  · rw [h.bitmap] at hb
    cases hb

/-- The runs of the kernel from `s₀` with the hand-outs `ws`, whose steps meet `P`: the panic
that ended the run, if one did, and the state reached. -/
abbrev Runs (P : Kernel → Op → Prop) (s₀ : Kernel) (ws : List Handout) (o : Option Panic)
    (s : Kernel) : Prop :=
  Visits exec (fun s op => Legal s op ∧ P s op) s₀ ws o s

/-- The end of a run: the invariant, or what a panic says. -/
def Ends (m : Mode) : Option Panic → Kernel → Prop
  | none, s => Sound m s
  | some e, s => Full e s

/-- In a run whose steps fit and whose hand-outs are admitted, the invariant holds, the
hand-outs are as granted, and a slot out of range is met only with all slots in use. -/
theorem Runs.sound {m : Mode} {P : Kernel → Op → Prop} {s₀ s : Kernel} {ws : List Handout}
    {o : Option Panic} (hm : ∀ d v, ¬ m.skipped d v)
    (hP : ∀ s op, Sound m s → P s op → Fits m s op)
    (hb : Boot s₀) (h : Runs P s₀ ws o s) (hA : ∀ w ∈ ws, Admitted m.strict w) :
    (∀ w ∈ ws, Granted m.strict w) ∧ Ends m o s := by
  have hrun := Visits.invariant (I := Sound m) (E := Full) (G := Granted m.strict)
    (fun s op hs (hl : Legal s op ∧ P s op) => exec_spec hm hs hl.1 (hP s op hs hl.2))
    hb.sound h hA
  cases o <;> exact hrun

end Swap
