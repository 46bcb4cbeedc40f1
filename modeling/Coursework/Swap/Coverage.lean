import Coursework.Swap.SlotAccounting

/-! The LRU ring and the present pages, and the copy of an address space when there are
frames enough. -/
namespace Swap
open Program

section
variable {m m' : Mode} {hand : List ℕ} {s s' s'' : Kernel} {d v f child a b : ℕ}
  {X Y : ℕ → ℕ → Prop}

/-- What a program that finds frames on the free list leaves as it was. It takes at most `n`
of them. -/
structure Calm (X : ℕ → ℕ → Prop) (n : ℕ) (s s' : Kernel) : Prop where
  look : ∀ {d v}, ¬ X d v → s'.look d v = s.look d v
  mem : ∀ {f}, f ∈ s.held → s'.mem f = s.mem f
  held : ∀ {f}, f ∈ s.held → f ∈ s'.held
  dirs : ∀ {d}, (s.dirs d).isSome → (s'.dirs d).isSome
  walk : ∀ {d v}, (s.walkpgdir d v).isSome → (s'.walkpgdir d v).isSome
  free : s.freelist.length ≤ s'.freelist.length + n

namespace Calm

theorem refl (s : Kernel) : Calm X 0 s s := ⟨fun _ => rfl, fun _ => rfl, id, id, id, le_rfl⟩

theorem trans (h : Calm X a s s') (h' : Calm X b s' s'') : Calm X (a + b) s s'' where
  look hx := (h'.look hx).trans (h.look hx)
  mem hf := (h'.mem (h.held hf)).trans (h.mem hf)
  held hf := h'.held (h.held hf)
  dirs hd := h'.dirs (h.dirs hd)
  walk hw := h'.walk (h.walk hw)
  free := by
    have h₁ := h.free
    have h₂ := h'.free
    omega

theorem mono (h : Calm X a s s') (hxy : ∀ d v, X d v → Y d v) (hab : a ≤ b) : Calm Y b s s' :=
  ⟨fun hy => h.look (mt (hxy _ _) hy), h.mem, h.held, h.dirs, h.walk,
    h.free.trans (Nat.add_le_add_left hab _)⟩

theorem take {r : ℕ} {rest : List ℕ} (hfree : s.freelist = r :: rest) :
    Calm X 1 s { s with freelist := rest, held := r :: s.held } :=
  ⟨fun _ => rfl, fun _ => rfl, List.mem_cons_of_mem _, id, id, by rw [hfree]; rfl⟩

theorem entries (hg : Grown X s s') (hl : ∀ {d v}, ¬ X d v → s'.look d v = s.look d v)
    (hm : s'.mem = s.mem) (hh : s'.held = s.held) (hf : s'.freelist = s.freelist) :
    Calm X 0 s s' :=
  ⟨hl, fun _ => by rw [hm], fun h => by rwa [hh], hg.dirs, hg.walk, by rw [hf]; exact le_rfl⟩

end Calm

theorem walkpgdirAlloc_of_free (h : Inv m hand s) (hd : (s.dirs d).isSome)
    (hv : v / 1024 < 1024) (hfree : ¬ (s.walkpgdir d v).isSome → s.freelist ≠ []) :
    Ensures (Admitted m.strict) (Granted m.strict) (walkpgdirAlloc d v) s (fun _ s' =>
      Inv m hand s' ∧ Calm Nowhere (if (s.walkpgdir d v).isSome then 0 else 1) s s' ∧
      (s'.walkpgdir d v).isSome) (fun _ _ => False) := by
  obtain ⟨D, hD⟩ := Option.isSome_iff_exists.1 hd
  have hwalk := Kernel.walkpgdir_of_some (v := v) hD
  apply Ensures.read_bind
  rw [hD]
  dsimp only
  cases ht : D.table (v / 1024) with
  | some t =>
    have hw : (s.walkpgdir d v).isSome := by rw [hwalk, ht]; rfl
    apply Ensures.pure
    rw [if_pos hw]
    exact ⟨h, Calm.refl s, hw⟩
  | none =>
    have hw : ¬ (s.walkpgdir d v).isSome := by rw [hwalk, ht]; simp
    obtain ⟨r, rest, hfree⟩ := List.exists_cons_of_ne_nil (hfree hw)
    apply Ensures.bind (kalloc_of_free h hfree)
    rintro t s₁ ⟨rfl, hr, hs₁⟩
    apply Ensures.change
    have h₁ : Inv m (t :: hand) s₁ := hs₁ ▸ h.take hfree hr
    have hD₁ : s₁.dirs d = some D := by rw [hs₁]; exact hD
    have htake : Calm Nowhere 1 s s₁ := hs₁ ▸ Calm.take hfree
    rw [if_neg hw]
    exact ⟨h₁.addTable hD₁ ht hv, htake.trans (Calm.entries (Grown.addTable hD₁ ht)
      (fun _ => Kernel.look_addTable hD₁ ht) rfl rfl rfl),
      Kernel.isSome_walkpgdir_addTable hD₁ rfl⟩

/-- The child's page has the parent's flags and bytes, in a frame of its own. -/
def Copied (s₀ : Kernel) (d child v : ℕ) (s : Kernel) : Prop :=
  (s₀.look d v).p = true ∧ ∃ f ∈ s.held, s.look child v = { s₀.look d v with pfn := f } ∧
    s.mem f = s₀.mem (s₀.look d v).pfn

/-- One round of `copyuvm` with frames enough: it fails on an absent page. -/
theorem copyPage_of_free (h : Inv m hand s) (hd : (s.dirs child).isSome) (hv : v < 524288)
    (hz : s.look child v = Pte.zero) (hc : ¬ m.covered child v)
    (hfree : 1 + (if (s.walkpgdir child v).isSome then 0 else 1) ≤ s.freelist.length) :
    Ensures (Admitted m.strict) (Granted m.strict) (copyPage d child v) s (fun _ s' =>
      Inv m hand s' ∧
      Calm (Only child v) (1 + if (s.walkpgdir child v).isSome then 0 else 1) s s' ∧
      Copied s d child v s' ∧ (s'.walkpgdir child v).isSome)
      (fun _ _ => (s.look d v).p = false) := by
  apply Ensures.read_bind
  cases hw : s.walkpgdir d v with
  | none =>
    apply Ensures.stop
    rw [Kernel.look_of_not_walk hw]
    rfl
  | some pte =>
    obtain rfl : s.look d v = pte := Kernel.look_of_walk hw
    dsimp only
    split
    case isFalse hp => exact Ensures.stop (by simpa using hp)
    case isTrue hp =>
      obtain ⟨r, rest, hrest⟩ : ∃ r rest, s.freelist = r :: rest := by
        apply List.exists_cons_of_ne_nil
        rintro he
        rw [he] at hfree
        simp at hfree
      apply Ensures.bind ((kalloc_of_free h hrest).mono (fun _ _ h => h) fun _ _ h => h.elim)
      rintro r s₁ ⟨rfl, hr, hs₁⟩
      apply Ensures.change_bind
      have h₁ : Inv m (r :: hand) s₁ := hs₁ ▸ h.take hrest hr
      have hcalm₁ : Calm (Only child v) 1 s s₁ := hs₁ ▸ Calm.take hrest
      have hmem₁ : s₁.mem = s.mem := by rw [hs₁]
      have hheld₁ : s₁.held = r :: s.held := by rw [hs₁]
      have hlen₁ : s₁.freelist.length + 1 = s.freelist.length := by
        rw [hs₁, hrest]
        rfl
      have hwalk₁ : s₁.walkpgdir child v = s.walkpgdir child v := by rw [hs₁]; rfl
      -- The bytes go into a frame that no page has had.
      have hpage : (s.look d v).pfn ∈ s.held :=
        h.custody.held_of_own (Kernel.own_page_of_present hp)
      generalize hs₂ : s₁.setMem r (s₁.mem (s.look d v).pfn) = s₂
      have h₂ : Inv m (r :: hand) s₂ := hs₂ ▸ h₁.setMem r _
      have hself₂ : s₂.mem r = s.mem (s.look d v).pfn := by
        rw [← hs₂, ← hmem₁]
        exact Function.update_self ..
      have hcalm₂ : Calm (Only child v) 1 s s₂ := by
        rw [← hs₂]
        refine ⟨hcalm₁.look, fun {g} hg => ?_, hcalm₁.held, hcalm₁.dirs, hcalm₁.walk, hcalm₁.free⟩
        have hne : g ≠ r := by
          rintro rfl
          exact hr hg
        exact (Function.update_of_ne hne ..).trans (hcalm₁.mem hg)
      have hheld₂ : r ∈ s₂.held := by
        rw [← hs₂]
        exact hheld₁ ▸ List.mem_cons_self
      have hwalk₂ : s₂.walkpgdir child v = s.walkpgdir child v := by
        rw [← hs₂, ← hwalk₁]
        rfl
      have hlook₂ : s₂.look child v = Pte.zero := by
        rw [Kernel.look, hwalk₂, ← Kernel.look, hz]
      have hlen₂ : s₂.freelist.length + 1 = s.freelist.length := by
        rw [← hs₂]
        exact hlen₁
      have hfree₂ : ¬ (s₂.walkpgdir child v).isSome → s₂.freelist ≠ [] := by
        intro hw₂ he
        rw [hwalk₂] at hw₂
        rw [if_neg hw₂] at hfree
        rw [he] at hlen₂
        simp at hlen₂
        omega
      apply Ensures.bind ((walkpgdirAlloc_of_free h₂ (hcalm₂.dirs hd) (by omega) hfree₂).mono
        (fun _ _ h => h) fun _ _ h => h.elim)
      rintro - s₃ ⟨h₃, hcalm₃, hw₃⟩
      rw [hwalk₂] at hcalm₃
      apply Ensures.read_bind
      have hlook₃ : s₃.look child v = Pte.zero := by rw [hcalm₃.look id, hlook₂]
      rw [if_neg (by rw [hlook₃]; simp)]
      apply Ensures.change
      have h₄ := (h₃.map (e := { s.look d v with pfn := r, p := true }) hw₃ (by rw [hlook₃]; rfl)
        rfl hv (fun hs => by rw [hlook₃] at hs; exact absurd hs Pte.not_swapped_zero)).uncovered hc
      refine ⟨h₄, (hcalm₂.trans (hcalm₃.mono (fun _ _ hx => hx.elim) le_rfl)).trans
        (Calm.entries Grown.setPte (fun hx => Kernel.look_setPte_of_ne hx) rfl rfl rfl),
        ⟨hp, r, hcalm₃.held hheld₂, ?_, ?_⟩, ?_⟩
      · rw [Kernel.look_setPte_self hw₃, ← hp]
      · change s₃.mem r = _
        rw [hcalm₃.mem hheld₂, hself₂]
      · rwa [Kernel.isSome_walkpgdir_setPte]

/-- With eleven frames on the free list, `setupkvm` makes an address space without pages. -/
theorem setupkvm_of_free (h : Inv m hand s) (hfree : 11 ≤ s.freelist.length) :
    Ensures (Admitted m.strict) (Granted m.strict) setupkvm s (fun child s' => Inv m hand s' ∧
      Calm Nowhere 11 s s' ∧ s.dirs child = none ∧ (s'.dirs child).isSome ∧
      ∀ v, s'.look child v = Pte.zero) (fun _ _ => False) := by
  obtain ⟨r, rest, hrest⟩ : ∃ r rest, s.freelist = r :: rest := by
    apply List.exists_cons_of_ne_nil
    rintro he
    rw [he] at hfree
    simp at hfree
  apply Ensures.bind (kalloc_of_free h hrest)
  rintro child s₁ ⟨rfl, hr, hs₁⟩
  apply Ensures.change_bind
  have h₁ : Inv m (child :: hand) s₁ := hs₁ ▸ h.take hrest hr
  have hcalm₁ : Calm Nowhere 1 s s₁ := hs₁ ▸ Calm.take hrest
  have hnone : s.dirs child = none := by
    by_contra hne
    apply hr
    apply h.custody.held_of_own (o := .dir child)
    rw [Kernel.own_dir, if_pos (Option.isSome_iff_ne_none.2 hne)]
  have hnone₁ : s₁.dirs child = none := by rw [hs₁]; exact hnone
  have hself : (s₁.addDir child).dirs child = some Dir.empty := Function.update_self ..
  have hother : ∀ {d'}, d' ≠ child → (s₁.addDir child).dirs d' = s₁.dirs d' := fun hd =>
    Function.update_of_ne hd ..
  have hadd : Calm Nowhere 0 s₁ (s₁.addDir child) := by
    refine ⟨fun _ => Kernel.look_addDir hnone₁, fun _ => rfl, id, fun {d'} hs => ?_,
      fun {d' v'} hs => ?_, le_rfl⟩
    · by_cases hd : d' = child
      · rw [hd, hself]
        rfl
      · rwa [hother hd]
    · have hd : d' ≠ child := by
        rintro rfl
        rw [Kernel.walkpgdir_of_none hnone₁] at hs
        cases hs
      rw [Kernel.walkpgdir_eq] at hs ⊢
      rwa [hother hd]
  -- A frame is left for each table that is still to come.
  have hloop := Ensures.forM (f := fun i => walkpgdirAlloc child (1024 * i))
    (E := fun _ _ => False) (A := Admitted m.strict) (G := Granted m.strict)
    (I := fun is s' => Inv m hand s' ∧ (∀ i ∈ is, i < 1024) ∧ (s'.dirs child).isSome ∧
      ∃ k, k + is.length ≤ 11 ∧ Calm Nowhere k s s' ∧ s'.look child = (s₁.addDir child).look child)
    (fun i is s' ⟨hi, hlt, hd, k, hk, hcalm, hlook⟩ => by
      have hi' := hlt i List.mem_cons_self
      have hne : s'.freelist ≠ [] := by
        intro he
        have hf := hcalm.free
        rw [he] at hf
        rw [List.length_cons] at hk
        simp only [List.length_nil] at hf
        omega
      apply (walkpgdirAlloc_of_free hi hd (v := 1024 * i) (by omega) fun _ => hne).mono _
        fun _ _ he => he
      rintro - s'' ⟨hi'', hcalm', -⟩
      have hcalm'' : Calm Nowhere 1 s' s'' := hcalm'.mono (fun _ _ => id) (by split <;> omega)
      refine ⟨hi'', fun j hj => hlt j (List.mem_cons_of_mem _ hj), hcalm'.dirs hd, k + 1, ?_,
        hcalm.trans hcalm'', ?_⟩
      · rw [List.length_cons] at hk
        omega
      · rw [← hlook]
        exact funext fun v => hcalm'.look id)
    kernelTables (s := s₁.addDir child)
    ⟨h₁.addDir, by decide, by rw [hself]; rfl, 1, by decide, hcalm₁.trans hadd, rfl⟩
  apply Ensures.bind hloop
  rintro - s₂ ⟨h₂, -, hd₂, k, hk, hcalm, hlook⟩
  apply Ensures.pure
  refine ⟨h₂, hcalm.mono (fun _ _ => id) (by simpa using hk), hnone, hd₂, fun v => ?_⟩
  rw [hlook, Kernel.look_addDir hnone₁]
  exact Kernel.look_of_not_walk (Kernel.walkpgdir_of_none hnone₁)

/-- The frames that the pages `vs` of a copy take: one for each page, and one for each page
table that they start. -/
def framesFor (vs : List ℕ) : ℕ := vs.length + vs.countP fun v => v % 1024 = 0

theorem framesFor_cons (v : ℕ) (vs : List ℕ) :
    framesFor (v :: vs) = framesFor vs + 1 + if v % 1024 = 0 then 1 else 0 := by
  unfold framesFor
  rw [List.length_cons, List.countP_cons]
  simp only [decide_eq_true_eq]
  omega

theorem walk_isSome_congr {v v' : ℕ} (hv : v / 1024 = v' / 1024) :
    (s.walkpgdir d v).isSome = (s.walkpgdir d v').isSome := by
  rw [Kernel.walkpgdir_eq, Kernel.walkpgdir_eq, hv]
  cases s.dirs d with
  | none => rfl
  | some D => simp

/-- While the pages below `n` are copied from `d`, as they were in `s₀`: those in `vs` are
left. -/
structure Copying (m : Mode) (hand : List ℕ) (d child n : ℕ) (s₀ : Kernel) (vs : List ℕ)
    (s : Kernel) : Prop where
  inv : Inv m hand s
  dir : (s.dirs child).isSome
  range : ∃ a, vs = List.range' a (n - a) ∧ a ≤ n
  zero : ∀ v ∈ vs, s.look child v = Pte.zero
  look : ∀ v, s.look d v = s₀.look d v
  mem : ∀ f ∈ s₀.held, s.mem f = s₀.mem f
  held : ∀ f ∈ s₀.held, f ∈ s.held
  copied : ∀ v < n, v ∉ vs → Copied s₀ d child v s ∧ (s.walkpgdir child v).isSome
  free : framesFor vs ≤ s.freelist.length

/-- A page needs a new table only if it starts one. -/
theorem Copying.cost {n : ℕ} {s₀ : Kernel} {vs : List ℕ}
    (h : Copying m hand d child n s₀ (v :: vs) s) :
    1 + (if (s.walkpgdir child v).isSome then 0 else 1) + framesFor vs ≤ s.freelist.length := by
  have hfree := h.free
  rw [framesFor_cons] at hfree
  by_cases hmod : v % 1024 = 0
  · rw [if_pos hmod] at hfree
    split <;> omega
  · obtain ⟨a, hvs, ha⟩ := h.range
    have hlt : a < n := by
      by_contra hge
      rw [show n - a = 0 by omega] at hvs
      cases hvs
    rw [show n - a = (n - (a + 1)) + 1 by omega, List.range'_succ] at hvs
    obtain ⟨rfl, hvs⟩ := List.cons.inj hvs
    -- The page before has its table, which is the same.
    have hprev := (h.copied (v - 1) (by omega) (by
      rw [hvs, List.mem_cons, List.mem_range'_1]
      omega)).2
    rw [walk_isSome_congr (show (v - 1) / 1024 = v / 1024 by omega)] at hprev
    rw [if_neg hmod] at hfree
    rw [if_pos hprev]
    omega

/-- With frames enough, `copyuvm` fails only on an absent page, and the child has the bytes
of its parent. -/
theorem copyuvm_of_free {sz : ℕ} (h : Inv m hand s) (hd : (s.dirs d).isSome)
    (hsz : sz ≤ 0x80000000) (hc : ∀ d v, ¬ m.covered d v)
    (hfree : 11 + framesFor (pageRange 0 sz) ≤ s.freelist.length) :
    Ensures (Admitted m.strict) (Granted m.strict) (copyuvm d sz) s
      (fun child s' => ∀ v ∈ pageRange 0 sz, Copied s d child v s')
      (fun _ _ => ∃ v ∈ pageRange 0 sz, (s.look d v).p = false) := by
  apply Ensures.bind ((setupkvm_of_free h (by omega)).mono (fun _ _ h => h) fun _ _ h => h.elim)
  rintro child s₁ ⟨h₁, hcalm, hnone, hd₁, hz⟩
  have hne : d ≠ child := by
    rintro rfl
    rw [hnone] at hd
    cases hd
  have hrange : pageRange 0 sz = List.range' 0 ((sz + 4095) / 4096) := rfl
  generalize hn : (sz + 4095) / 4096 = n at hrange
  rw [hrange] at hfree ⊢
  have hmem : ∀ {v}, v ∈ List.range' 0 n ↔ v < n := by
    intro v
    rw [List.mem_range'_1]
    omega
  have hloop := Ensures.forM (f := fun v => copyPage d child v)
    (E := fun _ _ => ∃ v ∈ List.range' 0 n, (s.look d v).p = false)
    (A := Admitted m.strict) (G := Granted m.strict) (I := Copying m hand d child n s)
    (fun v vs s' hi => by
      have hcost := hi.cost
      obtain ⟨a, hvs, ha⟩ := hi.range
      have hlt : a < n := by
        by_contra hge
        rw [show n - a = 0 by omega] at hvs
        cases hvs
      rw [show n - a = (n - (a + 1)) + 1 by omega, List.range'_succ] at hvs
      obtain ⟨rfl, rfl⟩ := List.cons.inj hvs
      apply (copyPage_of_free (d := d) hi.inv hi.dir (by omega) (hi.zero v List.mem_cons_self)
        (hc child v) (by omega)).mono
      · rintro - s'' ⟨hi', hcalm', hcopy, hw⟩
        have hfree' := hcalm'.free
        refine ⟨hi', hcalm'.dirs hi.dir, ⟨v + 1, rfl, hlt⟩, fun w hw' => ?_, fun w => ?_,
          fun f hf => ?_, fun f hf => hcalm'.held (hi.held f hf), fun w hw' hws => ?_, by omega⟩
        · rw [hcalm'.look, hi.zero w (List.mem_cons_of_mem _ hw')]
          rintro ⟨-, rfl⟩
          rw [List.mem_range'_1] at hw'
          omega
        · rw [hcalm'.look fun hx => hne hx.1, hi.look]
        · rw [hcalm'.mem (hi.held f hf), hi.mem f hf]
        · by_cases hwv : w = v
          · subst hwv
            obtain ⟨hp, f, hf, hl, hb⟩ := hcopy
            rw [hi.look] at hp hl hb
            have hpage := h.custody.held_of_own (Kernel.own_page_of_present hp)
            exact ⟨⟨hp, f, hf, hl, hb.trans (hi.mem _ hpage)⟩, hw⟩
          · obtain ⟨⟨hp, f, hf, hl, hb⟩, hw₀⟩ := hi.copied w hw'
              fun hm => (List.mem_cons.1 hm).elim hwv hws
            exact ⟨⟨hp, f, hcalm'.held hf, by rw [hcalm'.look fun hx => hwv hx.2, hl],
              by rw [hcalm'.mem hf, hb]⟩, hcalm'.walk hw₀⟩
      · intro _ _ hp
        rw [hi.look] at hp
        exact ⟨v, hmem.2 hlt, hp⟩)
    (List.range' 0 n) (s := s₁)
    ⟨h₁, hd₁, ⟨0, rfl, Nat.zero_le n⟩, fun v _ => hz v, fun v => hcalm.look id,
      fun f hf => hcalm.mem hf, fun f hf => hcalm.held hf,
      fun v hv hv' => absurd (hmem.2 hv) hv', by have := hcalm.free; omega⟩
  apply Ensures.bind hloop
  exact fun _ s' hi => Ensures.pure fun v hv => (hi.copied v (hmem.1 hv) List.not_mem_nil).1

end
/-- The ring is linked through nodes of present pages, and each present page has one of them,
under its directory and its address. -/
def RingCovers (s : Kernel) : Prop :=
  ∃ l, RingOf s l ∧ (∀ i ∈ l, (s.entry i).p = true) ∧
    ∀ d v, (s.look d v).p = true → ∃ i ∈ l, (s.node i).pgdir = d ∧
      (s.node i).vaddr = 4096 * v ∧ ∀ j ∈ l, s.names j = (d, v) → j = i

/-- The steps that keep the ring and the present pages in step: `inituvm` starts the ring,
no page is copied, and the faults on swapped-out pages are at their first byte. -/
def KeepsRing (s : Kernel) : Op → Prop
  | .inituvm .. => ¬ Running s
  | .copyuvm _ sz => sz = 0
  | .access d va _ => (s.look d (va / 4096)).Swapped → va % 4096 = 0
  | _ => True

/-- The mode in which every present page is on the ring. -/
def ringMode : Mode := ⟨False, fun _ => False, fun _ _ => True, Nowhere⟩

theorem KeepsRing.fits {s : Kernel} {op : Op} (hs : Sound ringMode s) (h : KeepsRing s op) :
    Fits ringMode s op := by
  cases op with
  | inituvm d init sz => exact ⟨.inr fun _ hx => hx, .inr fun d v => by rw [hs.fresh h]; rfl⟩
  | allocuvm d oldsz newsz => exact fun v _ => .inr fun _ hx => hx
  | copyuvm d sz => exact .inl h
  | freevm d => exact fun _ _ hx => hx
  | access d va byte => exact fun _ => h
  | kalloc | kfree | setupkvm | deallocuvm => trivial

theorem Sound.ringCovers {s : Kernel} (h : Sound ringMode s) : RingCovers s := by
  obtain ⟨l, hr, hl⟩ := h.inv.ring
  refine ⟨l, hr, hl.present, fun d v hp => ?_⟩
  obtain ⟨i, hi, hn, ha⟩ := hl.covers d v trivial (fun hs => hs) hp
  have hd : (s.node i).pgdir = d := congrArg Prod.fst hn
  have hv : (s.node i).vaddr / 4096 = v := congrArg Prod.snd hn
  exact ⟨i, hi, hd, by omega, fun j hj hjn => hl.inj j hj i hi (hjn.trans hn.symm)⟩

theorem Sound.lax {m : Mode} {s : Kernel} (h : Sound m s) : Inv laxMode [] s :=
  ⟨h.inv.custody, ⟨h.inv.supply.1, h.inv.supply.2, False.elim⟩, h.inv.tidy, h.inv.slots,
    h.inv.ring.imp fun _ hl => ⟨hl.1, hl.2.present, fun _ _ hs => hs, hl.2.inj,
      fun _ _ hc => hc.elim⟩, fun _ hk => hk.elim⟩

/-- In a run whose steps keep the ring, it covers the present pages. With frames enough,
`copyuvm` succeeds, with the bytes of the parent, exactly when all pages of the parent are
present. -/
theorem ring_covers {s₀ s : Kernel} {ws : List Handout} (hb : Boot s₀)
    (h : Runs KeepsRing s₀ ws none s) (hA : ∀ w ∈ ws, Undoubled w) :
    RingCovers s ∧ ∀ d sz, (s.dirs d).isSome → sz ≤ 0x80000000 →
      11 + framesFor (pageRange 0 sz) ≤ s.freelist.length →
      (∀ w ∈ (copyuvm d sz s).events, Undoubled w) →
      ((∃ child s', (copyuvm d sz s).result = .ok child s' ∧ ∀ v ∈ pageRange 0 sz,
          (s'.look child v).p = true ∧
            ∀ o, s'.mem (s'.look child v).pfn o = s.mem (s.look d v).pfn o) ↔
        ∀ v ∈ pageRange 0 sz, (s.look d v).p = true) := by
  have hsound : Sound ringMode s := (Runs.sound (m := ringMode) (fun _ _ hs => hs)
    (fun _ _ hs hP => hP.fits hs) hb h fun w hw => (hA w hw).admitted).2
  refine ⟨hsound.ringCovers, fun d sz hd hsz hfree hcopy => ?_⟩
  have hspec := copyuvm_of_free hsound.lax hd hsz (fun _ _ hc => hc) hfree
    fun w hw => (hcopy w hw).admitted
  rcases hr : (copyuvm d sz s).result with ⟨child, s'⟩ | ⟨e, s'⟩
  · rw [hr] at hspec
    have hpages : ∀ v ∈ pageRange 0 sz, Copied s d child v s' := hspec.2
    refine iff_of_true ⟨child, s', rfl, fun v hv => ?_⟩ fun v hv => (hpages v hv).1
    obtain ⟨hp, f, -, hl, hm⟩ := hpages v hv
    rw [hl]
    exact ⟨hp, fun o => congrFun hm o⟩
  · rw [hr] at hspec
    obtain ⟨v, hv, hp⟩ := hspec.2
    refine iff_of_false (fun ⟨_, _, hok, _⟩ => nomatch hok) fun hall => ?_
    rw [hall v hv] at hp
    cases hp

section Example

instance (s : Kernel) : Decidable (Running s) := inferInstanceAs (Decidable (_ ∨ _))

instance (s : Kernel) : (op : Op) → Decidable (KeepsRing s op)
  | .inituvm .. => inferInstanceAs (Decidable (¬ _))
  | .copyuvm _ sz => inferInstanceAs (Decidable (sz = 0))
  | .access .. => inferInstanceAs (Decidable (_ → _ = _))
  | .kalloc | .kfree _ | .setupkvm | .allocuvm .. | .deallocuvm .. | .freevm _ => isTrue trivial

/-- A page that has been swapped in has a node; a process of two pages is copied. -/
theorem ring_covers_swappedPage : (∃ s, (s.look 700 1).p = true ∧ RingCovers s) ∧
    ∃ s child s', RingCovers s ∧ (copyuvm 700 8192 s).result = .ok child s' ∧
      ∀ v ∈ pageRange 0 8192, (s'.look child v).p = true ∧
        ∀ o, s'.mem (s'.look child v).pfn o = s.mem (s.look 700 v).pfn o := by
  constructor
  · have hrun : (runOps (fun s op => decide (KeepsRing s op)) 14
        (swappedPage ++ [.access 700 4096 none])).any
        (fun r => (r.2.look 700 1).p && r.1.all fun w => decide (Undoubled w)) = true := by
      decide +kernel
    obtain ⟨ws, s, hr, hc⟩ := runOps_any (P := KeepsRing)
      (c := fun ws s => (s.look 700 1).p && ws.all fun w => decide (Undoubled w))
      (fun _ _ h => of_decide_eq_true h) hrun
    rw [Bool.and_eq_true] at hc
    refine ⟨s, hc.1, (ring_covers (booted_boot (by decide)) hr fun w hw => ?_).1⟩
    exact of_decide_eq_true (List.all_eq_true.1 hc.2 w hw)
  · have hrun : (runOps (fun s op => decide (KeepsRing s op)) 40 twoPages).any
        (fun r => (r.2.dirs 700).isSome &&
          decide (11 + framesFor (pageRange 0 8192) ≤ r.2.freelist.length) &&
          (pageRange 0 8192).all (fun v => (r.2.look 700 v).p) &&
          (r.1 ++ (copyuvm 700 8192 r.2).events).all fun w => decide (Undoubled w)) = true := by
      decide +kernel
    obtain ⟨ws, s, hr, hc⟩ := runOps_any (P := KeepsRing)
      (c := fun ws s => (s.dirs 700).isSome &&
        decide (11 + framesFor (pageRange 0 8192) ≤ s.freelist.length) &&
        (pageRange 0 8192).all (fun v => (s.look 700 v).p) &&
        (ws ++ (copyuvm 700 8192 s).events).all fun w => decide (Undoubled w))
      (fun _ _ h => of_decide_eq_true h) hrun
    simp only [Bool.and_eq_true, List.all_append, List.all_eq_true, decide_eq_true_eq] at hc
    obtain ⟨⟨⟨hd, hfree⟩, hall⟩, hws, hcopy⟩ := hc
    obtain ⟨hring, hcopies⟩ := ring_covers (booted_boot (by decide)) hr hws
    obtain ⟨child, s', hok, hpages⟩ := (hcopies 700 8192 hd (by decide) hfree hcopy).2 hall
    exact ⟨s, child, s', hring, hok, hpages⟩

/-- The page of a forked process has no node. -/
theorem copyuvm_uncovered : ¬ ∀ (s₀ s : Kernel) (ws : List Handout), Boot s₀ →
    Runs (fun _ _ => True) s₀ ws none s → RingCovers s := by
  intro h
  have hrun : (runOps anyStep 40 [.setupkvm, .inituvm 700 (fun o => o) 10, .copyuvm 700 4096]).any
      (fun r => (r.2.look 713 0).p && (List.range 1536).all fun i => (r.2.node i).pgdir != 713) =
        true := by
    decide +kernel
  obtain ⟨ws, s, hr, hc⟩ := runOps_any (P := fun _ _ => True)
    (c := fun _ s => (s.look 713 0).p && (List.range 1536).all fun i => (s.node i).pgdir != 713)
    (fun _ _ _ => trivial) hrun
  rw [Bool.and_eq_true] at hc
  obtain ⟨l, hring, -, hcov⟩ := h _ s ws (booted_boot (by decide)) hr
  obtain ⟨i, hi, hd, -⟩ := hcov 713 0 hc.1
  have hne := List.all_eq_true.1 hc.2 i (List.mem_range.2 (hring.lt i hi))
  rw [hd] at hne
  cases hne

end Example

end Swap
