import Coursework.Mmap.Regions
import Mathlib.Tactic.Ring

/-! Each checked call keeps the table of regions in order, and so does each history. -/
namespace Mmap

theorem mapStart_eq {p : Proc} (h : p.sz + p.mmSz + margin < 4294967296) :
    p.mapStart = p.sz + p.mmSz + margin := by
  simp only [Proc.mapStart]
  exact_mod_cast uint_small h

section Mmap

variable {s s' t : Sys} {fd offset length : ℤ} {flags i off : ℕ} {f : Option ℕ}

theorem record_region (hc : Checked t (.mmap fd offset length flags)) :
    ((t.proc.record i fd off length flags f).mmArr i).fd ≠ 0 ∧
      ((t.proc.record i fd off length flags f).mmArr i).startVa =
        t.proc.sz + t.proc.mmSz + margin ∧
      (((t.proc.record i fd off length flags f).mmArr i).endVa : ℤ) =
        t.proc.sz + t.proc.mmSz + margin + length := by
  obtain ⟨hfd, hl, -, hk, -⟩ := hc
  have ek : kernBase = 2147483648 := rfl
  have hs : t.proc.mapStart = t.proc.sz + t.proc.mmSz + margin := mapStart_eq (by omega)
  simp only [Proc.record, Function.update_self]
  exact ⟨hfd, hs, uint_of_lt (by omega) (by omega)⟩

theorem record_mmArr (q : Proc) : (q.record i fd off length flags f).mmArr =
    (q.setRegion i ((q.record i fd off length flags f).mmArr i)).mmArr := by
  funext j
  by_cases e : j = i
  · subst e
    simp
  · simp [Proc.record, e]

theorem Inv.record (h : Inv t) (hc : Checked t (.mmap fd offset length flags))
    (hl : length % 4096 = 0) (hv : getValidMmarr t.proc = some i) :
    Inv (t.setProc (t.proc.record i fd off length flags f)) := by
  obtain ⟨hi, hfree⟩ := getValidMmarr_eq_some hv
  obtain ⟨-, hs, he⟩ := @record_region t fd offset length flags i off f hc
  obtain ⟨hfd, hpos, hsz, hk, hd⟩ := hc
  have ek : kernBase = 2147483648 := rfl
  have em : margin = 16777216 := rfl
  have hm : t.proc.mmSz % 4096 = 0 := h.mmSz
  replace hsz : t.proc.sz % 4096 = 0 := hsz
  generalize hr : (t.proc.record i fd off length flags f).mmArr i = r at hs he
  have arr : (t.proc.record i fd off length flags f).mmArr = (t.proc.setRegion i r).mmArr := by
    rw [← hr]
    exact record_mmArr t.proc
  have hset : Inv (t.setProc (t.proc.setRegion i r)) := by
    apply h.setRegion
    · intro _
      exact ⟨⟨(show r.startVa % 4096 = 0 by omega), by omega, by omega, by omega⟩,
        (show r.endVa % 4096 = 0 by omega)⟩
    · intro _ j hj _ hfj
      have := hd j hj hfj
      omega
  refine hset.of_table rfl arr ?_
  show uint (t.proc.mmSz + length) % pgSize = 0
  apply uint_dvd
  omega

theorem holds_record (hv : getValidMmarr t.proc = some i) {x : ℕ} (h : t.proc.Holds x) :
    (t.proc.record i fd off length flags f).Holds x := by
  obtain ⟨-, hfree⟩ := getValidMmarr_eq_some hv
  have hset : (t.proc.setRegion i ((t.proc.record i fd off length flags f).mmArr i)).Holds x :=
    h.setRegion fun hfx _ _ => absurd hfree hfx
  obtain ⟨j, hj, hheld⟩ := hset
  refine ⟨j, hj, ?_⟩
  rwa [← record_mmArr] at hheld

end Mmap

section Munmap

variable {t : Sys} {p : Proc} {i a b : ℕ} {length : ℤ}

/-- A region splits around a range inside it: what lies behind the range goes to the free slot
`j`. -/
theorem Inv.split {j : ℕ} (h : Inv t) (hi : i < nRegion) (hf : (t.proc.mmArr i).fd ≠ 0)
    (hfree : (t.proc.mmArr j).fd = 0) (ha : a % pgSize = 0) (hb : b % pgSize = 0) (hab : a ≤ b)
    (hstart : (t.proc.mmArr i).startVa < a) (hend : b < (t.proc.mmArr i).endVa) :
    Inv (t.setProc ((t.proc.setRegion i { t.proc.mmArr i with endVa := a }).setRegion j
      { t.proc.mmArr i with startVa := b })) := by
  have hr := h.ok.fine i hi hf
  have hji : i ≠ j := by
    rintro rfl
    exact hf hfree
  have h₁ : Inv (t.setProc (t.proc.setRegion i { t.proc.mmArr i with endVa := a })) :=
    h.shrink hi hf fun _ => ⟨⟨hr.aligned, ha⟩, hstart, le_rfl, hab.trans hend.le⟩
  refine h₁.setRegion (fun _ => ⟨⟨hb, hend, ?_, hr.belowKernel⟩, h.ends i hi hf⟩)
    fun _ k hk hkj hfk => ?_
  · exact hr.aboveHeap.trans (hstart.le.trans hab)
  · change ((t.proc.setRegion i { t.proc.mmArr i with endVa := a }).mmArr k).fd ≠ 0 at hfk
    change ((t.proc.setRegion i { t.proc.mmArr i with endVa := a }).mmArr k).endVa ≤ b ∨
      (t.proc.mmArr i).endVa ≤
        ((t.proc.setRegion i { t.proc.mmArr i with endVa := a }).mmArr k).startVa
    by_cases e : k = i
    · subst e
      rw [Proc.setRegion_same]
      exact .inl hab
    · rw [Proc.setRegion_other e] at hfk ⊢
      have := h.ok.disjoint k hk i hi e hfk hf
      omega

/-- `munmap` of an aligned range inside region `i` keeps the table in order. -/
theorem Inv.cut (h : Inv t) (hc : coveringRegion t.proc a b = some i)
    (ha : a % pgSize = 0) (hl : 0 ≤ length) (hb : (b : ℤ) = a + length)
    (hm : length % 4096 = 0) (hp : cutRegion t.proc i a b length = some p) :
    Inv (t.setProc p) := by
  obtain ⟨hi, hf, h1, h2⟩ := coveringRegion_eq_some hc
  have hr := h.ok.fine i hi hf
  have hal : (t.proc.mmArr i).startVa % 4096 = 0 := hr.aligned
  have hbk := hr.belowKernel
  have hend : (t.proc.mmArr i).endVa % 4096 = 0 := h.ends i hi hf
  have ek : kernBase = 2147483648 := rfl
  replace ha : a % 4096 = 0 := ha
  simp only [cutRegion] at hp
  split_ifs at hp with c1 c2 c3
  · -- the whole region goes
    obtain rfl := Option.some.inj hp
    refine (h.shrink hi hf (r := { t.proc.mmArr i with fd := 0 }) ?_).of_table rfl rfl h.mmSz
    exact fun hf0 => absurd rfl hf0
  · -- the range starts with the region
    obtain rfl := Option.some.inj hp
    have e : (uint ((t.proc.mmArr i).endVa - length) : ℤ) = (t.proc.mmArr i).endVa - length :=
      uint_of_lt (by omega) (by omega)
    refine h.shrink hi hf fun _ => ⟨⟨hal, ?_⟩, by simp only; omega, le_rfl, by simp only; omega⟩
    show uint ((t.proc.mmArr i).endVa - length) % 4096 = 0
    omega
  · -- the range ends with the region
    obtain rfl := Option.some.inj hp
    have e : (uint ((t.proc.mmArr i).startVa + length) : ℤ) =
        (t.proc.mmArr i).startVa + length := uint_of_lt (by omega) (by omega)
    refine h.shrink hi hf fun _ => ⟨⟨?_, hend⟩, by simp only; omega, by simp only; omega, le_rfl⟩
    show uint ((t.proc.mmArr i).startVa + length) % 4096 = 0
    omega
  · -- the range lies inside the region, which splits
    cases hv : getValidMmarr t.proc with
    | none => simp [hv] at hp
    | some j =>
      obtain ⟨-, hfree⟩ := getValidMmarr_eq_some hv
      simp only [hv, Option.some.injEq] at hp
      subst hp
      have hsplit := h.split hi hf hfree ha (show b % 4096 = 0 by omega) (by omega) (by omega)
        (by omega)
      refine hsplit.of_table rfl rfl ?_
      show uint (t.proc.mmSz + (((t.proc.mmArr i).endVa : ℤ) - b)) % pgSize = 0
      apply uint_dvd
      have hm' : t.proc.mmSz % 4096 = 0 := h.mmSz
      omega

/-- Unless it cuts a proper part off one end, `munmap` gives up only its own range. -/
theorem holds_cut (hc : coveringRegion t.proc a b = some i)
    (hw : a = b ∨ ((t.proc.mmArr i).startVa = a ↔ b = (t.proc.mmArr i).endVa))
    (hb : (b : ℤ) = a + length) (he : (t.proc.mmArr i).endVa < 4294967296)
    (hp : cutRegion t.proc i a b length = some p) {x : ℕ}
    (hx : t.proc.Holds x) (hout : ¬ (a ≤ x ∧ x < b)) : p.Holds x := by
  obtain ⟨hi, hf, h1, h2⟩ := coveringRegion_eq_some hc
  simp only [cutRegion] at hp
  split_ifs at hp with c1 c2 c3
  · obtain rfl := Option.some.inj hp
    exact hx.setRegion fun _ _ _ => by omega
  · -- only an empty range is left here
    have hab : a = b := by tauto
    have e : uint ((t.proc.mmArr i).endVa - length) = (t.proc.mmArr i).endVa := by
      have hl : length = 0 := by omega
      rw [hl, Int.sub_zero]
      exact uint_small he
    obtain rfl := Option.some.inj hp
    rw [e]
    exact hx.setRegion fun hfx hx1 hx2 => ⟨hfx, hx1, hx2⟩
  · have hab : a = b := by tauto
    have e : uint ((t.proc.mmArr i).startVa + length) = (t.proc.mmArr i).startVa := by
      have hl : length = 0 := by omega
      rw [hl, Int.add_zero]
      exact uint_small (by omega)
    obtain rfl := Option.some.inj hp
    rw [e]
    exact hx.setRegion fun hfx hx1 hx2 => ⟨hfx, hx1, hx2⟩
  · cases hv : getValidMmarr t.proc with
    | none => simp [hv] at hp
    | some j =>
      obtain ⟨hj, hfree⟩ := getValidMmarr_eq_some hv
      have hij : j ≠ i := by
        rintro rfl
        exact hf hfree
      simp only [hv, Option.some.injEq] at hp
      subst hp
      by_cases hin : (t.proc.mmArr i).startVa ≤ x ∧ x < (t.proc.mmArr i).endVa ∧ ¬ x < a
      · -- the part behind the range moves to the new slot
        refine ⟨j, hj, ?_⟩
        rw [Proc.setRegion_same]
        exact ⟨hf, by simp only; omega, hin.2.1⟩
      · -- the part before the range stays in its slot
        have hx' : (t.proc.setRegion i { t.proc.mmArr i with endVa := a }).Holds x :=
          hx.setRegion fun hfx hx1 hx2 => ⟨hfx, hx1, by simp only; omega⟩
        refine hx'.setRegion fun hfx _ _ => ?_
        rw [Proc.setRegion_other hij] at hfx
        exact absurd hfree hfx

end Munmap

theorem pgRoundDown_of_dvd {a : ℕ} (h : a % 4096 = 0) : pgRoundDown a = a := by
  simp [pgRoundDown, pgSize, h]

section Step

variable {s s' : Sys} {a : ℤ} {c : Call}

theorem exec_mmap {fd offset length : ℤ} {flags : ℕ}
    (he : (Call.mmap fd offset length flags).exec s = some (a, s')) :
    ∃ b : ℕ, a = b ∧ mmap s fd offset length flags = some (some b, s') := by
  simp only [Call.exec] at he
  split at he
  · next b t hm =>
    simp only [Option.some.injEq, Prod.mk.injEq] at he
    exact ⟨b, he.1.symm, he.2 ▸ hm⟩
  · simp at he

theorem exec_munmap {addr : ℕ} {length : ℤ}
    (he : (Call.munmap addr length).exec s = some (a, s')) :
    munmap s addr length = some (0, s') := by
  simp only [Call.exec] at he
  split at he
  · next t hm =>
    simp only [Option.some.injEq, Prod.mk.injEq] at he
    exact he.2 ▸ hm
  · simp at he

theorem exec_growproc {n : ℤ} (he : (Call.growproc n).exec s = some (a, s')) :
    growproc s n = some (0, s') := by
  simp only [Call.exec] at he
  split at he
  · next t hm =>
    simp only [Option.some.injEq, Prod.mk.injEq] at he
    exact he.2 ▸ hm
  · simp at he

theorem Checked.quiet {t : Sys} (h : Checked s c) (hq : Quiet s t) : Checked t c := by
  cases c <;> simp only [Checked, coveringRegion, hq.sz, hq.mmSz, hq.mmArr] at h ⊢ <;> exact h

theorem munmap_range {addr : ℕ} {length : ℤ} (ha : addr % 4096 = 0) (hl : length % 4096 = 0)
    (hc : 0 ≤ length ∧ (addr : ℤ) + length < 4294967296) :
    (pgRoundDown (uint (addr + length)) : ℤ) = addr + length := by
  have e : (uint (addr + length) : ℤ) = addr + length := uint_of_lt (by omega) (by omega)
  rw [pgRoundDown_of_dvd (by omega), e]

theorem Inv.step (h : Inv s) (hc : Checked s c) (he : c.exec s = some (a, s')) : Inv s' := by
  cases c with
  | mmap fd offset length flags =>
    obtain ⟨b, -, hm⟩ := exec_mmap he
    obtain ⟨hl, -, t, i, off, f, hq, hv, rfl⟩ := mmap_eq_some hm
    exact (h.quiet hq).record (hc.quiet hq) hl hv
  | munmap addr length =>
    obtain ⟨ha, hl, hcase⟩ := munmap_eq_some (exec_munmap he)
    obtain ⟨-, rfl⟩ | ⟨t, i, p, hq, hcov, hcut, rfl⟩ := hcase
    · exact h
    · have hr := (hc.quiet hq) (by simp [hcov])
      have hb := munmap_range ha hl hr
      rw [pgRoundDown_of_dvd ha] at hcov hcut
      exact (h.quiet hq).cut hcov ha hr.1 hb hl hcut
  | growproc n =>
    obtain ⟨t, sz, hq, rfl, hk, hsz⟩ := growproc_eq_some (exec_growproc he) h.sz
    have ht := h.quiet hq
    refine ⟨⟨fun i hi hf => ?_, ht.ok.disjoint⟩, ht.ends, ht.mmSz, hk⟩
    have hf' := ht.ok.fine i hi hf
    refine ⟨hf'.aligned, hf'.positive, ?_, hf'.belowKernel⟩
    have hroom := hc i hi (hq.mmArr ▸ hf)
    have habove := hf'.aboveHeap
    show sz ≤ (t.proc.mmArr i).startVa
    rw [hq.mmArr, hq.sz] at *
    omega

/-- A checked `mmap` is recorded as the range it returned. -/
theorem recorded_step {fd offset length : ℤ} {flags : ℕ}
    (hc : Checked s (.mmap fd offset length flags))
    (he : (Call.mmap fd offset length flags).exec s = some (a, s')) :
    ∃ i < nRegion, (s'.proc.mmArr i).fd ≠ 0 ∧ ((s'.proc.mmArr i).startVa : ℤ) = a ∧
      ((s'.proc.mmArr i).endVa : ℤ) = a + length := by
  obtain ⟨b, hab, hm⟩ := exec_mmap he
  clear he
  obtain ⟨-, hb, t, i, off, f, hq, hv, rfl⟩ := mmap_eq_some hm
  have hct := hc.quiet hq
  obtain ⟨h1, h2, h3⟩ := @record_region t fd offset length flags i off f hct
  have hk := hct.2.2.2.1
  have hpos := hct.2.1
  have ek : kernBase = 2147483648 := rfl
  have hstart : s.proc.mapStart = t.proc.sz + t.proc.mmSz + margin := by
    rw [hq.sz, hq.mmSz] at hk ⊢
    exact mapStart_eq (by omega)
  rw [hab, hb, hstart]
  refine ⟨i, (getValidMmarr_eq_some hv).1, h1, ?_, ?_⟩
  · show (((t.proc.record i fd off length flags f).mmArr i).startVa : ℤ) = _
    rw [h2]
  · show (((t.proc.record i fd off length flags f).mmArr i).endVa : ℤ) = _
    rw [h3]
    push_cast
    ring

/-- Every address in use stays in a recorded region, over a step that cuts no region at
one end. -/
theorem holds_step {live : Set ℕ} (h : Inv s) (hw : Whole s c)
    (hlive : ∀ x ∈ live, s.proc.Holds x) (he : c.exec s = some (a, s')) :
    ∀ x ∈ c.live live a, s'.proc.Holds x := by
  intro x hx
  cases c with
  | mmap fd offset length flags =>
    obtain hx | hx := hx
    · obtain ⟨b, -, hm⟩ := exec_mmap he
      obtain ⟨-, -, t, i, off, f, hq, hv, rfl⟩ := mmap_eq_some hm
      apply holds_record hv
      have := hlive x hx
      unfold Proc.Holds at this ⊢
      rwa [hq.mmArr]
    · obtain ⟨i, hi, h1, h2, h3⟩ := recorded_step hw.1 he
      have hx : a ≤ x ∧ (x : ℤ) < a + length := hx
      exact ⟨i, hi, h1, by omega, by omega⟩
  | munmap addr length =>
    obtain ⟨hx, hout⟩ := hx
    have hout : ¬ (addr ≤ x ∧ (x : ℤ) < addr + length) := hout
    obtain ⟨ha, hl, hcase⟩ := munmap_eq_some (exec_munmap he)
    obtain ⟨-, rfl⟩ | ⟨t, i, p, hq, hcov, hcut, rfl⟩ := hcase
    · exact hlive x hx
    · have hr := (hw.1.quiet hq) (by simp [hcov])
      have hb := munmap_range ha hl hr
      have hwi := hw.2 i (by
        rw [← hcov]
        simp only [coveringRegion, hq.mmArr])
      have hbk := (h.ok.fine i (coveringRegion_eq_some hcov).1
        (hq.mmArr ▸ (coveringRegion_eq_some hcov).2.1)).belowKernel
      have ek : kernBase = 2147483648 := rfl
      rw [← hq.mmArr] at hwi hbk
      rw [pgRoundDown_of_dvd ha] at hcov hcut
      refine holds_cut hcov ?_ hb (by omega) hcut ?_ (by omega)
      · omega
      · have := hlive x hx
        unfold Proc.Holds at this ⊢
        rwa [hq.mmArr]
  | growproc n =>
    obtain ⟨t, sz, hq, rfl, -, -⟩ := growproc_eq_some (exec_growproc he) h.sz
    have := hlive x hx
    unfold Proc.Holds at this ⊢
    rwa [← hq.mmArr] at this

end Step

theorem Reached.inv {P : Sys → Call → Prop} (hP : ∀ s c, P s c → Checked s c) {s : Sys}
    {live : Set ℕ} (h : Reached P s live) : Inv s := by
  induction h with
  | start sz mmSz free =>
    refine ⟨⟨fun i hi hf => absurd (free i hi) hf, fun i hi _ _ _ hf => absurd (free i hi) hf⟩,
      fun i hi hf => absurd (free i hi) hf, ?_, sz⟩
    rw [mmSz]
    rfl
  | call _ hp he ih => exact ih.step (hP _ _ hp) he
  | quiet _ hq ih => exact ih.quiet hq

/-- In every history of checked calls the regions are in order and each `mmap` records the
range it returns; if no `munmap` cuts a region at one end, the fault handler finds every
address that is mapped and not unmapped. -/
theorem regions_history (s : Sys) (live : Set ℕ) :
    (Reached Checked s live → s.proc.RegionsOk ∧
      ∀ fd offset length flags a s', Checked s (.mmap fd offset length flags) →
        (Call.mmap fd offset length flags).exec s = some (a, s') →
        ∃ i < nRegion, (s'.proc.mmArr i).fd ≠ 0 ∧ ((s'.proc.mmArr i).startVa : ℤ) = a ∧
          ((s'.proc.mmArr i).endVa : ℤ) = a + length) ∧
    (Reached Whole s live → ∀ x ∈ live, faultRegion s.proc x ≠ none) := by
  constructor
  · intro h
    exact ⟨(h.inv fun _ _ => id).ok, fun fd offset length flags a s' hc he =>
      recorded_step hc he⟩
  · intro h x hx
    rw [← Proc.holds_iff]
    revert x
    induction h with
    | start => simp
    | call h hp he ih => exact holds_step (h.inv fun _ _ hw => hw.1) hp ih he
    | quiet _ hq ih =>
      intro x hx
      have := ih x hx
      unfold Proc.Holds at this ⊢
      rwa [hq.mmArr]

theorem fivePages_reached (P : Sys → Call → Prop) : Reached P fivePages ∅ :=
  .start (by decide) rfl fun _ _ => rfl

theorem Reached.mono {P Q : Sys → Call → Prop} (hPQ : ∀ s c, P s c → Q s c) {s : Sys}
    {live : Set ℕ} (h : Reached P s live) : Reached Q s live := by
  induction h with
  | start sz mmSz free => exact .start sz mmSz free
  | call _ hp he ih => exact ih.call (hPQ _ _ hp) he
  | quiet _ hq ih => exact ih.quiet hq

/-- The state after a call, when it succeeds. -/
def Call.after (s : Sys) (c : Call) : Sys := ((c.exec s).map Prod.snd).getD s

theorem Reached.after {P : Sys → Call → Prop} {s : Sys} {live : Set ℕ} (c : Call)
    (h : Reached P s live) (hp : P s c) (he : (c.exec s).isSome) :
    ∃ live', Reached P (c.after s) live' := by
  obtain ⟨⟨a, s'⟩, hs⟩ := Option.isSome_iff_exists.1 he
  have e : c.after s = s' := by simp [Call.after, hs]
  exact ⟨c.live live a, e ▸ h.call hp hs⟩

/-- Two anonymous pages are mapped. -/
def mapTwo : Call := .mmap (-1) 0 8192 3

/-- The heap gives up two pages. -/
def shrinkTwo : Call := .growproc (-8192)

/-- Unchecked, the regions may meet: the heap shrinks under a region, and the next `mmap`
returns the same address. -/
theorem regions_meet :
    ¬ ∀ s live, Reached (fun _ _ => True) s live → s.proc.RegionsOk := by
  intro h
  obtain ⟨_, h1⟩ := (fivePages_reached fun _ _ => True).after mapTwo trivial (by decide)
  obtain ⟨_, h2⟩ := h1.after shrinkTwo trivial (by decide)
  obtain ⟨_, h3⟩ := h2.after mapTwo trivial (by decide)
  have hd := (h _ _ h3).disjoint 0 (by decide) 1 (by decide) (by decide) (by decide) (by decide)
  revert hd
  decide

/-- One more anonymous page. -/
def mapOne : Call := .mmap (-1) 0 4096 3

/-- The two pages are unmapped. -/
def unmapTwo : Call := .munmap 0x1005000 8192

/-- All pages from the first region on have been touched. -/
def touched (s : Sys) : Sys :=
  { s with
    proc := { s.proc with
      table := fun _ => some 300
      pte := fun v => if 0x1005 ≤ v ∧ v < 0x1008 then ⟨v, true, true, true, false⟩
        else s.proc.pte v } }

theorem Call.exec_after {s : Sys} {c : Call} {a : ℤ} (h : (c.exec s).map Prod.fst = some a) :
    c.exec s = some (a, c.after s) := by
  obtain ⟨⟨a', s'⟩, he, rfl⟩ := Option.map_eq_some_iff.1 h
  rw [Call.after, he]
  rfl

/-- Two pages and one page are mapped, and the two are unmapped: the one page is found. -/
theorem regions_history_unmapTwo : ∃ s live, Reached Whole s live ∧ 0x1007000 ∈ live ∧
    s.proc.RegionsOk ∧ ∀ x ∈ live, faultRegion s.proc x ≠ none := by
  let mapped := mapOne.after (mapTwo.after fivePages)
  have h1 := (fivePages_reached Whole).call (c := mapTwo) (a := 0x1005000)
    ⟨⟨by decide, by decide, by decide, by decide, fun _ _ hf => absurd rfl hf⟩, trivial⟩
    (Call.exec_after (by decide))
  have h2 : Reached Whole mapped _ := h1.call (c := mapOne) (a := 0x1007000)
    ⟨⟨by decide, by decide, by decide +kernel, by decide +kernel, by decide +kernel⟩, trivial⟩
    (Call.exec_after (by decide +kernel))
  -- the call finds the first region, and the whole of it
  have hwhole : Whole (touched mapped) unmapTwo := by
    refine ⟨fun _ => ⟨by decide, by decide⟩, fun i hi => .inr ?_⟩
    have hcov : coveringRegion (touched mapped).proc 0x1005000 0x1007000 = some 0 := by
      decide +kernel
    obtain rfl : 0 = i := Option.some.inj (hcov.symm.trans hi)
    exact iff_of_true (by decide +kernel) (by decide +kernel)
  have hquiet : Quiet mapped (touched mapped) := ⟨rfl, rfl, rfl⟩
  have h3 := (h2.quiet hquiet).call (a := 0) hwhole (Call.exec_after (by decide +kernel))
  obtain ⟨hok, -⟩ := (regions_history _ _).1 (h3.mono fun _ _ h => h.1)
  exact ⟨_, _, h3, ⟨.inr ⟨by decide, by decide⟩, fun hc => absurd hc.2 (by decide)⟩, hok,
    (regions_history _ _).2 h3⟩

end Mmap
