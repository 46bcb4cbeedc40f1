import Coursework.Mmap.Unmap

/-! The file positions of what `munmap` leaves of a region, over any sequence of cuts. -/
namespace Mmap

/-- Slot `i` of the table records a region with the address `x`. -/
def Recorded (m : ℕ → Region) (i x : ℕ) : Prop :=
  i < nRegion ∧ (m i).fd ≠ 0 ∧ (m i).startVa ≤ x ∧ x < (m i).endVa

/-- The addresses of a region. -/
def Region.span (r : Region) : Set ℕ := {x | r.startVa ≤ x ∧ x < r.endVa}

/-- Each address in use lies in exactly one recorded region, at the file position it had in
`r`. -/
def Positioned (r : Region) (m : ℕ → Region) (live : Set ℕ) : Prop :=
  ∀ x ∈ live, ∃ i, Recorded m i x ∧ (∀ j, Recorded m j x → j = i) ∧ (m i).f = r.f ∧
    (m i).offset + (x - (m i).startVa) = r.offset + (x - r.startVa)

/-- What `munmap` makes of the table of regions. A cut at the front takes the length off the end
and a cut at the back adds it to the start; no cut moves the offset. -/
inductive Trimmed (m m' : ℕ → Region) (i addr length : ℕ) : Prop
  | whole (hs : (m i).startVa = addr) (he : addr + length = (m i).endVa)
      (h : m' = Function.update m i { m i with fd := 0 })
  | front (hs : (m i).startVa = addr) (he : addr + length ≠ (m i).endVa)
      (h : m' = Function.update m i { m i with endVa := uint ((m i).endVa - length) })
  | back (hs : (m i).startVa ≠ addr) (he : addr + length = (m i).endVa)
      (h : m' = Function.update m i { m i with startVa := uint ((m i).startVa + length) })
  | middle (hs : (m i).startVa ≠ addr) (he : addr + length ≠ (m i).endVa) (j : ℕ)
      (hj : j < nRegion ∧ (m j).fd = 0)
      (h : m' = Function.update (Function.update m i { m i with endVa := addr }) j
        { m i with startVa := addr + length })

theorem cutRegion_trimmed {p q : Proc} {i addr length : ℕ}
    (h : cutRegion p i addr (addr + length) length = some q) :
    Trimmed p.mmArr q.mmArr i addr length := by
  simp only [cutRegion] at h
  split_ifs at h with h1 h2 h3
  · exact .whole h1.1 h1.2 (Option.some.inj h ▸ rfl)
  · exact .front h2 (fun he => h1 ⟨h2, he⟩) (Option.some.inj h ▸ rfl)
  · exact .back h2 h3 (Option.some.inj h ▸ rfl)
  · cases hv : getValidMmarr p with
    | none => simp [hv] at h
    | some j =>
      simp only [hv] at h
      exact .middle h2 h3 j (getValidMmarr_eq_some hv) (Option.some.inj h ▸ rfl)

theorem munmap_trimmed {s s' : Sys} {addr length i : ℕ} (hb : addr + length < 4294967296)
    (hc : coveringRegion s.proc addr (addr + length) = some i)
    (h : munmap s addr length = some (0, s')) :
    Trimmed s.proc.mmArr s'.proc.mmArr i addr length := by
  obtain ⟨ha, hl, hcase⟩ := munmap_eq_some h
  have hend : pgRoundDown (uint (addr + length)) = addr + length := by
    rw [uint_add hb, pgRoundDown_of_dvd (by omega)]
  rw [hend, pgRoundDown_of_dvd ha] at hcase
  obtain ⟨hnone, -⟩ | ⟨t, i', p, hq, hcov, hcut, rfl⟩ := hcase
  · rw [hc] at hnone
    cases hnone
  · have hi : i' = i := by
      simp only [coveringRegion, hq.mmArr] at hcov
      exact Option.some.inj (hcov.symm.trans hc)
    subst hi
    have ht := cutRegion_trimmed hcut
    rw [hq.mmArr] at ht
    exact ht

namespace Trimmed

variable {m m' : ℕ → Region} {i addr length : ℕ}

theorem other (h : Trimmed m m' i addr length) {k : ℕ} (hk : k ≠ i) (hf : (m k).fd ≠ 0) :
    m' k = m k := by
  cases h with
  | whole _ _ h | front _ _ h | back _ _ h => rw [h, Function.update_of_ne hk]
  | middle _ _ j hj h =>
    have hkj : k ≠ j := fun e => hf (e ▸ hj.2)
    rw [h, Function.update_of_ne hkj, Function.update_of_ne hk]

theorem uint_le {x : ℤ} (h : 0 ≤ x) : (uint x : ℤ) ≤ x := by
  simp only [uint]
  omega

theorem recorded (h : Trimmed m m' i addr length) (hi : i < nRegion) (hf : (m i).fd ≠ 0)
    (hs : (m i).startVa ≤ addr) (he : addr + length ≤ (m i).endVa)
    (hb : addr + length < 4294967296) {k x : ℕ} (hx : Recorded m' k x) :
    Recorded m k x ∨ Recorded m i x ∧ (k = i ∨ (m k).fd = 0) := by
  obtain ⟨hk, hfk, hsx, hxe⟩ := hx
  by_cases hki : k = i
  · subst hki
    refine .inr ⟨⟨hk, hf, ?_⟩, .inl rfl⟩
    cases h with
    | whole _ _ h => simp [h] at hfk
    | front _ _ h =>
      rw [h, Function.update_self] at hsx hxe
      have hle := @uint_le ((m k).endVa - length) (by omega)
      dsimp only at hsx hxe
      omega
    | back _ _ h =>
      rw [h, Function.update_self] at hsx hxe
      have heq : uint ((m k).startVa + length) = (m k).startVa + length := uint_add (by omega)
      dsimp only at hsx hxe
      omega
    | middle _ _ j hj h =>
      have hkj : k ≠ j := fun e => hf (e ▸ hj.2)
      rw [h, Function.update_of_ne hkj, Function.update_self] at hsx hxe
      dsimp only at hsx hxe
      omega
  · by_cases hfm : (m k).fd = 0
    · refine .inr ⟨⟨hi, hf, ?_⟩, .inr hfm⟩
      cases h with
      | whole _ _ h | front _ _ h | back _ _ h =>
        rw [h, Function.update_of_ne hki] at hfk
        exact absurd hfm hfk
      | middle _ _ j hj h =>
        by_cases hkj : k = j
        · subst hkj
          rw [h, Function.update_self] at hsx hxe
          dsimp only at hsx hxe
          omega
        · rw [h, Function.update_of_ne hkj, Function.update_of_ne hki] at hfk
          exact absurd hfm hfk
    · rw [h.other hki hfm] at hfk hsx hxe
      exact .inl ⟨hk, hfk, hsx, hxe⟩

theorem of_empty (h : Trimmed m m' i addr 0) (hlt : (m i).startVa < (m i).endVa)
    (hb : (m i).endVa < 4294967296) (hend : addr = (m i).startVa ∨ addr = (m i).endVa) :
    m' = m := by
  have keep : ∀ r, r = m i → Function.update m i r = m := by
    rintro r rfl
    exact Function.update_eq_self i m
  cases h with
  | whole hs he _ => omega
  | front _ _ h =>
    have heq : uint ((m i).endVa - (0 : ℕ)) = (m i).endVa := by
      rw [Int.ofNat_zero, Int.sub_zero]
      exact uint_small hb
    exact h.trans (keep _ (by rw [heq]))
  | back _ _ h =>
    have heq : uint ((m i).startVa + (0 : ℕ)) = (m i).startVa := uint_add (by omega)
    exact h.trans (keep _ (by rw [heq]))
  | middle hs he _ _ _ => omega

/-- A cut of part of a region, or a split of it, moves an address of what remains: into no
region, or to a position that is off by the distance to the start. -/
theorem moved (h : Trimmed m m' i addr length) (hf : (m i).fd ≠ 0)
    (hs : (m i).startVa ≤ addr) (he : addr + length ≤ (m i).endVa)
    (hb : (m i).endVa < 4294967296)
    (hcut : ¬ ((m i).startVa = addr ∧ addr + length = (m i).endVa ∨
      length = 0 ∧ (addr = (m i).startVa ∨ addr = (m i).endVa)))
    (hother : ∀ k x, k ≠ i → Recorded m k x → x ∉ (m i).span) :
    ¬ Positioned (m i) m' ((m i).span \ {x | addr ≤ x ∧ x < addr + length}) := by
  intro hpos
  -- Where the slot cut does not hold an address of the region, no other slot does.
  have lost : ∀ x r, m' = Function.update m i r → ¬ (r.startVa ≤ x ∧ x < r.endVa) →
      x ∈ (m i).span → x < addr ∨ addr + length ≤ x → False := by
    intro x r hm hno hx hout
    obtain ⟨k, ⟨hk, hfk, hxk⟩, -⟩ := hpos x ⟨hx, fun hc => by
      obtain ⟨h1, h2⟩ := hc
      omega⟩
    rw [hm] at hfk hxk
    by_cases hki : k = i
    · rw [hki, Function.update_self] at hxk
      exact hno hxk
    · rw [Function.update_of_ne hki] at hfk hxk
      exact hother k x hki ⟨hk, hfk, hxk⟩ hx
  cases h with
  | whole hs' he' _ => exact hcut (.inl ⟨hs', he'⟩)
  | front hs' he' h =>
    have hle := @uint_le ((m i).endVa - length) (by omega)
    refine lost ((m i).endVa - 1) _ h ?_ ⟨by omega, by omega⟩ (.inr (by omega))
    have hlen : length ≠ 0 := fun hz => hcut (.inr ⟨hz, .inl hs'.symm⟩)
    dsimp only
    omega
  | back hs' he' h =>
    have heq : uint ((m i).startVa + length) = (m i).startVa + length := uint_add (by omega)
    have hlen : length ≠ 0 := fun hz => hcut (.inr ⟨hz, .inr (by omega)⟩)
    refine lost (m i).startVa _ h ?_ ⟨le_rfl, by omega⟩ (.inl (by omega))
    dsimp only
    omega
  | middle hs' he' j hj h =>
    have hself : m' j = { m i with startVa := addr + length } := by rw [h, Function.update_self]
    have hrec : Recorded m' j (addr + length) := by
      refine ⟨hj.1, ?_⟩
      rw [hself]
      exact ⟨hf, le_rfl, by dsimp only; omega⟩
    obtain ⟨k, -, huniq, -, hoff⟩ := hpos (addr + length)
      ⟨⟨by omega, by omega⟩, fun hc => lt_irrefl _ hc.2⟩
    rw [← huniq j hrec, hself] at hoff
    dsimp only at hoff
    omega

end Trimmed

/-- The states after `munmap` calls that cut ranges out of the region in slot `i₀` or out of other
regions, with the addresses of the region that are still mapped. Between the calls everything but
the heap size and the regions may change. Each call meets `P`. -/
inductive Cuts (P : Sys → Set ℕ → ℕ → ℕ → Prop) (s₀ : Sys) (i₀ : ℕ) : Sys → Set ℕ → Prop
  | start : Cuts P s₀ i₀ s₀ (s₀.proc.mmArr i₀).span
  | cut {s s' : Sys} {live : Set ℕ} {addr length : ℕ} (h : Cuts P s₀ i₀ s live)
      (hb : addr + length < 4294967296)
      (hc : coveringRegion s.proc addr (addr + length) ≠ none) (hp : P s live addr length)
      (he : munmap s addr length = some (0, s')) :
      Cuts P s₀ i₀ s' (live \ {x | addr ≤ x ∧ x < addr + length})
  | quiet {s s' : Sys} {live : Set ℕ} (h : Cuts P s₀ i₀ s live) (hq : Quiet s s') :
      Cuts P s₀ i₀ s' live

/-- The call takes the whole region that it finds, or an empty range at an end of it, unless
that region holds no address of `live`. -/
def Entire (s : Sys) (live : Set ℕ) (addr length : ℕ) : Prop :=
  ∀ i, coveringRegion s.proc addr (addr + length) = some i →
    (∃ x ∈ live, Recorded s.proc.mmArr i x) →
    (s.proc.mmArr i).startVa = addr ∧ addr + length = (s.proc.mmArr i).endVa ∨
      length = 0 ∧ (addr = (s.proc.mmArr i).startVa ∨ addr = (s.proc.mmArr i).endVa)

/-- Nothing of the region is in use, or it is recorded as it was and alone. -/
def Untrimmed (r : Region) (i₀ : ℕ) (m : ℕ → Region) (live : Set ℕ) : Prop :=
  live = ∅ ∨ live = r.span ∧ m i₀ = r ∧ ∀ k x, k ≠ i₀ → Recorded m k x → x ∉ r.span

theorem Untrimmed.positioned {r : Region} {i₀ : ℕ} {m : ℕ → Region} {live : Set ℕ}
    (h : Untrimmed r i₀ m live) (hi : i₀ < nRegion) (hf : r.fd ≠ 0) : Positioned r m live := by
  obtain rfl | ⟨rfl, rfl, halone⟩ := h
  · exact fun x hx => absurd hx (Set.notMem_empty x)
  · intro x hx
    refine ⟨i₀, ⟨hi, hf, hx⟩, fun j hj => ?_, rfl, rfl⟩
    by_contra hne
    exact halone j x hne hj hx

section Step

variable {r : Region} {i₀ addr length : ℕ} {s s' : Sys} {live : Set ℕ}

theorem Untrimmed.step (h : Untrimmed r i₀ s.proc.mmArr live) (hi : i₀ < nRegion)
    (hf : r.fd ≠ 0) (hr : r.endVa < 4294967296) (hb : addr + length < 4294967296)
    (hc : coveringRegion s.proc addr (addr + length) ≠ none) (hp : Entire s live addr length)
    (he : munmap s addr length = some (0, s')) :
    Untrimmed r i₀ s'.proc.mmArr (live \ {x | addr ≤ x ∧ x < addr + length}) := by
  obtain ⟨i, hcov⟩ := Option.ne_none_iff_exists'.1 hc
  obtain ⟨hin, hfi, hsi, hei⟩ := coveringRegion_eq_some hcov
  have ht := munmap_trimmed hb hcov he
  obtain rfl | ⟨rfl, rfl, halone⟩ := h
  · exact .inl (Set.empty_sdiff _)
  by_cases hii : i = i₀
  · subst hii
    by_cases hempty : ∃ x, x ∈ (s.proc.mmArr i).span
    · obtain ⟨x, hx⟩ := hempty
      obtain ⟨hs', he'⟩ | ⟨hz, hend⟩ := hp i hcov ⟨x, hx, hin, hfi, hx⟩
      · left
        ext y
        simp only [Region.span, Set.mem_sdiff, Set.mem_ofPred_eq, Set.mem_empty_iff_false,
          iff_false]
        omega
      · right
        subst hz
        have hsame := ht.of_empty (hx.1.trans_lt hx.2) hr hend
        have hlive : (s.proc.mmArr i).span \ {x | addr ≤ x ∧ x < addr + 0} =
            (s.proc.mmArr i).span := by
          ext y
          simp only [Set.mem_sdiff, Set.mem_ofPred_eq, and_iff_left_iff_imp]
          omega
        rw [hsame]
        exact ⟨hlive, rfl, halone⟩
    · left
      ext y
      simp only [Set.mem_sdiff, Set.mem_empty_iff_false, iff_false]
      exact fun hy => hempty ⟨y, hy.1⟩
  · -- Another region is cut: what it records stays inside it.
    have hout : ∀ x, addr ≤ x → x < addr + length → x ∉ (s.proc.mmArr i₀).span := fun x h1 h2 =>
      halone i x hii ⟨hin, hfi, by omega, by omega⟩
    refine .inr ⟨?_, ht.other (Ne.symm hii) hf, fun k x hk hrec => ?_⟩
    · ext y
      exact ⟨fun hy => hy.1, fun hy => ⟨hy, fun hc => hout y hc.1 hc.2 hy⟩⟩
    · obtain hold | ⟨hold, -⟩ := ht.recorded hin hfi hsi hei hb hrec
      · exact halone k x hk hold
      · exact halone i x hii hold

theorem Untrimmed.entire (h : Untrimmed r i₀ s.proc.mmArr live)
    (hr : r.endVa < 4294967296) (hb : addr + length < 4294967296)
    (he : munmap s addr length = some (0, s'))
    (hpos : Positioned r s'.proc.mmArr (live \ {x | addr ≤ x ∧ x < addr + length})) :
    Entire s live addr length := by
  intro i hcov hmeets
  obtain ⟨hin, hfi, hsi, hei⟩ := coveringRegion_eq_some hcov
  obtain ⟨x, hx, hrec⟩ := hmeets
  obtain rfl | ⟨rfl, rfl, halone⟩ := h
  · exact absurd hx (Set.notMem_empty x)
  have hii : i = i₀ := by
    by_contra hne
    exact halone i x hne hrec hx
  subst hii
  by_contra hcut
  exact (munmap_trimmed hb hcov he).moved hfi hsi hei hr hcut halone hpos

end Step

section Run

variable {s₀ : Sys} {i₀ : ℕ}

theorem Cuts.untrimmed (hi : i₀ < nRegion) (hf : (s₀.proc.mmArr i₀).fd ≠ 0)
    (hr : (s₀.proc.mmArr i₀).endVa < 4294967296)
    (halone : ∀ k x, k ≠ i₀ → Recorded s₀.proc.mmArr k x → x ∉ (s₀.proc.mmArr i₀).span)
    {s : Sys} {live : Set ℕ} (h : Cuts Entire s₀ i₀ s live) :
    Untrimmed (s₀.proc.mmArr i₀) i₀ s.proc.mmArr live := by
  induction h with
  | start => exact .inr ⟨rfl, rfl, halone⟩
  | cut _ hb hc hp he ih => exact ih.step hi hf hr hb hc hp he
  | quiet _ hq ih => exact hq.mmArr ▸ ih

/-- A recorded region that meets no other keeps the file positions of its mapped addresses over
every sequence of calls that take whole regions, and the next call keeps them if and only if it
does that too. -/
theorem positions_kept (hi : i₀ < nRegion) (hf : (s₀.proc.mmArr i₀).fd ≠ 0)
    (hr : (s₀.proc.mmArr i₀).endVa < 4294967296)
    (halone : ∀ k x, k ≠ i₀ → Recorded s₀.proc.mmArr k x → x ∉ (s₀.proc.mmArr i₀).span)
    {s : Sys} {live : Set ℕ} (h : Cuts Entire s₀ i₀ s live) :
    Positioned (s₀.proc.mmArr i₀) s.proc.mmArr live ∧
      ∀ addr length s', addr + length < 4294967296 →
        coveringRegion s.proc addr (addr + length) ≠ none →
        munmap s addr length = some (0, s') →
        (Positioned (s₀.proc.mmArr i₀) s'.proc.mmArr
            (live \ {x | addr ≤ x ∧ x < addr + length}) ↔ Entire s live addr length) := by
  have hu := h.untrimmed hi hf hr halone
  refine ⟨hu.positioned hi hf, fun addr length s' hb hc he => ?_⟩
  exact ⟨hu.entire hr hb he, fun hp => (hu.step hi hf hr hb hc hp he).positioned hi hf⟩

end Run

/-- Behind the region of `twoPages` there is a second one, of one page; all pages are present. -/
def twoRegions : Sys :=
  { twoPages true with
    proc := { (twoPages true).proc with
      mmArr := Function.update (twoPages true).proc.mmArr 1
        ⟨3, 0x1007000, 0x1008000, some 0, 0x2000, 3⟩
      pte := fun v => if v = 0x1006 then ⟨321, true, true, true, false⟩ else
        if v = 0x1007 then ⟨322, true, true, true, false⟩ else (twoPages true).proc.pte v } }

/-- The addresses of the two-page region. -/
def twoPagesSpan : Set ℕ := (twoPages true |>.proc.mmArr 0).span

/-- The second region is unmapped as a whole. After that, to unmap the first region as a whole
keeps the positions, and to unmap its first page does not. -/
theorem positions_kept_twoRegions : ∃ s live,
    munmap twoRegions 0x1007000 0x1000 = some (0, s) ∧ Cuts Entire twoRegions 0 s live ∧
    0x1006000 ∈ live ∧ Positioned (twoRegions.proc.mmArr 0) s.proc.mmArr live ∧
    (∃ s', munmap s 0x1005000 0x2000 = some (0, s') ∧
      Positioned (twoRegions.proc.mmArr 0) s'.proc.mmArr
        (live \ {x | 0x1005000 ≤ x ∧ x < 0x1005000 + 0x2000})) ∧
    ∃ s', munmap s 0x1005000 0x1000 = some (0, s') ∧
      ¬ Positioned (twoRegions.proc.mmArr 0) s'.proc.mmArr
        (live \ {x | 0x1005000 ≤ x ∧ x < 0x1005000 + 0x1000}) := by
  let s := ((munmap twoRegions 0x1007000 0x1000).map Prod.snd).getD twoRegions
  have hs : munmap twoRegions 0x1007000 0x1000 = some (0, s) :=
    eq_of_fst twoRegions (by decide +kernel)
  have hwhole : munmap s 0x1005000 0x2000 = some (0, _) := eq_of_fst s (by decide +kernel)
  have hfront : munmap s 0x1005000 0x1000 = some (0, _) := eq_of_fst s (by decide +kernel)
  have halone : ∀ k x, k ≠ 0 → Recorded twoRegions.proc.mmArr k x →
      x ∉ (twoRegions.proc.mmArr 0).span := by
    rintro k x hk ⟨-, hfd, hx⟩ hspan
    obtain rfl | hk1 := eq_or_ne k 1
    · exact absurd (hx.1.trans_lt hspan.2) (by decide)
    · exact absurd hfd (by simp [twoRegions, twoPages, hk, hk1])
  -- The call finds the second region, which holds no address of the first.
  have hentire : Entire twoRegions (twoRegions.proc.mmArr 0).span 0x1007000 0x1000 := by
    intro i hcov _
    obtain rfl : 1 = i := Option.some.inj
      ((by decide : coveringRegion twoRegions.proc 0x1007000 0x1008000 = some 1).symm.trans hcov)
    exact .inl ⟨by decide, by decide⟩
  have hcuts := Cuts.cut .start (by decide) (by decide) hentire hs
  have hlive : ∀ x, 0x1005000 ≤ x → x < 0x1007000 → x ∈ (twoRegions.proc.mmArr 0).span \
      {x | 0x1007000 ≤ x ∧ x < 0x1007000 + 0x1000} := by
    intro x hlo hhi
    exact ⟨⟨hlo, hhi⟩, fun hc => absurd hc.1 (Nat.not_le.2 hhi)⟩
  have hslot : coveringRegion s.proc 0x1005000 0x1006000 = some 0 := by decide +kernel
  obtain ⟨hkept, hnext⟩ :=
    positions_kept (by decide) (by decide) (by decide) halone hcuts
  refine ⟨s, _, hs, hcuts, hlive _ (by decide) (by decide), hkept, ⟨_, hwhole, ?_⟩,
    _, hfront, ?_⟩
  · refine (hnext _ _ _ (by decide) (by decide +kernel) hwhole).2 fun i hcov _ => ?_
    obtain rfl : 0 = i := Option.some.inj
      ((by decide +kernel : coveringRegion s.proc 0x1005000 0x1007000 = some 0).symm.trans hcov)
    exact .inl ⟨by decide +kernel, by decide +kernel⟩
  · intro hpos
    have hcut := (hnext _ _ _ (by decide) (by rw [hslot]; simp) hfront).1 hpos 0 hslot
      ⟨0x1005000, hlive _ (by decide) (by decide), by decide, by decide +kernel,
        by decide +kernel, by decide +kernel⟩
    revert hcut
    decide +kernel

/-- With the first page of two unmapped, the second page is in no recorded region. -/
theorem munmap_front_lost : ∃ s' live, Cuts (fun _ _ _ _ => True) (twoPages true) 0 s' live ∧
    0x1006000 ∈ live ∧ faultRegion s'.proc 0x1006000 = none ∧
    ¬ Positioned ((twoPages true).proc.mmArr 0) s'.proc.mmArr live := by
  have hfst : (munmap (twoPages true) 0x1005000 0x1000).map Prod.fst = some 0 := by
    decide +kernel
  have hnone : faultRegion (((munmap (twoPages true) 0x1005000 0x1000).map Prod.snd).getD
      (twoPages true)).proc 0x1006000 = none := by decide +kernel
  have hlive : 0x1006000 ∈ twoPagesSpan \ {x : ℕ | 0x1005000 ≤ x ∧ x < 0x1005000 + 0x1000} :=
    ⟨⟨by decide, by decide⟩, fun hc => absurd hc.2 (by decide)⟩
  refine ⟨_, _, .cut .start (by decide) (by decide) trivial (eq_of_fst (twoPages true) hfst),
    hlive, hnone, fun hpos => ?_⟩
  obtain ⟨i, ⟨hi, hrec⟩, -⟩ := hpos _ hlive
  exact (Proc.holds_iff _ _).1 ⟨i, hi, hrec⟩ hnone

end Mmap
