import Coursework.BufferedFtl.WriteBuffer

/-! `ftl_trim` of lab 3. It looks up the buffer tables under the physical page of the page it
trims instead of its logical one; where both lead to the same entry, or none is linked under
either, it unmaps the page and takes it out of the buffer. -/
namespace BufferedFtl
open Nand Sector PageMap

variable {s s' : Ftl} {flat : ℕ → Word} {lpn npage : ℕ}

/-- `L2P[bank][halved_lpn]` of a page. -/
def Ftl.ppn (s : Ftl) (lpn : ℕ) : ℤ := (s.row (lpn % nBanks)).l2p (lpn / nBanks)

/-- The place in `buffer_L2P` that `ftl_trim` takes for a page. -/
def Ftl.trimIdx (s : Ftl) (lpn : ℕ) : ℤ := linkIdx (lpn % nBanks) (s.ppn lpn)

/-- The place that `ftl_trim` takes lies inside the array. -/
def TrimInside (s : Ftl) (lpn : ℕ) : Prop :=
  0 ≤ s.trimIdx lpn ∧ s.trimIdx lpn < nBanks * nLpnsPb

instance (s : Ftl) (lpn : ℕ) : Decidable (TrimInside s lpn) := by
  unfold TrimInside
  infer_instance

theorem exists_linkIdx {i : ℤ} (h0 : 0 ≤ i) (h1 : i < nBanks * nLpnsPb) :
    ∃ lpn < nLpns, i = linkIdx (lpn % nBanks) (lpn / nBanks : ℕ) := by
  refine ⟨(i % 448 * 8 + i / 448).toNat, ?_, ?_⟩
  · simp only [nBanks_eq, nLpnsPb_eq, nLpns_eq] at h1 ⊢
    omega
  · simp only [linkIdx, nBanks_eq, nLpnsPb_eq] at h1 ⊢
    omega

theorem trimIndices_iff (h : Linked s) :
    TrimIndices (lpn % nBanks) (s.ppn lpn) (s.bufferL2p (s.trimIdx lpn)) ↔ TrimInside s lpn := by
  refine ⟨fun hi => hi.2.1, fun hi => ⟨?_, hi, ?_⟩⟩
  · have hb : lpn % nBanks < nBanks := Nat.mod_lt _ (by decide)
    obtain ⟨h0, h1⟩ := hi
    unfold Ftl.trimIdx linkIdx at h0 h1
    generalize lpn % nBanks = bank at *
    change 0 ≤ (bank : ℤ) * 512 + s.ppn lpn ∧ (bank : ℤ) * 512 + s.ppn lpn < 8 * 512
    simp only [nLpnsPb_eq, nBanks_eq] at hb h0 h1
    omega
  · obtain ⟨p, hp, hidx⟩ := exists_linkIdx hi.1 hi.2
    rw [hidx]
    change s.link p = -1 ∨ _
    obtain hfree | ⟨e, he, hlink⟩ := h.range p hp
    · exact .inl hfree
    · exact .inr (by change 0 ≤ s.link p ∧ s.link p < _; omega)

/-- The page is mapped, and the entry of `buffer_L2P` that `ftl_trim` takes is the page's own,
or is one without a buffer, like the page itself. -/
def TrimSafe (s : Ftl) (lpn : ℕ) : Prop :=
  s.ppn lpn ≠ -1 ∧ (s.ppn lpn = (lpn / nBanks : ℕ) ∨
    s.link lpn = -1 ∧ linkIdx (lpn % nBanks) (s.ppn lpn) < nBanks * nLpnsPb ∧
      s.bufferL2p (linkIdx (lpn % nBanks) (s.ppn lpn)) = -1)

instance (s : Ftl) (lpn : ℕ) : Decidable (TrimSafe s lpn) := by
  unfold TrimSafe
  infer_instance

theorem Refines.ppn_lt (h : Refines s flat) (hm : s.ppn lpn ≠ -1) :
    ∃ p : ℕ, s.ppn lpn = p ∧ p < nPpnsPb :=
  (h.ok.bank_ok _ (Nat.mod_lt lpn (by decide))).inv.l2p_lt hm

theorem TrimSafe.inside (h : Refines s flat) (hl : lpn < nLpns) (hsafe : TrimSafe s lpn) :
    TrimInside s lpn := by
  obtain ⟨hm, hown | ⟨-, hlt, -⟩⟩ := hsafe
  · unfold TrimInside Ftl.trimIdx
    rw [hown]
    exact linkIdx_mem hl
  · obtain ⟨p, hp, -⟩ := h.ppn_lt hm
    refine ⟨?_, hlt⟩
    unfold Ftl.trimIdx linkIdx
    rw [hp, nLpnsPb_eq]
    omega

theorem clearValid_eq {bank p : ℕ} (hp : p < nPpnsPb) : clearValid s bank (p : ℕ) =
    { s with row := Function.update s.row bank ((s.row bank).invalidate p) } := by
  have hi : ((bank : ℤ) * nPpnsPb + p) = ((bank * nPpnsPb + p : ℕ) : ℤ) := by push_cast; rfl
  have hdiv : (bank * nPpnsPb + p) / nPpnsPb = bank := Paging.div_page hp
  have hmod : (bank * nPpnsPb + p) % nPpnsPb = p := Paging.mod_page hp
  unfold clearValid
  simp only [hi, Int.toNat_natCast, hdiv, hmod]
  rw [if_neg (by omega)]

/-- In the safe cases a round of `ftl_trim` does what it is for. -/
theorem trimPage_eq (h : Refines s flat) (hl : lpn < nLpns) (hsafe : TrimSafe s lpn) :
    trimPage s lpn =
      { s.drop lpn with toBanks := s.toBanks.unmap (lpn % nBanks) (lpn / nBanks) } := by
  have hinside := (trimIndices_iff h.buffer).2 (hsafe.inside h hl)
  obtain ⟨hm, hlink⟩ := hsafe
  obtain ⟨p, hp, hlt⟩ := h.ppn_lt hm
  have hrow : (s.row (lpn % nBanks)).l2p (lpn / nBanks) = p := hp
  -- the two stores to the bank's row
  have hbanks : Function.update (Function.update s.row (lpn % nBanks)
        ((s.row (lpn % nBanks)).invalidate p)) (lpn % nBanks)
        ((Function.update s.row (lpn % nBanks) ((s.row (lpn % nBanks)).invalidate p)
          (lpn % nBanks)).reset (lpn / nBanks)) =
      (s.toBanks.unmap (lpn % nBanks) (lpn / nBanks)).row := by
    rw [Function.update_self, Function.update_idem, Banks.unmap, Row.unmap, hrow, Int.toNat_natCast]
  unfold Ftl.trimIdx at hinside
  rw [hp] at hlink hinside
  unfold trimPage
  simp only [hrow]
  rw [clearValid_eq hlt, decide_eq_true hinside, Bool.not_true]
  simp only [Bool.or_false]
  rcases hlink with hown | ⟨hfree, -, hnone⟩
  · -- the physical number is the logical one, so the entry is the page's own
    have hentry : s.bufferL2p (linkIdx (lpn % nBanks) (p : ℕ)) = s.link lpn := by
      rw [hown]
      rfl
    simp only [hentry]
    unfold Ftl.drop
    split_ifs with hb
    · simp only [Ftl.unlink, hown, hbanks]
      rfl
    · have hself : Function.update s.bufferL2p (linkIdx (lpn % nBanks) (p : ℕ)) (-1) =
          s.bufferL2p := by
        rw [← not_not.mp hb, ← hentry, Function.update_eq_self]
      simp only [hself, hbanks]
      rfl
  · have hself : Function.update s.bufferL2p (linkIdx (lpn % nBanks) (p : ℕ)) (-1) =
        s.bufferL2p := by
      rw [← hnone, Function.update_eq_self]
    rw [if_neg (not_not.mpr hnone), Ftl.drop, if_neg (not_not.mpr hfree)]
    simp only [hself, hbanks]
    rfl

theorem trimPage_refines (h : Refines s flat) (hl : lpn < nLpns) (hsafe : TrimSafe s lpn) :
    Refines (trimPage s lpn) fun a => if a / 8 = lpn then blank else flat a := by
  have hm : (s.row (lpn % nBanks)).l2p (lpn / nBanks) ≠ -1 := hsafe.1
  have hpage := Banks.page_unmap (s := s.toBanks) hm
  rw [trimPage_eq h hl hsafe]
  refine ⟨Banks.unmap_ok h.ok hm, (h.buffer.drop hl).congr rfl rfl, fun lpn' hl' => ?_⟩
  by_cases he : lpn' = lpn
  · subst he
    funext k
    have hk := k.isLt
    have hlink : ({ s.drop lpn' with
        toBanks := s.toBanks.unmap (lpn' % nBanks) (lpn' / nBanks) } : Ftl).link lpn' = -1 :=
      link_drop s lpn'
    rw [Ftl.merged, if_neg (fun hc => hc.1 hlink), hpage, Function.update_self, page,
      if_pos (by omega)]
  · have hother : ({ s.drop lpn with
        toBanks := s.toBanks.unmap (lpn % nBanks) (lpn / nBanks) } : Ftl).merged lpn' =
        page flat lpn' := h.merged_other hl hl' he hpage rfl rfl rfl
    rw [hother]
    funext k
    have hk := k.isLt
    rw [page, page, if_neg (by omega)]

/-- What the rounds of `ftl_trim` on the pages `lpn, …, lpn + n - 1` have done. -/
structure Trimmed (s : Ftl) (flat : ℕ → Word) (lpn n : ℕ) (s' : Ftl) : Prop where
  refines : Refines s' (trimFlat flat lpn n)
  ppn : ∀ p, lpn + n ≤ p → s'.ppn p = s.ppn p
  link : ∀ p < nLpns, lpn + n ≤ p → s'.link p = s.link p
  bufferL2p : ∀ i, s.bufferL2p i = -1 → s'.bufferL2p i = -1
  isValid : ∀ b q, (∀ p, lpn ≤ p → p < lpn + n → p % nBanks = b → s.ppn p ≠ (q : ℕ)) →
    (s'.row b).isValid q = (s.row b).isValid q

theorem Trimmed.safe {n : ℕ} (h : Trimmed s flat lpn n s') {p : ℕ} (hp : p < nLpns)
    (hle : lpn + n ≤ p) (hsafe : TrimSafe s p) : TrimSafe s' p := by
  unfold TrimSafe at hsafe ⊢
  rw [h.ppn p hle, h.link p hp hle]
  obtain ⟨h1, h2⟩ := hsafe
  refine ⟨h1, ?_⟩
  rcases h2 with h2 | ⟨h2, h3, h4⟩
  · exact .inl h2
  · exact .inr ⟨h2, h3, h.bufferL2p _ h4⟩

theorem Trimmed.round {n : ℕ} (h : Trimmed s flat lpn n s') (hl : lpn + n < nLpns)
    (hsafe : TrimSafe s (lpn + n)) : Trimmed s flat lpn (n + 1) (trimPage s' (lpn + n)) := by
  have hsafe' := h.safe hl le_rfl hsafe
  have heq := trimPage_eq h.refines hl hsafe'
  have hrow : (trimPage s' (lpn + n)).row = Function.update s'.row ((lpn + n) % nBanks)
      ((s'.row ((lpn + n) % nBanks)).unmap ((lpn + n) / nBanks)) := by
    rw [heq]
    rfl
  have htable : (trimPage s' (lpn + n)).bufferL2p = (s'.drop (lpn + n)).bufferL2p := by
    rw [heq]
  constructor
  · refine (trimPage_refines h.refines hl hsafe').mono fun a _ => ?_
    unfold trimFlat
    by_cases ha : a / 8 = lpn + n
    · rw [if_pos ha, if_pos (by omega)]
    · rw [if_neg ha]
      exact if_congr (by omega) rfl rfl
  · intro p hp
    rw [← h.ppn p (by omega), Ftl.ppn, Ftl.ppn, hrow]
    by_cases hb : p % nBanks = (lpn + n) % nBanks
    · have hd : p / nBanks ≠ (lpn + n) / nBanks := by
        intro hd
        have h1 := Nat.div_add_mod p nBanks
        have h2 := Nat.div_add_mod (lpn + n) nBanks
        rw [hb, hd] at h1
        omega
      rw [hb, Function.update_self, Row.unmap, Row.reset]
      simp only [Function.update_of_ne hd]
      rfl
    · rw [Function.update_of_ne hb]
  · intro p hp hle
    rw [← h.link p hp (by omega)]
    have : (trimPage s' (lpn + n)).link p = (s'.drop (lpn + n)).link p := by
      rw [Ftl.link, htable]
      rfl
    rw [this, Ftl.drop]
    split_ifs
    · exact link_unlink_other s' hl hp (by omega)
    · rfl
  · intro i hi
    rw [htable, Ftl.drop]
    split_ifs
    · simp only [Ftl.unlink]
      by_cases hc : i = linkIdx ((lpn + n) % nBanks) ((lpn + n) / nBanks : ℕ)
      · rw [hc, Function.update_self]
      · rw [Function.update_of_ne hc]
        exact h.bufferL2p i hi
    · exact h.bufferL2p i hi
  · intro b q hq
    rw [← h.isValid b q fun p h1 h2 => hq p h1 (by omega), hrow]
    by_cases hb : b = (lpn + n) % nBanks
    · subst hb
      have hne := hq (lpn + n) (by omega) (by omega) rfl
      rw [Function.update_self, Row.unmap]
      obtain ⟨p, hp, -⟩ := h.refines.ppn_lt hsafe'.1
      have hp' : (s'.row ((lpn + n) % nBanks)).l2p ((lpn + n) / nBanks) = p := hp
      rw [← h.ppn _ le_rfl, hp] at hne
      simp only [hp', Int.toNat_natCast, Row.reset, Row.invalidate]
      rw [Function.update_of_ne (by omega)]
    · rw [Function.update_of_ne hb]

theorem Refines.ftlTrim (h : Refines s flat) (hin : lpn + npage ≤ nLpns)
    (hsafe : ∀ p, lpn ≤ p → p < lpn + npage → TrimSafe s p) :
    Trimmed s flat lpn npage (ftlTrim s lpn npage) := by
  have hloop : ∀ n ≤ npage, Trimmed s flat lpn n (trimLoop s lpn n) := by
    intro n
    induction n with
    | zero =>
      refine fun _ => ⟨h.mono fun a _ => ?_, fun _ _ => rfl, fun _ _ _ => rfl, fun _ hi => hi,
        fun _ _ _ => rfl⟩
      rw [trimFlat, if_neg (by omega)]
    | succ n ih =>
      intro hn
      exact (ih (by omega)).round (by omega) (hsafe _ (by omega) (by omega))
  exact hloop npage le_rfl

end BufferedFtl
