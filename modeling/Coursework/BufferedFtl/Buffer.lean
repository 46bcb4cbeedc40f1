import Coursework.BufferedFtl.Ftl

/-! The write buffer of lab 3: which entry a page is linked to, and what the device reads
as once the buffered sectors are laid over the pages in NAND. -/
namespace BufferedFtl
open Nand Sector PageMap

theorem bufferL2p_linkIdx (s : Ftl) (lpn : ℕ) :
    s.bufferL2p (linkIdx (lpn % nBanks) (lpn / nBanks : ℕ)) = s.link lpn := by
  rw [Ftl.link]

theorem nBanks_eq : nBanks = 8 := rfl
theorem nLpnsPb_eq : nLpnsPb = 448 := rfl
theorem nLpns_eq : nLpns = 3584 := rfl

theorem linkIdx_inj {lpn lpn' : ℕ} (h : lpn < nLpns) (h' : lpn' < nLpns)
    (he : linkIdx (lpn % nBanks) (lpn / nBanks : ℕ) = linkIdx (lpn' % nBanks) (lpn' / nBanks : ℕ)) :
    lpn = lpn' := by
  simp only [linkIdx, nBanks_eq, nLpnsPb_eq, nLpns_eq] at h h' he
  omega

theorem linkIdx_mem {lpn : ℕ} (h : lpn < nLpns) :
    0 ≤ linkIdx (lpn % nBanks) (lpn / nBanks : ℕ) ∧
      linkIdx (lpn % nBanks) (lpn / nBanks : ℕ) < nBanks * nLpnsPb := by
  simp only [linkIdx, nBanks_eq, nLpnsPb_eq, nLpns_eq] at h ⊢
  omega

/-- The buffer invariant: a page is linked to at most one entry, an entry is linked exactly
if it has a marked sector, and its marks carry the number of the page. -/
structure Linked (s : Ftl) : Prop where
  range : ∀ lpn < nLpns, s.link lpn = -1 ∨ ∃ e < nBuffers, s.link lpn = (e : ℕ)
  marked : ∀ lpn < nLpns, s.link lpn ≠ -1 → ∃ k, s.bufferIsValid (s.link lpn) k ≠ -1
  owner : ∀ lpn < nLpns, s.link lpn ≠ -1 → ∀ k, s.bufferIsValid (s.link lpn) k ≠ -1 →
    s.bufferIsValid (s.link lpn) k = lpn
  linked : ∀ e < nBuffers, ∀ k, s.bufferIsValid (e : ℕ) k ≠ -1 →
    ∃ lpn < nLpns, s.bufferIsValid (e : ℕ) k = lpn ∧ s.link lpn = (e : ℕ)

/-- The sectors of a page, buffered ones first. -/
def Ftl.merged (s : Ftl) (lpn : ℕ) : Sectors := fun k =>
  if s.link lpn ≠ -1 ∧ s.bufferIsValid (s.link lpn) k ≠ -1 then s.bufferPblk (s.link lpn) k
  else s.page nBanks lpn k

/-- The device stands for the flat array of sectors. -/
structure Refines (s : Ftl) (flat : ℕ → Word) : Prop where
  ok : s.toBanks.Ok geometry nBanks
  buffer : Linked s
  page_eq : ∀ lpn < nLpns, s.merged lpn = page flat lpn

variable {s s' : Ftl} {flat flat' : ℕ → Word} {lpn : ℕ}

theorem Linked.link_inj (h : Linked s) {lpn' : ℕ} (hl : lpn < nLpns) (hl' : lpn' < nLpns)
    (hne : s.link lpn ≠ -1) (he : s.link lpn = s.link lpn') : lpn = lpn' := by
  obtain ⟨k, hk⟩ := h.marked lpn hl hne
  have h1 := h.owner lpn hl hne k hk
  rw [he] at h1 hne hk
  have h2 := h.owner lpn' hl' hne k hk
  exact Int.ofNat_inj.mp (h1.symm.trans h2)

theorem Linked.congr (h : Linked s) (h1 : s'.bufferL2p = s.bufferL2p)
    (h2 : s'.bufferIsValid = s.bufferIsValid) : Linked s' := by
  have hlink : s'.link = s.link := by
    funext lpn
    rw [Ftl.link, h1]
    rfl
  constructor
  · rw [hlink]
    exact h.range
  · rw [hlink, h2]
    exact h.marked
  · rw [hlink, h2]
    exact h.owner
  · rw [hlink, h2]
    exact h.linked

theorem Refines.congr (h : Refines s flat) (hok : s'.toBanks.Ok geometry nBanks)
    (hpage : s'.page nBanks = s.page nBanks) (h1 : s'.bufferL2p = s.bufferL2p)
    (h2 : s'.bufferIsValid = s.bufferIsValid) (h3 : s'.bufferPblk = s.bufferPblk) :
    Refines s' flat := by
  refine ⟨hok, h.buffer.congr h1 h2, fun lpn hl => ?_⟩
  rw [← h.page_eq lpn hl]
  funext k
  unfold Ftl.merged Ftl.link
  rw [h1, h2, h3, hpage]

theorem Refines.codes (h : Refines s flat) {codes : List Code} (hc : ∀ c ∈ codes, c = .success) :
    Refines { s with codes := codes ++ s.codes } flat :=
  h.congr (h.ok.codes hc) rfl rfl rfl rfl

theorem Refines.locals (h : Refines s flat) (stats : Stats) (stack : Page Sectors ℕ) :
    Refines { s with stats := stats, stack := stack } flat :=
  h.congr (h.ok.locals stats stack) rfl rfl rfl rfl

theorem Refines.withStack (h : Refines s flat) (stack : Page Sectors ℕ) :
    Refines { s with stack := stack } flat := h.locals s.stats stack

theorem Refines.mono (h : Refines s flat) (he : ∀ a, a / 8 < nLpns → flat a = flat' a) :
    Refines s flat' := by
  refine ⟨h.ok, h.buffer, fun lpn hl => ?_⟩
  rw [h.page_eq lpn hl]
  funext k
  have hk := k.isLt
  exact he _ (by omega)

theorem refines_ftlOpen (mem : ℕ → Page Sectors ℕ) (stack : Page Sectors ℕ) (outside : ℤ → ℤ) :
    Refines (ftlOpen mem stack outside) fun _ => blank := by
  have hn : Banks.initNand geometry nBanks mem = some (ftlOpen mem stack outside).nand := rfl
  have hlink : ∀ lpn < nLpns, (ftlOpen mem stack outside).link lpn = -1 := by
    intro lpn hl
    simp only [Ftl.link, ftlOpen]
    rw [if_pos (linkIdx_mem hl)]
  refine ⟨⟨fun b hb => ?_⟩, ⟨fun lpn hl => .inl (hlink lpn hl), ?_, ?_, ?_⟩, fun lpn hl => ?_⟩
  · exact Banks.initRow_ok hn hb _ ⟨0, 0, 0, 0⟩ stack
  · exact fun lpn hl hne => absurd (hlink lpn hl) hne
  · exact fun lpn hl hne => absurd (hlink lpn hl) hne
  · exact fun e _ k hk => absurd rfl hk
  · funext k
    rw [Ftl.merged, if_neg (fun hc => hc.1 (hlink lpn hl))]
    rfl

section Drop

/-- Take a page out of the buffer: clear the marks of its entry and unlink it. -/
def Ftl.unlink (s : Ftl) (lpn : ℕ) : Ftl :=
  { s with
    bufferIsValid := Function.update s.bufferIsValid (s.link lpn) fun _ => -1
    bufferL2p := Function.update s.bufferL2p (linkIdx (lpn % nBanks) (lpn / nBanks : ℕ)) (-1) }

/-- The state without a buffered copy of a page. -/
def Ftl.drop (s : Ftl) (lpn : ℕ) : Ftl := if s.link lpn ≠ -1 then s.unlink lpn else s

theorem link_unlink (s : Ftl) (lpn : ℕ) : (s.unlink lpn).link lpn = -1 := by
  simp [Ftl.unlink, Ftl.link]

theorem link_unlink_other (s : Ftl) {lpn' : ℕ} (hl : lpn < nLpns) (hl' : lpn' < nLpns)
    (hne : lpn' ≠ lpn) : (s.unlink lpn).link lpn' = s.link lpn' := by
  simp only [Ftl.unlink, Ftl.link]
  rw [Function.update_of_ne fun he => hne (linkIdx_inj hl' hl he)]

theorem marks_unlink_other (s : Ftl) {e : ℤ} (he : e ≠ s.link lpn) :
    (s.unlink lpn).bufferIsValid e = s.bufferIsValid e := by
  simp only [Ftl.unlink]
  rw [Function.update_of_ne he]

theorem Linked.unlink (h : Linked s) (hl : lpn < nLpns) (hne : s.link lpn ≠ -1) :
    Linked (s.unlink lpn) := by
  -- the marks of the entries of other pages are as before
  have hmark : ∀ lpn' < nLpns, lpn' ≠ lpn → s.link lpn' ≠ -1 →
      (s.unlink lpn).bufferIsValid (s.link lpn') = s.bufferIsValid (s.link lpn') := by
    intro lpn' hl' hne' hlink
    refine marks_unlink_other s fun he => hne' ?_
    exact h.link_inj hl' hl hlink he
  have hself : ∀ lpn', (s.unlink lpn).link lpn' ≠ -1 → lpn' ≠ lpn := by
    rintro lpn' hlink rfl
    exact hlink (link_unlink s lpn')
  constructor
  · intro lpn' hl'
    by_cases he : lpn' = lpn
    · subst he
      exact .inl (link_unlink s lpn')
    · rw [link_unlink_other s hl hl' he]
      exact h.range lpn' hl'
  · intro lpn' hl' hlink
    have he := hself lpn' hlink
    rw [link_unlink_other s hl hl' he] at hlink ⊢
    rw [hmark lpn' hl' he hlink]
    exact h.marked lpn' hl' hlink
  · intro lpn' hl' hlink
    have he := hself lpn' hlink
    rw [link_unlink_other s hl hl' he] at hlink ⊢
    rw [hmark lpn' hl' he hlink]
    exact h.owner lpn' hl' hlink
  · intro e hlt k hk
    by_cases he : (e : ℤ) = s.link lpn
    · simp only [Ftl.unlink, he, Function.update_self] at hk
      exact absurd rfl hk
    · have hsame : (s.unlink lpn).bufferIsValid (e : ℕ) = s.bufferIsValid (e : ℕ) :=
        Function.update_of_ne he _ _
      rw [hsame] at hk ⊢
      obtain ⟨lpn', hl', h1, h2⟩ := h.linked e hlt k hk
      refine ⟨lpn', hl', h1, ?_⟩
      rw [link_unlink_other s hl hl' (by rintro rfl; exact he h2.symm)]
      exact h2

theorem Linked.drop (h : Linked s) (hl : lpn < nLpns) : Linked (s.drop lpn) := by
  unfold Ftl.drop
  split_ifs with hne
  · exact h.unlink hl hne
  · exact h

theorem link_drop (s : Ftl) (lpn : ℕ) : (s.drop lpn).link lpn = -1 := by
  unfold Ftl.drop
  split_ifs with hne
  · exact link_unlink s lpn
  · exact not_not.mp hne

theorem toBanks_drop (s : Ftl) (lpn : ℕ) : (s.drop lpn).toBanks = s.toBanks := by
  unfold Ftl.drop
  split_ifs
  · rfl
  · rfl

theorem Linked.merged_drop (h : Linked s) {lpn' : ℕ} (hl : lpn < nLpns) (hl' : lpn' < nLpns)
    (hne : lpn' ≠ lpn) : (s.drop lpn).merged lpn' = s.merged lpn' := by
  unfold Ftl.drop
  split_ifs with hlink
  · funext k
    simp only [Ftl.merged, link_unlink_other s hl hl' hne]
    by_cases hb : s.link lpn' = -1
    · rw [if_neg (fun hc => hc.1 hb), if_neg (fun hc => hc.1 hb)]
      rfl
    · rw [marks_unlink_other s fun he => hne (h.link_inj hl' hl hb he)]
      rfl
  · rfl

end Drop

theorem Refines.merged_other (h : Refines s flat) (hl : lpn < nLpns) {lpn' : ℕ}
    (hl' : lpn' < nLpns) (hne : lpn' ≠ lpn) {data : Sectors}
    (hpage : s'.page nBanks = Function.update (s.page nBanks) lpn data)
    (h1 : s'.bufferL2p = (s.drop lpn).bufferL2p)
    (h2 : s'.bufferIsValid = (s.drop lpn).bufferIsValid)
    (h3 : s'.bufferPblk = (s.drop lpn).bufferPblk) : s'.merged lpn' = page flat lpn' := by
  have hsame : s'.merged lpn' = (s.drop lpn).merged lpn' := by
    funext k
    unfold Ftl.merged Ftl.link
    rw [hpage, Function.update_of_ne hne, toBanks_drop, h1, h2, h3]
  rw [hsame, h.buffer.merged_drop hl hl' hne, h.page_eq lpn' hl']

/-- Writing a page that is not buffered any more. -/
theorem Refines.write (h : Refines s flat) (hl : lpn < nLpns) (data : Sectors) :
    Refines (writeThroughLpn (s.drop lpn) (lpn % nBanks) (lpn / nBanks) data)
      fun a => if a / 8 = lpn then data.get (a % 8) else flat a := by
  have hok : (s.drop lpn).toBanks.Ok geometry nBanks := by
    rw [toBanks_drop]
    exact h.ok
  have hpage : (writeThroughLpn (s.drop lpn) (lpn % nBanks) (lpn / nBanks) data).page nBanks =
      Function.update (s.page nBanks) lpn data := by
    have := Banks.page_writeThroughLpn hooks hok hl data
    rw [toBanks_drop] at this
    rw [← this]
    simp only [writeThroughLpn, toBanks_drop]
  refine ⟨?_, (h.buffer.drop hl).congr rfl rfl, fun lpn' hl' => ?_⟩
  · exact Banks.writeThroughLpn_ok hooks hok (Nat.mod_lt _ (by decide))
      (Nat.div_lt_of_lt_mul (by rwa [nLpns, Nat.mul_comm] at hl)) data
  · by_cases he : lpn' = lpn
    · subst he
      rw [page_get (fun a ha => if_pos ha)]
      funext k
      have hlink : (writeThroughLpn (s.drop lpn') (lpn' % nBanks) (lpn' / nBanks) data).link lpn' =
          -1 := link_drop s lpn'
      rw [Ftl.merged, if_neg (fun hc => hc.1 hlink), hpage, Function.update_self]
    · rw [h.merged_other hl hl' he hpage rfl rfl rfl]
      funext k
      have hk := k.isLt
      rw [page, page, if_neg (by omega)]

end BufferedFtl
