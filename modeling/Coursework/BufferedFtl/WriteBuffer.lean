import Coursework.BufferedFtl.Write

/-! `write_to_buffer` of lab 3. The pages of the request that are not buffered yet need no
more entries than are free, so no page is dropped for want of an entry. -/
namespace BufferedFtl
open Nand Sector PageMap

variable {s s' : Ftl} {flat buf : ℕ → Word} {r : Request} {lpn : ℕ}

section Entries

theorem entryFree_iff (s : Ftl) (e : ℕ) : s.entryFree e = true ↔ ∀ k, s.bufferIsValid e k = -1 := by
  simp [Ftl.entryFree]

theorem length_filter_range_erase {p p' : ℕ → Bool} {e N : ℕ} (he : e < N) (hp : p e = true)
    (h : ∀ i < N, p' i = (p i && i != e)) :
    ((List.range N).filter p').length + 1 = ((List.range N).filter p).length := by
  have hmem : e ∈ (List.range N).filter p := List.mem_filter.mpr ⟨List.mem_range.mpr he, hp⟩
  have hnodup : ((List.range N).filter p).Nodup := List.nodup_range.filter _
  have heq : (List.range N).filter p' = ((List.range N).filter p).erase e := by
    rw [hnodup.erase_eq_filter, List.filter_filter]
    refine List.filter_congr fun i hi => ?_
    rw [h i (List.mem_range.mp hi), Bool.and_comm]
  have hpos := List.length_pos_of_mem hmem
  rw [heq, List.length_erase_of_mem hmem]
  omega

theorem usable_occupy {e : ℕ} (he : e < nBuffers) (hfree : s.entryFree e = true)
    (h : ∀ i < nBuffers, s'.entryFree i = (s.entryFree i && i != e)) :
    usableBufferPageCalculate s' + 1 = usableBufferPageCalculate s :=
  length_filter_range_erase he hfree h

theorem usable_congr (h : ∀ i < nBuffers, s'.entryFree i = s.entryFree i) :
    usableBufferPageCalculate s' = usableBufferPageCalculate s := by
  unfold usableBufferPageCalculate
  rw [List.filter_congr fun i hi => h i (List.mem_range.mp hi)]

theorem usable_all (h : ∀ e < nBuffers, s.entryFree e = true) :
    usableBufferPageCalculate s = nBuffers := by
  unfold usableBufferPageCalculate
  rw [List.filter_eq_self.mpr fun i hi => h i (List.mem_range.mp hi), List.length_range]

theorem needed_succ (s : Ftl) (start n : ℕ) : neededBufferPageCalculate s start (n + 1) =
    (if s.link start = -1 then 1 else 0) + neededBufferPageCalculate s (start + 1) n := by
  unfold neededBufferPageCalculate
  rw [List.range_succ_eq_map, List.filter_cons, List.filter_map]
  have hcomp : (fun i => decide (s.link (start + i) = -1)) ∘ Nat.succ =
      fun i => decide (s.link (start + 1 + i) = -1) := by
    funext i
    simp only [Function.comp_apply, Nat.succ_eq_add_one, Nat.add_comm i, Nat.add_assoc]
  rw [hcomp]
  simp only [Nat.add_zero, decide_eq_true_eq]
  split_ifs
  · rw [List.length_cons, List.length_map, Nat.add_comm]
  · rw [List.length_map, Nat.zero_add]

theorem needed_congr {start n : ℕ} (h : ∀ lpn, start ≤ lpn → lpn < start + n →
    s'.link lpn = s.link lpn) :
    neededBufferPageCalculate s' start n = neededBufferPageCalculate s start n := by
  unfold neededBufferPageCalculate
  congr 1
  refine List.filter_congr fun i hi => ?_
  rw [h _ (by omega) (by have := List.mem_range.mp hi; omega)]

theorem needed_le (s : Ftl) (start n : ℕ) : neededBufferPageCalculate s start n ≤ n := by
  unfold neededBufferPageCalculate
  exact (List.length_filter_le _ _).trans_eq List.length_range

theorem frontendScan_spec (entryFree : ℕ → Bool) (n : ℕ) (hn : n ≤ int32Max) :
    (frontendScan entryFree n = int32Max ∧ ∀ i < n, entryFree i = false) ∨
      (frontendScan entryFree n < n ∧ entryFree (frontendScan entryFree n) = true) := by
  induction n with
  | zero => exact .inl ⟨rfl, fun i hi => absurd hi (Nat.not_lt_zero i)⟩
  | succ n ih =>
    unfold frontendScan
    simp only
    rcases ih (by omega) with ⟨h1, h2⟩ | ⟨h1, h2⟩
    · rw [h1]
      split_ifs with hc
      · exact .inr ⟨by omega, hc.1⟩
      · refine .inl ⟨rfl, fun i hi => ?_⟩
        rcases Nat.lt_succ_iff_lt_or_eq.mp hi with hi | rfl
        · exact h2 i hi
        · by_contra hf
          exact hc ⟨by simpa using hf, by omega⟩
    · rw [if_neg (by omega)]
      exact .inr ⟨by omega, h2⟩

theorem frontend_free (h : 0 < usableBufferPageCalculate s) :
    frontendBufferPageCalculate s < nBuffers ∧
      s.entryFree (frontendBufferPageCalculate s) = true := by
  rcases frontendScan_spec s.entryFree nBuffers (by decide) with ⟨-, hnone⟩ | hfound
  · exfalso
    unfold usableBufferPageCalculate at h
    rw [List.filter_eq_nil_iff.mpr fun i hi => by
      rw [hnone i (List.mem_range.mp hi)]
      decide] at h
    exact absurd h (Nat.lt_irrefl 0)
  · exact hfound

end Entries

section Put

theorem natCast_ne_neg_one (n : ℕ) : (n : ℤ) ≠ -1 := by omega

/-- The state with `n` sectors of a page put into an entry. -/
def Ftl.fill (s : Ftl) (lpn e off n : ℕ) (src : ℕ → Word) : Ftl :=
  { s with
    bufferL2p := Function.update s.bufferL2p (linkIdx (lpn % nBanks) (lpn / nBanks : ℕ)) e
    bufferIsValid := Function.update s.bufferIsValid e
      ((s.bufferIsValid e).patch off n fun _ => lpn)
    bufferPblk := Function.update s.bufferPblk e ((s.bufferPblk e).patch off n src) }

variable {e off n : ℕ} {src : ℕ → Word}

theorem link_fill (s : Ftl) : (s.fill lpn e off n src).link lpn = e := by
  simp [Ftl.fill, Ftl.link]

theorem link_fill_other (hl : lpn < nLpns) {lpn' : ℕ} (hl' : lpn' < nLpns) (hne : lpn' ≠ lpn) :
    (s.fill lpn e off n src).link lpn' = s.link lpn' := by
  simp only [Ftl.fill, Ftl.link]
  rw [Function.update_of_ne fun he => hne (linkIdx_inj hl' hl he)]

theorem marks_fill (s : Ftl) (k : Fin 8) : (s.fill lpn e off n src).bufferIsValid e k =
    if off ≤ k.val ∧ k.val < off + n then (lpn : ℤ) else s.bufferIsValid e k := by
  simp only [Ftl.fill, Function.update_self, Sectors.patch]

theorem marks_fill_other {e' : ℤ} (hne : e' ≠ e) :
    (s.fill lpn e off n src).bufferIsValid e' = s.bufferIsValid e' := by
  simp only [Ftl.fill]
  rw [Function.update_of_ne hne]

/-- The entry belongs to the page, or is free and about to be linked to it. -/
def Ftl.Owns (s : Ftl) (lpn e : ℕ) : Prop :=
  s.link lpn = e ∨ s.link lpn = -1 ∧ ∀ k, s.bufferIsValid e k = -1

theorem Linked.link_ne (h : Linked s) (hl : lpn < nLpns) (hown : s.Owns lpn e) {lpn' : ℕ}
    (hl' : lpn' < nLpns) (hne : lpn' ≠ lpn) : s.link lpn' ≠ e := by
  intro he
  rcases hown with hown | ⟨-, hfree⟩
  · exact hne (h.link_inj hl' hl (by omega) (he.trans hown.symm))
  · obtain ⟨k, hk⟩ := h.marked lpn' hl' (by omega)
    rw [he] at hk
    exact hk (hfree k)

theorem Linked.fill (h : Linked s) (hl : lpn < nLpns) (he : e < nBuffers) (hown : s.Owns lpn e)
    (hn : 0 < n) (hoff : off + n ≤ 8) : Linked (s.fill lpn e off n src) := by
  have hself : ∀ lpn' < nLpns, lpn' ≠ lpn → s.link lpn' ≠ e := fun lpn' => h.link_ne hl hown
  constructor
  · intro lpn' hl'
    by_cases hc : lpn' = lpn
    · subst hc
      exact .inr ⟨e, he, link_fill s⟩
    · rw [link_fill_other hl hl' hc]
      exact h.range lpn' hl'
  · intro lpn' hl' hlink
    by_cases hc : lpn' = lpn
    · subst hc
      refine ⟨⟨off, by omega⟩, ?_⟩
      rw [link_fill, marks_fill, if_pos ⟨le_rfl, by simp only; omega⟩]
      exact natCast_ne_neg_one lpn'
    · rw [link_fill_other hl hl' hc] at hlink ⊢
      rw [marks_fill_other (hself lpn' hl' hc)]
      exact h.marked lpn' hl' hlink
  · intro lpn' hl' hlink k hk
    by_cases hc : lpn' = lpn
    · subst hc
      rw [link_fill, marks_fill] at hk ⊢
      split_ifs at hk ⊢
      · rfl
      · rcases hown with hown | ⟨-, hfree⟩
        · rw [← hown] at hk ⊢
          exact h.owner lpn' hl' (by omega) k hk
        · exact absurd (hfree k) hk
    · rw [link_fill_other hl hl' hc] at hlink hk ⊢
      rw [marks_fill_other (hself lpn' hl' hc)] at hk ⊢
      exact h.owner lpn' hl' hlink k hk
  · intro e' he' k hk
    by_cases hc : e' = e
    · subst hc
      refine ⟨lpn, hl, ?_, link_fill s⟩
      rw [marks_fill] at hk ⊢
      split_ifs at hk ⊢
      · rfl
      · rcases hown with hown | ⟨-, hfree⟩
        · rw [← hown] at hk ⊢
          exact h.owner lpn hl (by omega) k hk
        · exact absurd (hfree k) hk
    · rw [marks_fill_other (by omega)] at hk ⊢
      obtain ⟨lpn', hl', h1, h2⟩ := h.linked e' he' k hk
      have hne : lpn' ≠ lpn := by
        rintro rfl
        rcases hown with hown | ⟨hown, -⟩ <;> omega
      exact ⟨lpn', hl', h1, by rw [link_fill_other hl hl' hne]; exact h2⟩

/-- Putting sectors of a page into its entry replaces them in what the device stands for. -/
theorem Refines.fill (h : Refines s flat) (hl : lpn < nLpns) (he : e < nBuffers)
    (hown : s.Owns lpn e) (hn : 0 < n) (hoff : off + n ≤ 8) (src : ℕ → Word) :
    Refines (s.fill lpn e off n src) fun a =>
      if a / 8 = lpn then ((page flat lpn).patch off n src).get (a % 8) else flat a := by
  refine ⟨h.ok, h.buffer.fill hl he hown hn hoff, fun lpn' hl' => ?_⟩
  by_cases hc : lpn' = lpn
  · subst hc
    rw [page_get (fun a ha => if_pos ha)]
    funext k
    rw [Ftl.merged, link_fill, marks_fill]
    have hpblk : (s.fill lpn' e off n src).bufferPblk e = (s.bufferPblk e).patch off n src := by
      simp only [Ftl.fill, Function.update_self]
    rw [hpblk, Sectors.patch, Sectors.patch]
    by_cases hk : off ≤ k.val ∧ k.val < off + n
    · simp only [hk, and_self, ↓reduceIte]
      rw [if_pos ⟨natCast_ne_neg_one e, natCast_ne_neg_one lpn'⟩]
    · simp only [hk, ↓reduceIte]
      rcases hown with hown | ⟨hown, hfree⟩
      · rw [← h.page_eq lpn' hl', Ftl.merged, hown]
        rfl
      · rw [if_neg (fun hc => hc.2 (hfree k))]
        exact h.unmarked hl' (.inl hown)
  · have hsame : (s.fill lpn e off n src).merged lpn' = s.merged lpn' := by
      funext k
      have hne := h.buffer.link_ne hl hown hl' hc
      have hpblk : (s.fill lpn e off n src).bufferPblk (s.link lpn') =
          s.bufferPblk (s.link lpn') := by
        simp only [Ftl.fill]
        rw [Function.update_of_ne hne]
      rw [Ftl.merged, link_fill_other hl hl' hc, marks_fill_other hne, hpblk]
      rfl
    rw [hsame, h.page_eq lpn' hl']
    funext k
    have hk := k.isLt
    rw [page, page, if_neg (by omega)]

end Put

section Loop
variable {w : Buffering}

/-- The first `pp` pages of the request are in the buffer, and enough entries are free for
those of the others that need one. -/
structure Buffered (r : Request) (flat buf : ℕ → Word) (pp : ℕ) (w : Buffering) : Prop where
  refines : Refines w.ftl (writeFlat flat r.lba (r.pos pp) buf)
  cur : w.cur = r.pos pp
  returned : w.returned = false
  room : neededBufferPageCalculate w.ftl (r.lpn pp) (r.sendKazu - pp) ≤
    usableBufferPageCalculate w.ftl

theorem Buffering.put_eq (w : Buffering) (buf : ℕ → Word) (lpn e off n : ℕ) :
    ({ w with ftl := { w.ftl with
        bufferL2p := Function.update w.ftl.bufferL2p
          (linkIdx (lpn % nBanks) (lpn / nBanks : ℕ)) e } } : Buffering).put buf e lpn off n =
      { w with
        ftl := w.ftl.fill lpn e off n fun i => buf (w.cur + i)
        cur := w.cur + n } := rfl

/-- The sectors `write_to_buffer` puts into the entry of page `pp`. -/
theorem bufferPage_eq (hn : 0 < r.nsect) {pp : ℕ} (hpp : pp < r.sendKazu)
    (hret : w.returned = false) {e : ℕ} (hmax : e < int32Max)
    (he : (w.ftl.link (r.lpn pp) = -1 ∧ frontendBufferPageCalculate w.ftl = e) ∨
      w.ftl.link (r.lpn pp) = e) :
    bufferPage r buf pp w =
      { w with
        ftl := w.ftl.fill (r.lpn pp) e (r.start pp) (r.count pp) fun i => buf (w.cur + i)
        cur := w.cur + r.count pp } := by
  have hlast := Request.lastPage_div hn
  let w₁ : Buffering := { w with ftl := { w.ftl with
    bufferL2p := Function.update w.ftl.bufferL2p
      (linkIdx (r.lpn pp % nBanks) (r.lpn pp / nBanks : ℕ)) e } }
  -- after the first half of the round the page is linked to its entry
  have hlink : (if w.ftl.link (r.lpn pp) = -1 then
      { w with ftl := { w.ftl with
          bufferL2p := Function.update w.ftl.bufferL2p
            (linkIdx (r.lpn pp % nBanks) (r.lpn pp / nBanks : ℕ))
            (frontendBufferPageCalculate w.ftl : ℕ) } }
    else w) = w₁ := by
    rcases he with ⟨h1, h2⟩ | h1
    · rw [if_pos h1, h2]
    · rw [if_neg (by rw [h1]; exact natCast_ne_neg_one e)]
      simp only [w₁, ← h1, Ftl.link, Function.update_eq_self]
  have hentry : w₁.ftl.link (r.lpn pp) = e := Function.update_self _ _ _
  have hfound : ¬(w.ftl.link (r.lpn pp) = -1 ∧ frontendBufferPageCalculate w.ftl = int32Max) := by
    rintro ⟨h1, h2⟩
    rcases he with ⟨-, he⟩ | he
    · omega
    · exact natCast_ne_neg_one e (he.symm.trans h1)
  have hround : bufferPage r buf pp w =
      if r.sendKazu = 1 then
        w₁.put buf e (r.lpn pp) r.firstLbaOffset (r.lastLbaOffset + 1 - r.firstLbaOffset)
      else if r.lpn pp ≠ r.firstPageFirstLba / 8 ∧ r.lpn pp ≠ r.lastPageFirstLba / 8 then
        w₁.put buf e (r.lpn pp) 0 8
      else if r.lpn pp = r.firstPageFirstLba / 8 then
        w₁.put buf e (r.lpn pp) r.firstLbaOffset (8 - r.firstLbaOffset)
      else w₁.put buf e (r.lpn pp) 0 (r.lastLbaOffset + 1) := by
    unfold bufferPage
    simp only
    rw [if_neg (by rw [hret]; exact Bool.false_ne_true), if_neg hfound, hlink, hentry]
  have hput (off n : ℕ) (h1 : r.start pp = off) (h2 : r.count pp = n) :
      w₁.put buf e (r.lpn pp) off n =
        { w with
          ftl := w.ftl.fill (r.lpn pp) e (r.start pp) (r.count pp) fun i => buf (w.cur + i)
          cur := w.cur + r.count pp } := by
    rw [h1, h2]
    exact w.put_eq buf (r.lpn pp) e off n
  have hlpn : r.lpn pp = pp + r.firstPageFirstLba / 8 := rfl
  rw [hround]
  by_cases hone : r.sendKazu = 1
  · rw [if_pos hone]
    have hoff := Request.single_offsets hn hone
    obtain rfl : pp = 0 := by omega
    exact hput _ _ Request.start_zero (by rw [Request.count_single hone]; omega)
  · rw [if_neg hone]
    obtain ⟨rfl, hstart, hcount⟩ | ⟨h0, hl, hstart, hcount⟩ | ⟨h0, hl, hstart, hcount⟩ :=
      Request.page_cases hone pp
    · rw [if_neg (by omega), if_pos (by omega)]
      exact hput _ _ hstart hcount
    · rw [if_neg (by omega), if_neg (by omega)]
      exact hput _ _ hstart hcount
    · rw [if_pos ⟨by omega, by omega⟩]
      exact hput _ _ hstart hcount

/-- Filling an entry that is in use leaves the free entries as they are; filling a free one
takes it out of them. -/
theorem entryFree_fill {e off n : ℕ} (hn : 0 < n) (hoff : off + n ≤ 8) (src : ℕ → Word) (i : ℕ) :
    (s.fill lpn e off n src).entryFree i = (s.entryFree i && i != e) := by
  rw [Bool.eq_iff_iff, Bool.and_eq_true, entryFree_iff, entryFree_iff, bne_iff_ne]
  by_cases hie : i = e
  · subst hie
    refine ⟨fun h => ?_, fun h => absurd rfl h.2⟩
    have hmark := h ⟨off, by omega⟩
    rw [marks_fill, if_pos ⟨le_rfl, by simp only; omega⟩] at hmark
    exact absurd hmark (natCast_ne_neg_one lpn)
  · rw [marks_fill_other (by omega)]
    exact ⟨fun h => ⟨h, hie⟩, fun h => h.1⟩

theorem count_pos (hn : 0 < r.nsect) (pp : ℕ) : 0 < r.count pp := by
  by_cases hone : r.sendKazu = 1
  · rw [Request.count_single hone]
    exact hn
  · obtain ⟨-, -, hcount⟩ | ⟨-, -, -, hcount⟩ | ⟨-, -, -, hcount⟩ := Request.page_cases hone pp
    · rw [hcount, Request.firstLbaOffset]
      omega
    · rw [hcount]
      omega
    · rw [hcount]
      decide

/-- The loop has not returned, and enough entries are free for those of the pages from `pp` on
that need one. -/
structure Roomy (r : Request) (pp : ℕ) (w : Buffering) : Prop where
  linked : Linked w.ftl
  returned : w.returned = false
  room : neededBufferPageCalculate w.ftl (r.lpn pp) (r.sendKazu - pp) ≤
    usableBufferPageCalculate w.ftl

/-- A round finds an entry for its page, fills it and leaves room for the pages to come. -/
theorem Roomy.round (hn : 0 < r.nsect) {pp : ℕ} (hpp : pp < r.sendKazu)
    (hin : ∀ pp < r.sendKazu, r.lpn pp < nLpns) (h : Roomy r pp w) :
    ∃ e < nBuffers, w.ftl.Owns (r.lpn pp) e ∧
      bufferPage r buf pp w =
        { w with
          ftl := w.ftl.fill (r.lpn pp) e (r.start pp) (r.count pp) fun i => buf (w.cur + i)
          cur := w.cur + r.count pp } ∧
      Roomy r (pp + 1) (bufferPage r buf pp w) := by
  have hl := hin pp hpp
  have hroom := h.room
  have hlpn : ∀ q, r.lpn (pp + q) = r.lpn pp + q := by
    intro q
    simp only [Request.lpn]
    omega
  rw [show r.sendKazu - pp = r.sendKazu - (pp + 1) + 1 by omega, needed_succ] at hroom
  -- the entry the page is put into, and what is free afterwards
  obtain ⟨e, he, hown, hcase, husable⟩ : ∃ e < nBuffers, w.ftl.Owns (r.lpn pp) e ∧
      ((w.ftl.link (r.lpn pp) = -1 ∧ frontendBufferPageCalculate w.ftl = e) ∨
        w.ftl.link (r.lpn pp) = (e : ℕ)) ∧
      ∀ s' : Ftl, (∀ i, s'.entryFree i = (w.ftl.entryFree i && i != e)) →
        neededBufferPageCalculate w.ftl (r.lpn pp + 1) (r.sendKazu - (pp + 1)) ≤
          usableBufferPageCalculate s' := by
    rcases h.linked.range _ hl with hlink | ⟨e, he, hlink⟩
    · rw [if_pos hlink] at hroom
      obtain ⟨he, hfree⟩ := frontend_free (s := w.ftl) (by omega)
      refine ⟨_, he, .inr ⟨hlink, (entryFree_iff _ _).mp hfree⟩, .inl ⟨hlink, rfl⟩,
        fun s' hs' => ?_⟩
      have := @usable_occupy _ s' _ he hfree fun i _ => hs' i
      omega
    · rw [if_neg (by rw [hlink]; exact natCast_ne_neg_one e)] at hroom
      refine ⟨e, he, .inl hlink, .inr hlink, fun s' hs' => ?_⟩
      have hused : w.ftl.entryFree e = false := by
        obtain ⟨k, hk⟩ := h.linked.marked _ hl (by rw [hlink]; exact natCast_ne_neg_one e)
        rw [hlink] at hk
        rw [← Bool.not_eq_true, entryFree_iff]
        exact fun hall => hk (hall k)
      have := @usable_congr w.ftl s' fun i _ => by
        rw [hs' i]
        by_cases hie : i = e
        · simp [hie, hused]
        · simp [hie]
      omega
  have hmax : e < int32Max := he.trans (by decide)
  have hcount := count_pos hn pp
  have hoff := Request.start_add_count_le hn hpp
  have hpage : bufferPage r buf pp w = _ := bufferPage_eq hn hpp h.returned hmax hcase
  refine ⟨e, he, hown, hpage, ?_⟩
  rw [hpage]
  refine ⟨h.linked.fill hl he hown hcount hoff, h.returned, ?_⟩
  rw [hlpn 1, needed_congr]
  · exact husable _ (entryFree_fill hcount hoff _)
  · intro lpn h1 h2
    have hq := hin (pp + (lpn - r.lpn pp)) (by omega)
    rw [hlpn] at hq
    exact link_fill_other hl (by omega) (by omega)

theorem bufferPage_buffered (hn : 0 < r.nsect) {pp : ℕ} (hpp : pp < r.sendKazu)
    (hin : ∀ pp < r.sendKazu, r.lpn pp < nLpns) (h : Buffered r flat buf pp w) :
    Buffered r flat buf (pp + 1) (bufferPage r buf pp w) := by
  have hroomy : Roomy r pp w := ⟨h.refines.buffer, h.returned, h.room⟩
  obtain ⟨e, he, hown, hpage, hnext⟩ := @Roomy.round buf r w hn pp hpp hin hroomy
  refine ⟨?_, ?_, hnext.returned, hnext.room⟩
  · rw [hpage, Request.writeFlat_step hn hpp, ← h.cur]
    have hfill := h.refines.fill (hin pp hpp) he hown (count_pos hn pp)
      (Request.start_add_count_le hn hpp) fun i => buf (w.cur + i)
    rwa [← h.cur] at hfill
  · rw [hpage]
    simp only
    rw [h.cur, Request.pos_succ hn hpp]

/-- `write_to_buffer` replaces the sectors of the request. -/
theorem Refines.writeToBuffer (h : Refines s flat) {lba nsect : ℕ} (hin : InRange lba nsect)
    (hfit : (⟨lba, nsect⟩ : Request).sendKazu ≤ nBuffers) (buf : ℕ → Word) :
    Refines (writeToBuffer s lba nsect buf) (writeFlat flat lba nsect buf) := by
  let r : Request := ⟨lba, nsect⟩
  have hn : 0 < r.nsect := hin.1
  have hl : ∀ pp < r.sendKazu, r.lpn pp < nLpns := fun pp hpp => Request.lpn_lt hn hpp hin.2
  have hlast := Request.lastPage_div hn
  have hkazu := r.sendKazu_pos
  have hrounds : r.lastPageFirstLba / 8 + 1 - r.firstPageFirstLba / 8 = r.sendKazu := by omega
  have hlpn : r.lpn 0 = r.firstPageFirstLba / 8 := Nat.zero_add _
  -- the buffer has room for the request, if need be after a flush
  obtain ⟨s₁, hs₁, href, hroom⟩ : ∃ s₁, s₁ = (if neededBufferPageCalculate s
        (r.firstPageFirstLba / 8) r.sendKazu > usableBufferPageCalculate s
        then BufferedFtl.ftlFlush s
          else s) ∧
      Refines s₁ flat ∧ neededBufferPageCalculate s₁ (r.lpn 0) r.sendKazu ≤
        usableBufferPageCalculate s₁ := by
    refine ⟨_, rfl, ?_⟩
    split_ifs with hc
    · obtain ⟨h1, h2⟩ := h.ftlFlush
      refine ⟨h1, (needed_le _ _ _).trans (hfit.trans_eq (usable_all fun e he => ?_).symm)⟩
      exact (entryFree_iff _ _).mpr (h2 e he)
    · rw [hlpn]
      exact ⟨h, not_lt.mp hc⟩
  have hstart : Buffered r flat buf 0 ⟨s₁, 0, false⟩ := by
    refine ⟨?_, (Request.pos_zero r).symm, rfl, hroom⟩
    rwa [Request.pos_zero, writeFlat_zero]
  have hloop : ∀ pp ≤ r.sendKazu, Buffered r flat buf pp (bufferLoop r buf ⟨s₁, 0, false⟩ pp) := by
    intro pp
    induction pp with
    | zero => exact fun _ => hstart
    | succ pp ih =>
      intro hpp
      exact bufferPage_buffered hn (by omega) hl (ih (by omega))
  have hres := (hloop _ le_rfl).refines
  rw [Request.pos_sendKazu hn, hs₁] at hres
  unfold BufferedFtl.writeToBuffer writeToBufferBy
  change Refines (bufferLoop r buf _ (r.lastPageFirstLba / 8 + 1 - r.firstPageFirstLba / 8)).ftl _
  rw [hrounds]
  exact hres

theorem Refines.ftlWrite (h : Refines s flat) {lba nsect : ℕ} (hin : InRange lba nsect)
    (buf : ℕ → Word) : Refines (ftlWrite s lba nsect buf) (writeFlat flat lba nsect buf) := by
  unfold BufferedFtl.ftlWrite ftlWriteBy
  simp only
  split_ifs with hc
  · have := h.writeDirectlyNand hin buf
    exact this.locals _ _
  · have := h.writeToBuffer hin (not_lt.mp (not_or.mp hc).2) buf
    exact this.locals _ _

end Loop

end BufferedFtl
