import Coursework.BufferedFtl.Trim

/-! The buffer tables of lab 3 on their own: what the calls of the driver do to `buffer_L2P`
and `buffer_isValid`, whatever the pages in NAND hold. -/
namespace BufferedFtl
open Nand Sector PageMap

variable {s s' : Ftl} {buf : ℕ → Word} {r : Request} {lpn : ℕ}

/-- Only the links of logical pages and the marks of entries count. -/
theorem Linked.agree (h : Linked s) (hlink : ∀ lpn < nLpns, s'.link lpn = s.link lpn)
    (hmarks : ∀ e < nBuffers, s'.bufferIsValid (e : ℕ) = s.bufferIsValid (e : ℕ)) : Linked s' := by
  have hentry : ∀ lpn < nLpns, s.link lpn ≠ -1 →
      s'.bufferIsValid (s.link lpn) = s.bufferIsValid (s.link lpn) := by
    intro lpn hl hne
    obtain ⟨e, he, hlpn⟩ := (h.range lpn hl).resolve_left hne
    rw [hlpn]
    exact hmarks e he
  constructor
  · intro lpn hl
    rw [hlink lpn hl]
    exact h.range lpn hl
  · intro lpn hl hne
    rw [hlink lpn hl] at hne ⊢
    rw [hentry lpn hl hne]
    exact h.marked lpn hl hne
  · intro lpn hl hne
    rw [hlink lpn hl] at hne ⊢
    rw [hentry lpn hl hne]
    exact h.owner lpn hl hne
  · intro e he k hk
    rw [hmarks e he] at hk ⊢
    obtain ⟨lpn, hl, h1, h2⟩ := h.linked e he k hk
    exact ⟨lpn, hl, h1, (hlink lpn hl).trans h2⟩

section Flush

theorem Linked.flushEntry (h : Linked s) {e : ℕ} (he : e < nBuffers) : Linked (flushEntry s e) ∧
    (flushEntry s e).bufferIsValid = Function.update s.bufferIsValid (e : ℕ) fun _ => -1 := by
  rcases h.flushEntry_cases he with ⟨hall, hsame⟩ | ⟨lpn, hl, hlink, hflush⟩
  · have hrow : (fun _ => -1) = s.bufferIsValid (e : ℕ) := (funext hall).symm
    rw [hsame, hrow, Function.update_eq_self]
    exact ⟨h, rfl⟩
  · have hgather : Linked (gather s e lpn).1 :=
      h.congr (gather_bufferL2p s e lpn) (gather_bufferIsValid s e lpn)
    have hlink' : (gather s e lpn).1.link lpn = (e : ℕ) := by
      rw [Ftl.link, gather_bufferL2p]
      exact hlink
    rw [hflush]
    refine ⟨(hgather.drop hl).congr rfl rfl, ?_⟩
    rw [Ftl.drop, if_pos (by omega)]
    simp only [writeThroughLpn, Ftl.unlink, hlink', gather_bufferIsValid]

theorem Linked.ftlFlush (h : Linked s) : Linked (ftlFlush s) ∧
    ∀ e < nBuffers, ∀ k, (ftlFlush s).bufferIsValid (e : ℕ) k = -1 := by
  rw [ftlFlush_eq]
  exact flushLoop_kept (P := Linked) (fun h _ he => h.flushEntry he) h nBuffers le_rfl

end Flush

section Direct
variable {w : Writing}

theorem Linked.load (h : Linked w.ftl) (bank halvedLpn : ℕ) (pad : Sectors) :
    Linked (w.load bank halvedLpn pad).ftl := by
  unfold Writing.load
  dsimp only
  split_ifs
  · exact h
  · exact h.congr rfl rfl

theorem Linked.absorb (h : Linked w.ftl) (hl : lpn < nLpns) :
    Linked (w.absorb (lpn % nBanks) (lpn / nBanks)).ftl := by
  unfold Writing.absorb
  rw [bufferL2p_linkIdx]
  split_ifs with hlink
  · refine (h.unlink hl hlink).congr rfl ?_
    simp only [writeDirectlyNandBufferCheck, bufferL2p_linkIdx]
    rw [clear_marks]
    rfl
  · exact h

theorem Linked.send (h : Linked w.ftl) (bank halvedLpn off n : ℕ) :
    Linked (w.send buf bank halvedLpn off n).ftl := h.congr rfl rfl

theorem Linked.directPage (h : Linked w.ftl) {pp : ℕ} (hl : r.lpn pp < nLpns) :
    Linked (directPage r buf pp w).ftl := by
  unfold BufferedFtl.directPage directPageBy
  dsimp only
  split_ifs
  · exact ((h.load _ _ _).absorb hl).send _ _ _ _
  · exact ((h.load _ _ _).absorb hl).send _ _ _ _
  · exact (h.absorb hl).send _ _ _ _

theorem Linked.writeDirectlyNand (h : Linked s) {lba nsect : ℕ} (hin : InRange lba nsect)
    (buf : ℕ → Word) : Linked (writeDirectlyNand s lba nsect buf) := by
  let r : Request := ⟨lba, nsect⟩
  have hl : ∀ pp < r.sendKazu, r.lpn pp < nLpns := fun pp hpp => Request.lpn_lt hin.1 hpp hin.2
  have hloop (n : ℕ) (hn : n ≤ r.sendKazu) :
      Linked (directLoop r buf ⟨s, 0, s.stack.data⟩ n).ftl := by
    induction n with
    | zero => exact h
    | succ pp ih => exact (ih (by omega)).directPage (hl pp (by omega))
  unfold BufferedFtl.writeDirectlyNand writeDirectlyNandBy
  dsimp only
  split_ifs with hone
  · have h0 := hl 0 Request.sendKazu_pos
    rw [Request.lpn, Nat.zero_add] at h0
    exact ((Linked.load (w := ⟨s, 0, s.stack.data⟩) h _ _ _).absorb h0).send _ _ _ _
  · exact hloop _ le_rfl

end Direct

section Buffered

/-- The flush at the start of `write_to_buffer`, if too few entries are free. -/
def makeSpace (s : Ftl) (r : Request) : Ftl :=
  if neededBufferPageCalculate s (r.firstPageFirstLba / 8) r.sendKazu >
    usableBufferPageCalculate s then ftlFlush s else s

/-- The locals of `write_to_buffer` when it returns. -/
def buffering (s : Ftl) (lba nsect : ℕ) (buf : ℕ → Word) : Buffering :=
  let r : Request := ⟨lba, nsect⟩
  bufferLoop r buf ⟨makeSpace s r, 0, false⟩
    (r.lastPageFirstLba / 8 + 1 - r.firstPageFirstLba / 8)

/-- A request of at most as many pages as there are entries finds an entry for each page. -/
theorem Linked.buffering (h : Linked s) {lba nsect : ℕ} (hin : InRange lba nsect)
    (hfit : Request.sendKazu ⟨lba, nsect⟩ ≤ nBuffers) (buf : ℕ → Word) :
    Linked (buffering s lba nsect buf).ftl ∧ (buffering s lba nsect buf).returned = false := by
  let r : Request := ⟨lba, nsect⟩
  have hn : 0 < r.nsect := hin.1
  have hl : ∀ pp < r.sendKazu, r.lpn pp < nLpns := fun pp hpp => Request.lpn_lt hn hpp hin.2
  have hrounds : r.lastPageFirstLba / 8 + 1 - r.firstPageFirstLba / 8 = r.sendKazu := by
    have := Request.lastPage_div hn
    have := r.sendKazu_pos
    omega
  have hlpn : r.lpn 0 = r.firstPageFirstLba / 8 := Nat.zero_add _
  -- the buffer has room for the request, if need be after a flush
  have hroom : Linked (makeSpace s r) ∧ neededBufferPageCalculate (makeSpace s r) (r.lpn 0)
      r.sendKazu ≤ usableBufferPageCalculate (makeSpace s r) := by
    unfold makeSpace
    split_ifs with hc
    · obtain ⟨h1, h2⟩ := h.ftlFlush
      refine ⟨h1, (needed_le _ _ _).trans (hfit.trans_eq (usable_all fun e he => ?_).symm)⟩
      exact (entryFree_iff _ _).mpr (h2 e he)
    · rw [hlpn]
      exact ⟨h, not_lt.mp hc⟩
  have hloop (pp : ℕ) (hpp : pp ≤ r.sendKazu) :
      Roomy r pp (bufferLoop r buf ⟨makeSpace s r, 0, false⟩ pp) := by
    induction pp with
    | zero => exact ⟨hroom.1, rfl, hroom.2⟩
    | succ pp ih =>
      obtain ⟨_, -, -, -, hnext⟩ := @Roomy.round buf r _ hn pp (by omega) hl (ih (by omega))
      exact hnext
  have hend := hloop _ le_rfl
  have heq : BufferedFtl.buffering s lba nsect buf =
      bufferLoop r buf ⟨makeSpace s r, 0, false⟩ r.sendKazu := by
    rw [← hrounds]
    rfl
  rw [heq]
  exact ⟨hend.linked, hend.returned⟩

end Buffered

section Trim

theorem bufferL2p_clearValid (s : Ftl) (bank : ℕ) (ppn : ℤ) :
    (clearValid s bank ppn).bufferL2p = s.bufferL2p := by
  unfold clearValid
  dsimp only
  split_ifs
  · rfl
  · rfl

theorem bufferIsValid_clearValid (s : Ftl) (bank : ℕ) (ppn : ℤ) :
    (clearValid s bank ppn).bufferIsValid = s.bufferIsValid := by
  unfold clearValid
  dsimp only
  split_ifs
  · rfl
  · rfl

theorem bufferL2p_trimPage (s : Ftl) (lpn : ℕ) :
    (trimPage s lpn).bufferL2p = Function.update s.bufferL2p (s.trimIdx lpn) (-1) := by
  unfold trimPage
  dsimp only
  split_ifs
  · rw [bufferL2p_clearValid]
    rfl
  · rw [bufferL2p_clearValid]
    rfl

theorem bufferIsValid_trimPage (s : Ftl) (lpn : ℕ) : (trimPage s lpn).bufferIsValid =
    if s.bufferL2p (s.trimIdx lpn) ≠ -1 then
      Function.update s.bufferIsValid (s.bufferL2p (s.trimIdx lpn)) fun _ => -1
    else s.bufferIsValid := by
  unfold trimPage
  dsimp only
  rw [bufferL2p_clearValid, bufferIsValid_clearValid]
  change (if s.bufferL2p (s.trimIdx lpn) ≠ -1 then _ else _ : Ftl).bufferIsValid = _
  split_ifs
  · rfl
  · exact bufferIsValid_clearValid _ _ _

theorem astray_trimPage (h : Linked s) :
    (trimPage s lpn).astray = (s.astray || !decide (TrimInside s lpn)) := by
  have hclear (bank : ℕ) (ppn : ℤ) : (clearValid s bank ppn).astray = s.astray := by
    unfold clearValid
    dsimp only
    split_ifs
    · rfl
    · rfl
  have hindices : decide (TrimIndices (lpn % nBanks) ((s.row (lpn % nBanks)).l2p (lpn / nBanks))
      (s.bufferL2p (linkIdx (lpn % nBanks) ((s.row (lpn % nBanks)).l2p (lpn / nBanks))))) =
        decide (TrimInside s lpn) := decide_eq_decide.2 (trimIndices_iff h)
  unfold trimPage
  dsimp only
  rw [bufferL2p_clearValid, hindices]
  split_ifs <;> rw [hclear]

theorem Linked.trimPage (h : Linked s) (hin : TrimInside s lpn) : Linked (trimPage s lpn) := by
  obtain ⟨p, hp, hidx⟩ := exists_linkIdx hin.1 hin.2
  have hlink : s.bufferL2p (s.trimIdx lpn) = s.link p := by rw [hidx, Ftl.link]
  have h1 := bufferL2p_trimPage s lpn
  have h2 := bufferIsValid_trimPage s lpn
  rw [hlink] at h2
  by_cases hne : s.link p = -1
  · rw [if_neg (not_not.mpr hne)] at h2
    rw [← hne, ← hlink, Function.update_eq_self] at h1
    exact h.congr h1 h2
  · rw [if_pos hne] at h2
    rw [hidx] at h1
    exact (h.unlink hp hne).congr h1 h2

/-- A round stays defined, and leaves the tables consistent, if and only if its place lies inside
the array. -/
theorem linked_trimPage_iff (h : Linked s) (hd : s.astray = false) :
    (trimPage s lpn).astray = false ∧ Linked (trimPage s lpn) ↔ TrimInside s lpn := by
  rw [astray_trimPage h, hd, Bool.false_or, Bool.not_eq_false', decide_eq_true_iff]
  exact ⟨And.left, fun hin => ⟨hin, h.trimPage hin⟩⟩

theorem ppn_trimPage_other (s : Ftl) {p : ℕ} (hne : p ≠ lpn) :
    (trimPage s lpn).ppn p = s.ppn p := by
  have hclear (bank : ℕ) (ppn : ℤ) (b : ℕ) :
      ((clearValid s bank ppn).row b).l2p = (s.row b).l2p := by
    unfold clearValid
    dsimp only
    split_ifs
    · rfl
    · dsimp only
      by_cases hb : b = ((bank : ℤ) * nPpnsPb + ppn).toNat / nPpnsPb
      · rw [hb, Function.update_self]
        rfl
      · rw [Function.update_of_ne hb]
  have hrow : ((trimPage s lpn).row (p % nBanks)).l2p (p / nBanks) =
      (Function.update (clearValid s (lpn % nBanks) (s.ppn lpn)).row (lpn % nBanks)
        (((clearValid s (lpn % nBanks) (s.ppn lpn)).row (lpn % nBanks)).reset (lpn / nBanks))
        (p % nBanks)).l2p (p / nBanks) := by
    unfold BufferedFtl.trimPage
    dsimp only
    split_ifs
    · rfl
    · rfl
  rw [Ftl.ppn, hrow]
  by_cases hb : p % nBanks = lpn % nBanks
  · have hd : p / nBanks ≠ lpn / nBanks := by
      intro hd
      have h1 := Nat.div_add_mod p nBanks
      have h2 := Nat.div_add_mod lpn nBanks
      rw [hb, hd] at h1
      omega
    rw [hb, Function.update_self, Row.reset]
    simp only [Function.update_of_ne hd]
    rw [hclear, Ftl.ppn, hb]
  · rw [Function.update_of_ne hb, hclear]
    rfl

theorem TrimInside.trimPage {p : ℕ} (h : TrimInside s p) (hne : p ≠ lpn) :
    TrimInside (trimPage s lpn) p := by
  unfold TrimInside Ftl.trimIdx at h ⊢
  rw [ppn_trimPage_other s hne]
  exact h

theorem Linked.ftlTrim {npage : ℕ} (h : Linked s)
    (hin : ∀ p, lpn ≤ p → p < lpn + npage → TrimInside s p) (hd : s.astray = false) :
    Linked (ftlTrim s lpn npage) ∧ (ftlTrim s lpn npage).astray = false := by
  have hloop (n : ℕ) (hn : n ≤ npage) : Linked (trimLoop s lpn n) ∧
      (trimLoop s lpn n).astray = false ∧
      ∀ p, lpn + n ≤ p → p < lpn + npage → TrimInside (trimLoop s lpn n) p := by
    induction n with
    | zero => exact ⟨h, hd, fun p h1 h2 => hin p h1 h2⟩
    | succ n ih =>
      obtain ⟨h1, h2, h3⟩ := ih (by omega)
      obtain ⟨hd', h'⟩ := (linked_trimPage_iff h1 h2).2 (h3 _ le_rfl (by omega))
      refine ⟨h', hd', fun p h4 h5 => ?_⟩
      exact (h3 p (by omega) h5).trimPage (by omega)
  obtain ⟨h', hd', -⟩ := hloop npage le_rfl
  exact ⟨h', hd'⟩

end Trim

/-! Only `ftl_trim` goes astray. -/
section Defined

theorem flushLoop_astray (s : Ftl) (n : ℕ) : (flushLoop s n).astray = s.astray := by
  have hentry (s : Ftl) (e : ℕ) : (flushEntry s e).astray = s.astray := by
    unfold flushEntry flushEntryBy
    dsimp only
    split_ifs
    · rfl
    · rfl
    · rfl
  induction n with
  | zero => rfl
  | succ n ih => rw [flushLoop_succ, hentry, ih]

theorem writeDirectlyNand_astray (s : Ftl) (lba nsect : ℕ) (buf : ℕ → Word) :
    (writeDirectlyNand s lba nsect buf).astray = s.astray := by
  have hload (w : Writing) (bank halvedLpn : ℕ) (pad : Sectors) :
      (w.load bank halvedLpn pad).ftl.astray = w.ftl.astray := by
    unfold Writing.load
    dsimp only
    split_ifs
    · rfl
    · rfl
  have hsend (w : Writing) (bank halvedLpn off n : ℕ) :
      ((w.absorb bank halvedLpn).sendBy writeThroughLpn buf bank halvedLpn off n).ftl.astray =
        w.ftl.astray := by
    change (w.absorb bank halvedLpn).ftl.astray = _
    unfold Writing.absorb
    split_ifs
    · rfl
    · rfl
  have hloop (r : Request) (w : Writing) (n : ℕ) :
      (directLoopBy writeThroughLpn r buf w n).ftl.astray = w.ftl.astray := by
    induction n with
    | zero => rfl
    | succ n ih =>
      rw [← ih, directLoopBy]
      unfold directPageBy
      dsimp only
      split_ifs
      · rw [hsend, hload]
      · rw [hsend, hload]
      · rw [hsend]
  unfold writeDirectlyNand writeDirectlyNandBy directSingleBy
  dsimp only
  split_ifs
  · rw [hsend, hload]
  · exact hloop _ _ _

theorem bufferLoop_astray (r : Request) (buf : ℕ → Word) (w : Buffering) (n : ℕ) :
    (bufferLoop r buf w n).ftl.astray = w.ftl.astray := by
  induction n with
  | zero => rfl
  | succ n ih =>
    rw [← ih, bufferLoop]
    generalize bufferLoop r buf w n = v
    have hput (v : Buffering) (entry : ℤ) (lpn off k : ℕ) :
        (v.put buf entry lpn off k).ftl.astray = v.ftl.astray := rfl
    unfold bufferPage
    dsimp only
    split_ifs <;> simp only [hput]

end Defined

section Runs

/-- A call of the driver in range; a trim takes only places inside `buffer_L2P`. -/
def Sheltered (s : Ftl) (op : Op) : Prop :=
  op.InRange ∧ ∀ lpn npage, op = .trim lpn npage → ∀ p, lpn ≤ p → p < lpn + npage → TrimInside s p

theorem Linked.step (h : Linked s) (hd : s.astray = false) {op : Op} (hop : Sheltered s op) :
    Linked (step s op) := by
  cases op with
  | read lba nsect buf stack => exact h.congr rfl rfl
  | write lba nsect buf stack =>
    have hs : Linked { s with stack := stack } := h.congr rfl rfl
    unfold BufferedFtl.step stepBy ftlWriteBy
    dsimp only
    split_ifs with hc
    · exact (hs.writeDirectlyNand hop.1 buf).congr rfl rfl
    · exact (hs.buffering hop.1 (not_lt.mp (not_or.mp hc).2) buf).1.congr rfl rfl
  | flush stack =>
    have hs : Linked { s with stack := stack } := h.congr rfl rfl
    exact hs.ftlFlush.1
  | trim lpn npage => exact (h.ftlTrim (hop.2 lpn npage rfl) hd).1

theorem step_astray {op : Op} (h : Linked s) (hd : s.astray = false) (hop : Sheltered s op) :
    (step s op).astray = false := by
  cases op with
  | read lba nsect buf stack => exact hd
  | write lba nsect buf stack =>
    unfold BufferedFtl.step stepBy ftlWriteBy
    dsimp only
    split_ifs
    · exact (writeDirectlyNand_astray { s with stack := stack } lba nsect buf).trans hd
    · unfold writeToBufferBy
      dsimp only
      rw [bufferLoop_astray]
      dsimp only
      split_ifs
      · exact (flushLoop_astray { s with stack := stack } nBuffers).trans hd
      · exact hd
  | flush stack => exact (flushLoop_astray { s with stack := stack } nBuffers).trans hd
  | trim lpn npage => exact (h.ftlTrim (hop.2 lpn npage rfl) hd).2

/-- The buffer is consistent: no access has left its array, the map sends each page to no entry or
to one of its own, the entries with a marked sector are the mapped ones, and the marks carry the
number of the page; so every write that goes to the buffer finds an entry for each of its pages. -/
structure Consistent (s : Ftl) : Prop where
  defined : s.astray = false
  range : ∀ lpn < nLpns, s.link lpn = -1 ∨ ∃ e < nBuffers, s.link lpn = (e : ℕ)
  injective : ∀ lpn < nLpns, ∀ lpn' < nLpns, s.link lpn ≠ -1 → s.link lpn = s.link lpn' →
    lpn = lpn'
  mapped : ∀ e < nBuffers, (∃ lpn < nLpns, s.link lpn = (e : ℕ)) ↔
    ∃ k, s.bufferIsValid (e : ℕ) k ≠ -1
  owner : ∀ lpn < nLpns, s.link lpn ≠ -1 → ∀ k, s.bufferIsValid (s.link lpn) k ≠ -1 →
    s.bufferIsValid (s.link lpn) k = lpn
  served : ∀ lba nsect, InRange lba nsect →
    ¬(nsect > bufferSize ∨ Request.sendKazu ⟨lba, nsect⟩ > nBuffers) →
    ∀ buf stack, (buffering { s with stack := stack } lba nsect buf).returned = false

theorem consistent_iff (s : Ftl) : Consistent s ↔ s.astray = false ∧ Linked s := by
  constructor
  · intro h
    refine ⟨h.defined, h.range, fun lpn hl hne => ?_, h.owner, fun e he k hk => ?_⟩
    · obtain ⟨e, he, hlink⟩ := (h.range lpn hl).resolve_left hne
      rw [hlink]
      exact (h.mapped e he).mp ⟨lpn, hl, hlink⟩
    · obtain ⟨lpn, hl, hlink⟩ := (h.mapped e he).mpr ⟨k, hk⟩
      have howner := h.owner lpn hl (by omega) k
      rw [hlink] at howner
      exact ⟨lpn, hl, howner hk, hlink⟩
  · rintro ⟨hd, h⟩
    refine ⟨hd, h.range, fun lpn hl lpn' hl' hne he => h.link_inj hl hl' hne he, fun e he => ?_,
      h.owner, fun lba nsect hin hfit buf stack => ?_⟩
    · constructor
      · rintro ⟨lpn, hl, hlink⟩
        rw [← hlink]
        exact h.marked lpn hl (by omega)
      · rintro ⟨k, hk⟩
        obtain ⟨lpn, hl, -, hlink⟩ := h.linked e he k hk
        exact ⟨lpn, hl, hlink⟩
    · have hs : Linked { s with stack := stack } := h.congr rfl rfl
      exact (hs.buffering hin (not_lt.mp (not_or.mp hfit).2) buf).2

variable (mem : ℕ → Page Sectors ℕ) (stack : Page Sectors ℕ) (outside : ℤ → ℤ)

/-- The buffer is consistent in every state reached by in-range calls whose trims stay inside
the array. -/
theorem consistent_run {ops : List Op}
    (hops : Machine.Along step Sheltered (ftlOpen mem stack outside) ops) :
    Consistent (Machine.run step (ftlOpen mem stack outside) ops) :=
  (consistent_iff _).mpr (Machine.invariant (I := fun s => s.astray = false ∧ Linked s)
    (fun _ _ h hop => ⟨step_astray h.2 h.1 hop, h.2.step h.1 hop⟩) ops _
    ⟨rfl, (refines_ftlOpen mem stack outside).buffer⟩ hops)

/-- A buffered page, another one written to NAND and trimmed. -/
theorem consistent_run_trimmed :
    Consistent (Machine.run step (ftlOpen (fun _ => ⟨fun _ => 0, 0⟩) ⟨fun _ => 0, 0⟩ fun _ => 0)
      [.write 0 8 (fun i => i) ⟨fun _ => 0, 0⟩, .flush ⟨fun _ => 0, 0⟩,
        .write 8 3 (fun i => i) ⟨fun _ => 0, 0⟩, .trim 0 1]) := by
  refine @consistent_run _ _ _ [.write 0 8 (fun i => i) ⟨fun _ => 0, 0⟩, .flush ⟨fun _ => 0, 0⟩,
    .write 8 3 (fun i => i) ⟨fun _ => 0, 0⟩, .trim 0 1] ?_
  refine ⟨⟨⟨by decide, by decide⟩, nofun⟩, ⟨trivial, nofun⟩, ⟨⟨by decide, by decide⟩, nofun⟩,
    ⟨show 0 + 1 ≤ nLpns by decide, fun lpn npage he p h1 h2 => ?_⟩, trivial⟩
  obtain ⟨rfl, rfl⟩ : 0 = lpn ∧ 1 = npage := by simpa using he
  obtain rfl : p = 0 := by omega
  decide +kernel

/-- Page 0 is buffered and page 8 unmapped: to trim page 8 takes the word before `buffer_L2P`. -/
theorem ftlTrim_astray : ¬ ∀ ops : List Op, (∀ op ∈ ops, op.InRange) →
    Consistent (Machine.run step
      (ftlOpen (fun _ => ⟨fun _ => 0, 0⟩) ⟨fun _ => 0, 0⟩ fun _ => 0) ops) := by
  intro h
  have hdefined := (h [.write 0 8 (fun _ => 7) ⟨fun _ => 0, 0⟩, .trim 8 1]
    (by simp [Op.InRange, InRange, nLpns_eq])).defined
  revert hdefined
  decide +kernel

end Runs

end BufferedFtl
