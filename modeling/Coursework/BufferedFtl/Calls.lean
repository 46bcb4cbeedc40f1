import Coursework.BufferedFtl.Ages
import Coursework.BufferedFtl.Refinement

/-! The calls of the driver as page reads and page writes: whatever in-range writes, reads and
flushes lead to is a state with a history. -/
namespace BufferedFtl
open Nand Sector PageMap

/-- A marked sector of the write buffer carries the number of a logical page. -/
def MarksOk (s : Ftl) : Prop :=
  ∀ e k, s.bufferIsValid e k = -1 ∨ ∃ lpn < nLpns, s.bufferIsValid e k = (lpn : ℕ)

/-- A state with a history, by any page reads and page writes, and its buffer. -/
def Known (b : Build) (s : Ftl) : Prop :=
  (∃ hist, Reached b (fun _ _ => True) hist s) ∧ MarksOk s

variable {b : Build} {s s' : Ftl} {r : Request}

theorem Known.other (h : Known b s) (hrow : s'.row = s.row) (hnand : s'.nand = s.nand)
    (hcodes : s'.codes = s.codes) (hmarks : MarksOk s') : Known b s' := by
  obtain ⟨⟨hist, hr⟩, -⟩ := h
  exact ⟨⟨hist, hr.other hrow hnand hcodes⟩, hmarks⟩

theorem Known.write (h : Known b s) {lpn : ℕ} (hl : lpn < nLpns) (data : Sectors) :
    Known b (b.writeThroughLpn s (lpn % nBanks) (lpn / nBanks) data) := by
  obtain ⟨⟨hist, hr⟩, hm⟩ := h
  refine ⟨⟨_, hr.write (Nat.mod_lt _ (by decide)) ?_ data trivial⟩, hm⟩
  change lpn / 8 < 448
  change lpn < 3584 at hl
  omega

/-- The return code of the read of a mapped page. -/
def ReadCode (s : Ftl) (c : Code) : Prop := ∃ bank < nBanks, ∃ halvedLpn data,
  (s.row bank).l2p halvedLpn ≠ -1 ∧
    c = (s.readPpn geometry bank ((s.row bank).l2p halvedLpn) data).1

theorem readCode_of_mapped {lpn : ℕ} (hm : (s.row (lpn % nBanks)).l2p (lpn / nBanks) ≠ -1)
    (data : Sectors) : ReadCode s (s.readPpn geometry (lpn % nBanks)
      ((s.row (lpn % nBanks)).l2p (lpn / nBanks)) data).1 :=
  ⟨_, Nat.mod_lt _ (by decide), _, data, hm, rfl⟩

theorem Known.codes (h : Known b s) {codes : List Code} (hc : ∀ c ∈ codes, ReadCode s c) :
    Known b { s with codes := codes ++ s.codes } := by
  obtain ⟨⟨hist, hr⟩, hm⟩ := h
  refine ⟨⟨hist, ?_⟩, hm⟩
  induction codes with
  | nil => exact hr
  | cons c codes ih =>
    obtain ⟨bank, hbank, halvedLpn, data, hmapped, rfl⟩ := hc c List.mem_cons_self
    exact (ih fun c' hc' => hc c' (List.mem_cons_of_mem _ hc')).read hbank hmapped data

section Reads

theorem readSectors_codes {lpn off n m : ℕ} {st : Reading} (h : ∀ c ∈ st.codes, ReadCode s c) :
    ∀ c ∈ (readSectors s lpn off n m st).codes, ReadCode s c := by
  unfold readSectors
  dsimp only
  split_ifs with hlink hm hm
  · exact h
  · exact List.forall_mem_cons.mpr ⟨readCode_of_mapped hm _, h⟩
  · exact h
  · exact List.forall_mem_cons.mpr ⟨readCode_of_mapped hm _, h⟩

theorem readLoop_codes {st : Reading} (h : ∀ c ∈ st.codes, ReadCode s c) (pp : ℕ) :
    ∀ c ∈ (readLoop s r st pp).codes, ReadCode s c := by
  induction pp with
  | zero => exact h
  | succ pp ih =>
    rw [readLoop, readPage]
    dsimp only
    split_ifs
    · exact readSectors_codes ih
    · exact readSectors_codes ih
    · exact readSectors_codes ih

theorem ftlRead_codes (s : Ftl) (lba nsect : ℕ) (buf : ℕ → Word) :
    ∃ codes, (∀ c ∈ codes, ReadCode s c) ∧
      (ftlRead s lba nsect buf).1 = { s with codes := codes ++ s.codes } := by
  refine ⟨_, ?_, rfl⟩
  have hnone : ∀ c ∈ (⟨buf, 0, s.stack.data, []⟩ : Reading).codes, ReadCode s c :=
    fun c hc => absurd hc List.not_mem_nil
  split_ifs
  · exact readSectors_codes hnone
  · exact readLoop_codes hnone _

theorem Known.ftlRead (h : Known b s) (lba nsect : ℕ) (buf : ℕ → Word) :
    Known b (ftlRead s lba nsect buf).1 := by
  obtain ⟨codes, hc, he⟩ := ftlRead_codes s lba nsect buf
  rw [he]
  exact h.codes hc

end Reads

section DirectWrites
variable {w : Writing} {lpn : ℕ}

theorem Known.load (h : Known b w.ftl) (pad : Sectors) :
    Known b (w.load (lpn % nBanks) (lpn / nBanks) pad).ftl := by
  unfold Writing.load
  dsimp only
  split_ifs with hm
  · exact h
  · have hc : ∀ c ∈ [(w.ftl.readPpn geometry (lpn % nBanks)
        ((w.ftl.row (lpn % nBanks)).l2p (lpn / nBanks)) w.data).1], ReadCode w.ftl c :=
      fun c hc => List.mem_singleton.mp hc ▸ readCode_of_mapped hm _
    exact h.codes hc

theorem MarksOk.clear (h : MarksOk s) (e : ℤ) {marks : Sectors}
    (hmarks : ∀ k, marks k = -1 ∨ marks k = s.bufferIsValid e k) (link : ℤ → ℤ) :
    MarksOk { s with
      bufferIsValid := Function.update s.bufferIsValid e marks,
      bufferL2p := link } := by
  intro e' k
  by_cases he : e' = e
  · subst he
    change Function.update s.bufferIsValid e' marks e' k = -1 ∨ _
    simp only [Function.update_self]
    rcases hmarks k with hk | hk
    · exact .inl hk
    · rw [hk]
      exact h e' k
  · simp only [Function.update_of_ne he]
    exact h e' k

theorem Known.absorb (h : Known b w.ftl) (bank halvedLpn : ℕ) :
    Known b (w.absorb bank halvedLpn).ftl := by
  unfold Writing.absorb writeDirectlyNandBufferCheck
  split_ifs
  · refine h.other rfl rfl rfl (h.2.clear _ (fun k => ?_) _)
    split_ifs with hk
    · exact .inl rfl
    · exact .inr rfl
  · exact h

theorem Known.send (h : Known b w.ftl) (hl : lpn < nLpns) (buf : ℕ → Word) (off n : ℕ) :
    Known b (b.send w buf (lpn % nBanks) (lpn / nBanks) off n).ftl := h.write hl _

theorem Known.directLoop {buf : ℕ → Word} (h : Known b w.ftl) (n : ℕ)
    (hl : ∀ pp < n, r.lpn pp < nLpns) : Known b (b.directLoop r buf w n).ftl := by
  induction n with
  | zero => exact h
  | succ pp ih =>
    have hpp := hl pp pp.lt_succ_self
    have hprev := ih fun i hi => hl i (Nat.lt_succ_of_lt hi)
    rw [Build.directLoop, directLoopBy, directPageBy]
    dsimp only
    split_ifs
    · exact ((hprev.load _).absorb _ _).send hpp _ _ _
    · exact ((hprev.load _).absorb _ _).send hpp _ _ _
    · exact (hprev.absorb _ _).send hpp _ _ _

theorem Known.writeDirectlyNand (h : Known b s) {lba nsect : ℕ} (hin : InRange lba nsect)
    (buf : ℕ → Word) : Known b (b.writeDirectlyNand s lba nsect buf) := by
  have hl : ∀ pp < Request.sendKazu ⟨lba, nsect⟩, Request.lpn ⟨lba, nsect⟩ pp < nLpns :=
    fun pp hpp => Request.lpn_lt hin.1 hpp hin.2
  unfold Build.writeDirectlyNand writeDirectlyNandBy
  dsimp only
  split_ifs with hone
  · have h0 := hl 0 Request.sendKazu_pos
    rw [Request.lpn, Nat.zero_add] at h0
    exact ((Known.load (w := ⟨s, 0, s.stack.data⟩) h _).absorb _ _).send h0 _ _ _
  · exact Known.directLoop (w := ⟨s, 0, s.stack.data⟩) h _ hl

end DirectWrites

section Buffer

theorem MarksOk.firstMark (h : MarksOk s) (e : ℤ) : firstMark (s.bufferIsValid e) = -1 ∨
    ∃ lpn < nLpns, firstMark (s.bufferIsValid e) = (lpn : ℕ) := by
  unfold BufferedFtl.firstMark
  cases (List.finRange 8).find? fun k => s.bufferIsValid e k ≠ -1 with
  | none => exact .inl rfl
  | some k => exact h e k

theorem Known.flushEntry (h : Known b s) (n : ℕ) : Known b (b.flushEntry s n) := by
  unfold Build.flushEntry flushEntryBy
  by_cases h0 : BufferedFtl.firstMark (s.bufferIsValid (n : ℕ)) = -1
  · rw [if_pos h0]
    exact h
  · rw [if_neg h0]
    obtain ⟨lpn, hl, he⟩ := (h.2.firstMark (n : ℕ)).resolve_left h0
    have hbank : ((lpn : ℤ) % nBanks).toNat = lpn % nBanks := by
      change ((lpn : ℤ) % (8 : ℕ)).toNat = lpn % 8
      omega
    have hhalved : ((lpn : ℤ) / nBanks).toNat = lpn / nBanks := by
      change ((lpn : ℤ) / (8 : ℕ)).toNat = lpn / 8
      omega
    simp only [he, hbank, hhalved]
    generalize hst : (if (s.row (lpn % nBanks)).l2p (lpn / nBanks) ≠ -1 then _ else _ :
      Ftl × Sectors) = st
    have hknown : Known b st.1 := by
      rw [← hst]
      split_ifs
      · exact h.ftlRead _ _ _
      · exact h
    have hclear : MarksOk { st.1 with
        bufferIsValid := Function.update st.1.bufferIsValid (n : ℕ) fun _ => -1 } :=
      hknown.2.clear (n : ℕ) (fun _ => .inl rfl) st.1.bufferL2p
    have hcleared : Known b { st.1 with
        bufferIsValid := Function.update st.1.bufferIsValid (n : ℕ) fun _ => -1 } :=
      hknown.other rfl rfl rfl hclear
    exact (hcleared.write hl st.2).other rfl rfl rfl hclear

theorem Known.ftlFlush (h : Known b s) : Known b (b.ftlFlush s) := by
  have hloop (n : ℕ) : Known b (b.flushLoop s n) := by
    induction n with
    | zero => exact h
    | succ n ih => exact ih.flushEntry n
  exact hloop nBuffers

variable {w : Buffering} {buf : ℕ → Word}

theorem MarksOk.put (h : MarksOk w.ftl) {lpn : ℕ} (hl : lpn < nLpns) (entry : ℤ) (off n : ℕ) :
    MarksOk (w.put buf entry lpn off n).ftl := by
  intro e k
  change Function.update w.ftl.bufferIsValid entry _ e k = -1 ∨
    ∃ l < nLpns, Function.update w.ftl.bufferIsValid entry _ e k = (l : ℕ)
  by_cases he : e = entry
  · subst he
    rw [Function.update_self, Sectors.patch]
    split_ifs
    · exact .inr ⟨lpn, hl, rfl⟩
    · exact h e k
  · rw [Function.update_of_ne he]
    exact h e k

theorem Known.put (h : Known b w.ftl) {lpn : ℕ} (hl : lpn < nLpns) (entry : ℤ) (off n : ℕ) :
    Known b (w.put buf entry lpn off n).ftl := h.other rfl rfl rfl (h.2.put hl entry off n)

theorem Known.bufferPage (h : Known b w.ftl) {pp : ℕ} (hl : r.lpn pp < nLpns) :
    Known b (bufferPage r buf pp w).ftl := by
  unfold BufferedFtl.bufferPage
  dsimp only
  generalize hlink : (if w.ftl.link (r.lpn pp) = -1 then _ else _ : Buffering) = w'
  have hw : Known b w'.ftl := by
    rw [← hlink]
    split_ifs
    · exact h.other rfl rfl rfl h.2
    · exact h
  split_ifs
  · exact h
  · exact h
  · exact hw.put hl _ _ _
  · exact hw.put hl _ _ _
  · exact hw.put hl _ _ _
  · exact hw.put hl _ _ _

theorem Known.bufferLoop (h : Known b w.ftl) (n : ℕ) (hl : ∀ pp < n, r.lpn pp < nLpns) :
    Known b (bufferLoop r buf w n).ftl := by
  induction n with
  | zero => exact h
  | succ pp ih =>
    exact (ih fun i hi => hl i (Nat.lt_succ_of_lt hi)).bufferPage (hl pp pp.lt_succ_self)

theorem Known.writeToBuffer (h : Known b s) {lba nsect : ℕ} (hin : InRange lba nsect)
    (buf : ℕ → Word) : Known b (b.writeToBuffer s lba nsect buf) := by
  have hpages : Request.lastPageFirstLba ⟨lba, nsect⟩ / 8 + 1 -
      Request.firstPageFirstLba ⟨lba, nsect⟩ / 8 = Request.sendKazu ⟨lba, nsect⟩ := by
    rw [Request.lastPage_div hin.1]
    have := Request.sendKazu_pos (r := ⟨lba, nsect⟩)
    omega
  unfold Build.writeToBuffer writeToBufferBy
  dsimp only
  rw [hpages]
  have hroom : Known b (if neededBufferPageCalculate s (Request.firstPageFirstLba ⟨lba, nsect⟩ / 8)
      (Request.sendKazu ⟨lba, nsect⟩) > usableBufferPageCalculate s then b.ftlFlush s else s) := by
    split_ifs
    · exact h.ftlFlush
    · exact h
  exact Known.bufferLoop (w := ⟨_, 0, false⟩) hroom _
    fun pp hpp => Request.lpn_lt hin.1 hpp hin.2

end Buffer

theorem Known.step (h : Known b s) {op : Op} (hin : op.InRange) (htrim : op.NoTrim) :
    Known b (b.step s op) := by
  have hstack (stack : Page Sectors ℕ) : Known b { s with stack := stack } :=
    h.other rfl rfl rfl h.2
  cases op with
  | read lba nsect buf stack => exact (hstack stack).ftlRead lba nsect buf
  | write lba nsect buf stack =>
    unfold Build.step stepBy ftlWriteBy
    dsimp only
    split_ifs
    · exact ((hstack stack).writeDirectlyNand hin buf).other rfl rfl rfl
        ((hstack stack).writeDirectlyNand hin buf).2
    · exact ((hstack stack).writeToBuffer hin buf).other rfl rfl rfl
        ((hstack stack).writeToBuffer hin buf).2
  | flush stack => exact (hstack stack).ftlFlush
  | trim lpn npage => exact absurd rfl (htrim lpn npage)

/-- Every history of in-range writes, reads and flushes leads to a state reached by page reads and
page writes. -/
theorem reached_run (b : Build) (mem : ℕ → Page Sectors ℕ) (stack : Page Sectors ℕ)
    (outside : ℤ → ℤ) {ops : List Op} (hops : ∀ op ∈ ops, op.InRange ∧ op.NoTrim) :
    ∃ hist, Reached b (fun _ _ => True) hist
      (Machine.run b.step (ftlOpen mem stack outside) ops) := by
  have hopen : Known b (ftlOpen mem stack outside) :=
    ⟨⟨_, .opened mem stack outside⟩, fun _ _ => .inl rfl⟩
  have hrun : Known b (Machine.run b.step (ftlOpen mem stack outside) ops) :=
    Machine.invariant (P := fun _ op => op.InRange ∧ op.NoTrim)
      (fun _ _ h hop => h.step hop.1 hop.2) ops _ hopen
      (Machine.along_of_forall (fun op hop _ => hops op hop) _)
  exact hrun.1

end BufferedFtl
