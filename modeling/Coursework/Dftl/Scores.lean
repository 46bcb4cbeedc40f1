import Coursework.Dftl.Requests
import Coursework.Lib.Machine

/-! What `show_score` reports of a run, beside what the run did. -/
namespace Dftl
open Nand Sector

section Requests
variable (r : Request)

def readSingleRequests (st : Reading) : List Bool :=
  let bank := r.firstPageFirstLba / 8 % nBanks
  let lpn := r.firstPageFirstLba / 8 / nBanks
  match simBufferL2s (st.ftl.row bank) lpn with
  | some _ => []
  | none => [lpnCached (st.ftl.row bank) lpn]

def readPageRequests (pageOffset : ℕ) (st : Reading) : List Bool :=
  let lpn := (pageOffset + r.firstPageFirstLba / 8) / nBanks
  let bank := (pageOffset + r.firstPageFirstLba / 8) % nBanks
  [lpnCached (st.ftl.row bank) lpn]

def readLoopRequests (st : Reading) : ℕ → List Bool
  | 0 => []
  | n + 1 => readLoopRequests st n ++ readPageRequests r n (readLoop r st n)

/-- The requests of `ftl_read`. -/
def ftlReadRequests (s : Ftl) (lba nsect : ℕ) (buf : ℕ → Word) : List Bool :=
  let r : Request := ⟨lba, nsect⟩
  let s := s.require (nsect > 0)
  let st : Reading := ⟨s, buf, 0, s.stack.data⟩
  if r.sendKazu = 1 then readSingleRequests r st else readLoopRequests r st r.sendKazu

def writeSingleRequests (w : Writing) : List Bool :=
  let lpn := r.firstPageFirstLba / 8 / nBanks
  let bank := r.firstPageFirstLba / 8 % nBanks
  let head := w.data.patch 0 r.firstLbaOffset fun _ => blank
  let pad := head.patch (r.lastLbaOffset + 1) (7 - r.lastLbaOffset) fun _ => blank
  lpnCached (w.ftl.row bank) lpn ::
    writeThroughRequests bank lpn ((w.load bank lpn pad).ftl.bank bank)

def writePageRequests (pageOffset : ℕ) (w : Writing) : List Bool :=
  let lpn := (pageOffset + r.firstPageFirstLba / 8) / nBanks
  let bank := (pageOffset + r.firstPageFirstLba / 8) % nBanks
  let w' :=
    if pageOffset = 0 then
      w.load bank lpn (w.data.patch 0 r.firstLbaOffset fun _ => blank)
    else if pageOffset = r.sendKazu - 1 then
      w.load bank lpn (w.data.patch (r.lastLbaOffset + 1) (7 - r.lastLbaOffset) fun _ => blank)
    else w.loadMiddle bank lpn
  lpnCached (w.ftl.row bank) lpn :: writeThroughRequests bank lpn (w'.ftl.bank bank)

def writeLoopRequests (buf : ℕ → Word) (w : Writing) : ℕ → List Bool
  | 0 => []
  | n + 1 => writeLoopRequests buf w n ++ writePageRequests r n (writeLoop r buf w n)

/-- The requests of `ftl_write`. -/
def ftlWriteRequests (s : Ftl) (lba nsect : ℕ) (buf : ℕ → Word) : List Bool :=
  let r : Request := ⟨lba, nsect⟩
  let w : Writing := ⟨s, 0, s.stack.data⟩
  if r.sendKazu = 1 then writeSingleRequests r w else writeLoopRequests r buf w r.sendKazu

def stepRequests (s : Ftl) : Op → List Bool
  | .read lba nsect buf stack => ftlReadRequests { s with stack := stack } lba nsect buf
  | .write lba nsect buf stack => ftlWriteRequests { s with stack := stack } lba nsect buf

def runRequests : Ftl → List Op → List Bool
  | _, [] => []
  | s, op :: ops => stepRequests s op ++ runRequests (step s op) ops

end Requests

/-- The pages in the write amplification that `show_score` prints. -/
def Stats.wafPages (t : Stats) : ℕ := t.nandWrite + t.gcWrite + t.mapGcWrite + t.mapGcWrite

/-- What the statistics stand for: each programmed page once, and each request once, as a hit if
and only if its translation page was cached. -/
structure Truthful (s : Ftl) (requests : List Bool) : Prop where
  waf : s.stats.wafPages = s.trace.placed.length
  searches : s.stats.cmtHit + s.stats.cmtMiss = requests.length
  hits : s.stats.cmtHit = requests.count true

section Metering
variable {bank lpn off n : ℕ} {r : Request} {st : Reading} {w : Writing} {buf : ℕ → Word}

theorem Ftl.lpn2ppn_metered (s : Ftl) (bank lpn : ℕ) :
    Metered s.toShared (s.lpn2ppn bank lpn).2.toShared [lpnCached (s.row bank) lpn] 0 :=
  Dftl.lpn2ppn_metered lpn (s.bank bank)

theorem Reading.miss_metered (st : Reading) (bank : ℕ) (ppn : ℤ) (off n : ℕ) :
    Metered st.ftl.toShared (st.miss bank ppn off n).ftl.toShared [] 0 := by
  unfold Reading.miss
  simp only
  split_ifs
  · exact metered_of_eq rfl rfl rfl rfl rfl
  · exact metered_of_eq rfl rfl rfl rfl rfl

theorem readSectors_metered (bank lpn off n : ℕ) (st : Reading) :
    Metered st.ftl.toShared (readSectors bank lpn off n st).ftl.toShared
      [lpnCached (st.ftl.row bank) lpn] 0 := by
  have hlook := st.ftl.lpn2ppn_metered bank lpn
  unfold readSectors
  simp only
  set st' : Reading := { st with ftl := (st.ftl.lpn2ppn bank lpn).2 } with hst
  split
  · exact hlook.before (metered_of_eq rfl rfl rfl rfl rfl)
  · exact hlook.before (st'.miss_metered _ _ _ _)

theorem readPage_metered (r : Request) (pageOffset : ℕ) (st : Reading) :
    Metered st.ftl.toShared (readPage r pageOffset st).ftl.toShared
      (readPageRequests r pageOffset st) 0 := by
  unfold readPage
  simp only
  split_ifs
  · exact readSectors_metered _ _ _ _ st
  · exact readSectors_metered _ _ _ _ st
  · exact readSectors_metered _ _ _ _ st

theorem readLoop_metered (r : Request) (st : Reading) (n : ℕ) :
    Metered st.ftl.toShared (readLoop r st n).ftl.toShared (readLoopRequests r st n) 0 := by
  induction n with
  | zero => exact Metered.refl _
  | succ n ih => exact ih.trans (readPage_metered r n _)

theorem readSingle_metered (r : Request) (st : Reading) :
    Metered st.ftl.toShared (readSingle r st).ftl.toShared (readSingleRequests r st) 0 := by
  unfold readSingle readSingleRequests
  simp only
  set bank := r.firstPageFirstLba / 8 % nBanks with hbank
  set lpn := r.firstPageFirstLba / 8 / nBanks with hlpn
  cases simBufferL2s (st.ftl.row bank) lpn with
  | some slot => exact metered_of_eq rfl rfl rfl rfl rfl
  | none =>
    set st' : Reading := { st with ftl := (st.ftl.lpn2ppn bank lpn).2 } with hst
    exact (st.ftl.lpn2ppn_metered _ _).before (st'.miss_metered _ _ _ _)

theorem ftlRead_metered (s : Ftl) (lba nsect : ℕ) (buf : ℕ → Word) :
    Metered s.toShared (ftlRead s lba nsect buf).1.toShared
      (ftlReadRequests s lba nsect buf) 0 := by
  have hrequire : Metered s.toShared (s.require (nsect > 0)).toShared [] 0 :=
    metered_of_eq rfl rfl rfl rfl rfl
  unfold ftlRead ftlReadRequests
  simp only
  set st : Reading := ⟨s.require (nsect > 0), buf, 0, (s.require (nsect > 0)).stack.data⟩ with hst
  split_ifs
  · exact hrequire.after (readSingle_metered _ st)
  · exact hrequire.after (readLoop_metered _ st _)

theorem Writing.load_metered (w : Writing) (bank lpn : ℕ) (pad : Sectors) :
    Metered w.ftl.toShared (w.load bank lpn pad).ftl.toShared
      [lpnCached (w.ftl.row bank) lpn] 0 := by
  have hlook := w.ftl.lpn2ppn_metered bank lpn
  unfold Writing.load
  simp only
  split
  · exact hlook
  · split_ifs
    · exact hlook
    · exact hlook.before (metered_of_eq rfl rfl rfl rfl rfl)

theorem Writing.loadMiddle_metered (w : Writing) (bank lpn : ℕ) :
    Metered w.ftl.toShared (w.loadMiddle bank lpn).ftl.toShared
      [lpnCached (w.ftl.row bank) lpn] 0 := by
  have hlook := w.ftl.lpn2ppn_metered bank lpn
  unfold Writing.loadMiddle
  simp only
  cases simBufferL2s ((w.ftl.lpn2ppn bank lpn).2.row bank) lpn with
  | some slot =>
    simp only
    split_ifs
    · exact hlook
    · exact hlook.before (metered_of_eq rfl rfl rfl rfl rfl)
  | none =>
    simp only
    split_ifs
    · exact hlook
    · exact hlook.before (metered_of_eq rfl rfl rfl rfl rfl)

theorem Writing.send_metered (w : Writing) (buf : ℕ → Word) (bank lpn off n : ℕ) :
    Metered w.ftl.toShared (w.send buf bank lpn off n).ftl.toShared
      (writeThroughRequests bank lpn (w.ftl.bank bank)) 0 :=
  writeThroughLpn_metered lpn _ (w.ftl.bank bank)

theorem writePage_metered (r : Request) (buf : ℕ → Word) (pageOffset : ℕ) (w : Writing) :
    Metered w.ftl.toShared (writePage r buf pageOffset w).ftl.toShared
      (writePageRequests r pageOffset w) 0 := by
  unfold writePage writePageRequests
  simp only
  split_ifs
  · exact (w.load_metered _ _ _).trans (Writing.send_metered _ _ _ _ _ _)
  · exact (w.load_metered _ _ _).trans (Writing.send_metered _ _ _ _ _ _)
  · exact (w.loadMiddle_metered _ _).trans (Writing.send_metered _ _ _ _ _ _)

theorem writeLoop_metered (r : Request) (buf : ℕ → Word) (w : Writing) (n : ℕ) :
    Metered w.ftl.toShared (writeLoop r buf w n).ftl.toShared (writeLoopRequests r buf w n) 0 := by
  induction n with
  | zero => exact Metered.refl _
  | succ n ih => exact ih.trans (writePage_metered r buf n _)

theorem writeSingle_metered (r : Request) (buf : ℕ → Word) (w : Writing) :
    Metered w.ftl.toShared (writeSingle r buf w).ftl.toShared (writeSingleRequests r w) 0 :=
  (w.load_metered _ _ _).trans (Writing.send_metered _ _ _ _ _ _)

theorem ftlWrite_metered (s : Ftl) (lba nsect : ℕ) (buf : ℕ → Word) :
    Metered s.toShared (ftlWrite s lba nsect buf).toShared
      (ftlWriteRequests s lba nsect buf) 0 := by
  have hcount : ∀ x : Ftl, Metered x.toShared (x.count fun t =>
      { t with hostWrite := t.hostWrite + nsect }).toShared [] 0 :=
    fun _ => metered_of_eq rfl rfl rfl rfl rfl
  unfold ftlWrite ftlWriteRequests
  simp only
  set w : Writing := ⟨s, 0, s.stack.data⟩ with hw
  split_ifs
  · exact (writeSingle_metered _ _ w).before (hcount _)
  · exact (writeLoop_metered _ _ w _).before (hcount _)

theorem step_metered (s : Ftl) (op : Op) :
    Metered s.toShared (step s op).toShared (stepRequests s op) 0 := by
  cases op with
  | read lba nsect buf stack =>
    have hstack : Metered s.toShared { s.toShared with stack := stack } [] 0 :=
      metered_of_eq rfl rfl rfl rfl rfl
    exact hstack.after (ftlRead_metered { s with stack := stack } lba nsect buf)
  | write lba nsect buf stack =>
    have hstack : Metered s.toShared { s.toShared with stack := stack } [] 0 :=
      metered_of_eq rfl rfl rfl rfl rfl
    exact hstack.after (ftlWrite_metered { s with stack := stack } lba nsect buf)

theorem run_metered (s : Ftl) (ops : List Op) :
    Metered s.toShared (Machine.run step s ops).toShared (runRequests s ops) 0 := by
  induction ops generalizing s with
  | nil => exact Metered.refl _
  | cons op ops ih => exact (step_metered s op).trans (ih (step s op))

end Metering

section FirstRequest
variable {r : Request} {s : Ftl}

theorem lpnCached_eq_false {x : Row} (h : ∀ slot, x.cmtVpn slot = -1) (lpn : ℕ) :
    lpnCached x lpn = false := by
  have hnone : slotOf x (lpn2vpn lpn) = none := Slots.find_eq_none.2 fun slot _ hslot => by
    rw [h] at hslot
    omega
  rw [lpnCached, hnone]
  rfl

theorem readLoopRequests_head (r : Request) (st : Reading) (n : ℕ) :
    ∃ rest, readLoopRequests r st (n + 1) = readPageRequests r 0 st ++ rest := by
  induction n with
  | zero => exact ⟨[], (List.append_nil _).symm⟩
  | succ n ih =>
    obtain ⟨rest, hrest⟩ := ih
    exact ⟨_, by rw [readLoopRequests, hrest, List.append_assoc]⟩

theorem writeLoopRequests_head (r : Request) (buf : ℕ → Word) (w : Writing) (n : ℕ) :
    ∃ rest, writeLoopRequests r buf w (n + 1) = writePageRequests r 0 w ++ rest := by
  induction n with
  | zero => exact ⟨[], (List.append_nil _).symm⟩
  | succ n ih =>
    obtain ⟨rest, hrest⟩ := ih
    exact ⟨_, by rw [writeLoopRequests, hrest, List.append_assoc]⟩

/-- The first request of a call misses. -/
theorem ftlReadRequests_head (hcold : ∀ b slot, (s.row b).cmtVpn slot = -1)
    (hbuf : ∀ b slot, (s.row b).bufferS2l slot = -1) (lba nsect : ℕ) (buf : ℕ → Word) :
    ∃ rest, ftlReadRequests s lba nsect buf = false :: rest := by
  set r : Request := ⟨lba, nsect⟩ with hr
  set st : Reading := ⟨s.require (nsect > 0), buf, 0, (s.require (nsect > 0)).stack.data⟩ with hst
  have hmiss : ∀ b lpn, lpnCached (st.ftl.row b) lpn = false :=
    fun b lpn => lpnCached_eq_false (hcold b) lpn
  change ∃ rest, (if r.sendKazu = 1 then readSingleRequests r st
    else readLoopRequests r st r.sendKazu) = false :: rest
  split_ifs
  · have hunbuffered : ∀ b (lpn : ℕ), simBufferL2s (st.ftl.row b) lpn = none := fun b lpn =>
      Slots.find_eq_none.2 fun slot _ hslot => by
        rw [show (st.ftl.row b).bufferS2l slot = -1 from hbuf b slot] at hslot
        omega
    refine ⟨[], ?_⟩
    unfold readSingleRequests
    simp only [hunbuffered, hmiss]
  · obtain ⟨n, hn⟩ := Nat.exists_eq_succ_of_ne_zero (Request.sendKazu_pos (r := r)).ne'
    obtain ⟨rest, hrest⟩ := readLoopRequests_head r st n
    refine ⟨rest, ?_⟩
    rw [hn, hrest, readPageRequests, hmiss]
    rfl

theorem ftlWriteRequests_head (hcold : ∀ b slot, (s.row b).cmtVpn slot = -1) (lba nsect : ℕ)
    (buf : ℕ → Word) : ∃ rest, ftlWriteRequests s lba nsect buf = false :: rest := by
  set r : Request := ⟨lba, nsect⟩ with hr
  set w : Writing := ⟨s, 0, s.stack.data⟩ with hw
  have hmiss : ∀ b lpn, lpnCached (w.ftl.row b) lpn = false :=
    fun b lpn => lpnCached_eq_false (hcold b) lpn
  change ∃ rest, (if r.sendKazu = 1 then writeSingleRequests r w
    else writeLoopRequests r buf w r.sendKazu) = false :: rest
  split_ifs
  · rw [writeSingleRequests, hmiss]
    exact ⟨_, rfl⟩
  · obtain ⟨n, hn⟩ := Nat.exists_eq_succ_of_ne_zero (Request.sendKazu_pos (r := r)).ne'
    obtain ⟨rest, hrest⟩ := writeLoopRequests_head r buf w n
    rw [hn, hrest, writePageRequests, hmiss]
    exact ⟨_, rfl⟩

end FirstRequest

section Runs
variable {mem : ℕ → Page Sectors ℤ} {stack : Page Sectors ℤ} {dataVictims slotVictims : ℕ → ℕ}

theorem runRequests_head {ops : List Op} (hne : ops ≠ []) :
    ∃ rest, runRequests (ftlOpen mem stack dataVictims slotVictims) ops = false :: rest := by
  cases ops with
  | nil => exact absurd rfl hne
  | cons op ops =>
    have hstep : ∃ rest,
        stepRequests (ftlOpen mem stack dataVictims slotVictims) op = false :: rest := by
      cases op with
      | read lba nsect buf stack =>
        exact ftlReadRequests_head (fun _ _ => rfl) (fun _ _ => rfl) lba nsect buf
      | write lba nsect buf stack => exact ftlWriteRequests_head (fun _ _ => rfl) lba nsect buf
    obtain ⟨rest, hrest⟩ := hstep
    exact ⟨_, by rw [runRequests, hrest, List.cons_append]⟩

theorem Metered.counters {t : Shared} {reqs : List Bool}
    (h : Metered (ftlOpen mem stack dataVictims slotVictims).toShared t reqs 0) :
    t.stats.programs = t.trace.placed.length ∧
      t.stats.cmtHit + t.stats.cmtMiss =
        reqs.length + reqs.count false + t.stats.mapGcWrite := by
  obtain ⟨hprograms, hsearches, -, -⟩ := h
  simp only [ftlOpen, Stats.programs, List.length_nil] at hprograms hsearches
  unfold Stats.programs
  omega

/-- The statistics are what they stand for in no run with a call. A request that misses is also
counted as a hit, the write amplification counts the copies of map GC twice and no write-back of a
map page, and map GC searches the CMT as well. -/
theorem truthful_iff (mem : ℕ → Page Sectors ℤ) (stack : Page Sectors ℤ)
    (dataVictims slotVictims : ℕ → ℕ) (ops : List Op) :
    let s := Machine.run step (ftlOpen mem stack dataVictims slotVictims) ops
    let requests := runRequests (ftlOpen mem stack dataVictims slotVictims) ops
    (Truthful s requests ↔ ops = []) ∧
      (s.stats.wafPages = s.trace.placed.length ↔ s.stats.mapWrite = s.stats.mapGcWrite) ∧
      s.stats.cmtHit + s.stats.cmtMiss =
        requests.length + requests.count false + s.stats.mapGcWrite := by
  intro s requests
  obtain ⟨hprograms, hsearches⟩ :=
    (run_metered (ftlOpen mem stack dataVictims slotVictims) ops).counters
  refine ⟨⟨fun h => ?_, ?_⟩, ?_, hsearches⟩
  · by_contra hne
    obtain ⟨rest, hrest⟩ := @runRequests_head mem stack dataVictims slotVictims ops hne
    have hcount : 0 < requests.count false := by
      rw [List.count_pos_iff, show requests = false :: rest from hrest]
      exact List.mem_cons_self
    have hexact := h.searches
    have htotal : s.stats.cmtHit + s.stats.cmtMiss =
      requests.length + requests.count false + s.stats.mapGcWrite := hsearches
    omega
  · intro hnil
    have hs : s = ftlOpen mem stack dataVictims slotVictims := by
      simp only [s, hnil, Machine.run_nil]
    have hrequests : requests = [] := by
      simp only [requests, hnil, runRequests]
    rw [hs, hrequests]
    exact ⟨rfl, rfl, rfl⟩
  · have htotal : s.stats.programs = s.trace.placed.length := hprograms
    rw [← htotal]
    unfold Stats.wafPages Stats.programs
    omega

/-- One read of one page makes one request, and one miss and one hit are counted. -/
theorem truthful_fails : ¬∀ (mem : ℕ → Page Sectors ℤ) (stack : Page Sectors ℤ)
    (dataVictims slotVictims : ℕ → ℕ) (ops : List Op), (∀ op ∈ ops, op.InRange) →
      Truthful (Machine.run step (ftlOpen mem stack dataVictims slotVictims) ops)
        (runRequests (ftlOpen mem stack dataVictims slotVictims) ops) := by
  intro h
  set x := ftlOpen (fun _ => ⟨fun _ => 0, 0⟩) ⟨fun _ => 0, 0⟩ (fun _ => 0) (fun _ => 0) with hx
  set op : Op := .read 0 8 (fun _ => 0) ⟨fun _ => 0, 0⟩ with hop
  have hin : ∀ o ∈ [op], o.InRange := by
    intro o ho
    rw [List.mem_singleton.1 ho]
    exact ⟨by decide, by decide⟩
  have hhit : (Machine.run step x [op]).stats.cmtHit = 1 := by rfl
  have hmiss : (Machine.run step x [op]).stats.cmtMiss = 1 := by rfl
  have hrequests : runRequests x [op] = [false] := by rfl
  have hsearches := (h _ _ _ _ _ hin : Truthful (Machine.run step x [op]) _).searches
  rw [hhit, hmiss, hrequests] at hsearches
  cases hsearches

end Runs

end Dftl
