import Coursework.Mmap.Frame
import Coursework.Lib.Sweep

/-! `exit` up to the zombie state, with a record of the pages it processes and the files it
closes. -/
namespace Mmap

/-- A mapped page that was written back if dirty, freed and taken out of the page table, or
an entry of the file table passed to `fileclose`. -/
inductive Event
  | page (v frame : ℕ) (dirty : Bool)
  | close (fd f : ℕ)
  deriving DecidableEq

/-- Runs a step over a list and collects what each round records. -/
def traced {σ ι ε : Type*} (step : σ → ι → Option (σ × List ε)) :
    List ι → σ → Option (σ × List ε)
  | [], s => some (s, [])
  | i :: is, s => do
    let (s, ev) ← step s i
    let (s, evs) ← traced step is s
    some (s, ev ++ evs)

/-- The write-back of a dirty page: `writei` gets the kernel address minus the region start
as file offset, and its result is added to the offset of the file. -/
def writeBack (r : Region) (s : Sys) (va : ℕ) (e : Pte) : Option Sys :=
  if e.d ∧ 0 < r.fd then
    match r.f with
    | none => none
    | some f => do
      let delta := if pgSize < r.endVa - va then pgSize else r.endVa - va
      let off := uint ((kernBase + e.frame * pgSize : ℕ) - (r.startVa : ℤ))
      let (n, s) ← writei s (s.file f).ip e.frame off delta
      s.setFileOff (uint ((s.file f).off + n)) (some f)
  else some s

/-- One round of the page loop of `exit`. -/
def exitPage (r : Region) (s : Sys) (va : ℕ) : Option (Sys × List Event) :=
  match s.proc.walkpgdir va with
  | none => some (s, [])
  | some e =>
    if e.p then do
      let s ← writeBack r s va e
      let s ← kfree s e.frame
      some (s.setProc (s.proc.setPte va Pte.zero), [.page (vpn va) e.frame e.d])
    else some (s, [])

/-- The addresses `start_va`, `start_va + PGSIZE`, … below `end_va`. -/
def walk (r : Region) : List ℕ :=
  (List.range ((r.endVa - r.startVa + pgSize - 1) / pgSize)).map (r.startVa + · * pgSize)

def Proc.setOfile (p : Proc) (ofile : ℕ → Option ℕ) : Proc := { p with ofile := ofile }

def Proc.setPtes (p : Proc) (pte : ℕ → Pte) : Proc := { p with pte := pte }

/-- One round of the loop that closes the open files. -/
def closeFd (s : Sys) (fd : ℕ) : Option (Sys × List Event) :=
  match s.proc.ofile fd with
  | none => some (s, [])
  | some f => do
    let s ← fileclose s f
    some (s.setProc (s.proc.setOfile (Function.update s.proc.ofile fd none)), [.close fd f])

/-- One round of the region loop of `exit`, which contains the loop over the open files.
The address counter of a region that ends in the last page of the address space wraps. -/
def exitRegion (s : Sys) (i : ℕ) : Option (Sys × List Event) :=
  let r := s.proc.mmArr i
  if r.fd = 0 then some (s, [])
  else do
    let s ← s.setFileOff r.offset r.f
    if 4294967296 ≤ r.startVa + (walk r).length * pgSize then none
    else
      let (s, pages) ← traced (exitPage r) (walk r) s
      let (s, closes) ← traced closeFd (List.range nOfile) s
      some (s.setProc { s.proc.setRegion i { r with fd := 0 } with mmCnt := s.proc.mmCnt - 1 },
        pages ++ closes)

def exit (s : Sys) : Option (Sys × List Event) := do
  let (s, ev) ← traced exitRegion (List.range nRegion) s
  some (s.setProc { s.proc with state := .zombie }, ev)

/-- The frame of a present page and its dirty flag. -/
def Proc.page (p : Proc) (v : ℕ) : Option (ℕ × Bool) :=
  if (p.table (v / 1024)).isSome ∧ (p.pte v).p then some ((p.pte v).frame, (p.pte v).d) else none

def pageEvent (e : ℕ × (ℕ × Bool)) : Event := .page e.1 e.2.1 e.2.2

/-- The `fileclose` calls for an open-file table. -/
def closes (ofile : ℕ → Option ℕ) : List Event :=
  (List.range nOfile).filterMap fun fd => (ofile fd).map (Event.close fd)

/-- The virtual pages the walk over a region visits. -/
def visited (r : Region) : List ℕ := (walk r).map vpn

theorem pdx_eq (va : ℕ) : pdx va = vpn va / 1024 := by
  show va / 4194304 = va / 4096 / 1024
  omega

theorem walkpgdir_present {p : Proc} {va : ℕ} {e : Pte} (h : p.walkpgdir va = some e)
    (he : e.p = true) : p.page (vpn va) = some (e.frame, e.d) := by
  simp only [Proc.walkpgdir, Option.map_eq_some_iff] at h
  obtain ⟨t, ht, rfl⟩ := h
  rw [pdx_eq] at ht
  simp [Proc.page, ht, he]

theorem walkpgdir_absent {p : Proc} {va : ℕ}
    (h : ∀ e, p.walkpgdir va = some e → e.p = false) : p.page (vpn va) = none := by
  simp only [Proc.page]
  rw [if_neg]
  rintro ⟨ht, hp⟩
  obtain ⟨t, ht⟩ := Option.isSome_iff_exists.1 ht
  have := h (p.pte (vpn va)) (by simp [Proc.walkpgdir, pdx_eq, ht])
  rw [hp] at this
  exact Bool.noConfusion this

theorem page_setPte_zero (p : Proc) (va : ℕ) :
    (p.setPte va Pte.zero).page = Function.update p.page (vpn va) none := by
  funext v
  by_cases e : v = vpn va
  · subst e
    simp [Proc.page, Proc.setPte, Pte.zero]
  · simp [Proc.page, Proc.setPte, e]

theorem writei_proc {s s' : Sys} {ip frame off n : ℕ} {r : ℤ}
    (h : writei s ip frame off n = some (r, s')) : s'.proc = s.proc := by
  simp only [writei] at h
  split_ifs at h <;>
  · simp only [Option.some.injEq, Prod.mk.injEq] at h
    obtain ⟨-, rfl⟩ := h
    rfl

theorem kfree_proc {s s' : Sys} {f : ℕ} (h : kfree s f = some s') : s'.proc = s.proc := by
  simp only [kfree] at h
  split_ifs at h
  obtain rfl := Option.some.inj h
  rfl

theorem fileclose_proc {s s' : Sys} {f : ℕ} (h : fileclose s f = some s') :
    s'.proc = s.proc := by
  simp only [fileclose] at h
  split_ifs at h <;>
  · obtain rfl := Option.some.inj h
    rfl

theorem writeBack_proc {r : Region} {s s' : Sys} {va : ℕ} {e : Pte}
    (h : writeBack r s va e = some s') : s'.proc = s.proc := by
  simp only [writeBack] at h
  by_cases hd : e.d = true ∧ 0 < r.fd
  · rw [if_pos hd] at h
    cases hf : r.f with
    | none => simp [hf] at h
    | some f =>
      simp only [hf] at h
      obtain ⟨⟨n, s₁⟩, h1, h⟩ := Option.bind_eq_some_iff.1 h
      rw [setFileOff_proc h, writei_proc h1]
  · rw [if_neg hd] at h
    rw [Option.some.inj h]

/-- What a round of the page loop does to the process. -/
theorem exitPage_spec {r : Region} {s s' : Sys} {va : ℕ} {ev : List Event}
    (h : exitPage r s va = some (s', ev)) :
    (s.proc.page (vpn va) = none ∧ s'.proc = s.proc ∧ ev = []) ∨
    ∃ b, s.proc.page (vpn va) = some b ∧ s'.proc = s.proc.setPte va Pte.zero ∧
      ev = [pageEvent (vpn va, b)] := by
  unfold exitPage at h
  cases hw : s.proc.walkpgdir va with
  | none =>
    simp only [hw, Option.some.injEq, Prod.mk.injEq] at h
    exact Or.inl ⟨walkpgdir_absent (by simp [hw]), by rw [h.1], h.2.symm⟩
  | some e =>
    simp only [hw] at h
    by_cases hp : e.p = true
    · rw [if_pos hp] at h
      obtain ⟨s₁, h1, h⟩ := Option.bind_eq_some_iff.1 h
      obtain ⟨s₂, h2, h⟩ := Option.bind_eq_some_iff.1 h
      simp only [Option.some.injEq, Prod.mk.injEq] at h
      refine Or.inr ⟨(e.frame, e.d), walkpgdir_present hw hp, ?_, h.2.symm⟩
      rw [← h.1]
      show s₂.proc.setPte va Pte.zero = _
      rw [kfree_proc h2, writeBack_proc h1]
    · rw [if_neg hp] at h
      simp only [Option.some.injEq, Prod.mk.injEq] at h
      refine Or.inl ⟨walkpgdir_absent ?_, by rw [h.1], h.2.symm⟩
      intro e' he'
      rw [hw] at he'
      obtain rfl := Option.some.inj he'
      simpa using hp

/-- The page loop takes the present pages of its walk out of the page table, and touches
nothing else of the process. -/
theorem exitPages_spec {r : Region} {vas : List ℕ} {s s' : Sys} {ev : List Event}
    (h : traced (exitPage r) vas s = some (s', ev)) :
    ev = (Sweep.sweep s.proc.page (vas.map vpn)).map pageEvent ∧
      s'.proc.page = Sweep.rest s.proc.page (vas.map vpn) ∧
      ∃ pte, s'.proc = s.proc.setPtes pte ∧
        ∀ v, pte v = s.proc.pte v ∨ pte v = Pte.zero := by
  induction vas generalizing s ev with
  | nil =>
    simp only [traced, Option.some.injEq, Prod.mk.injEq] at h
    obtain ⟨rfl, rfl⟩ := h
    exact ⟨rfl, by simp, _, rfl, fun v => Or.inl rfl⟩
  | cons va vas ih =>
    simp only [traced] at h
    obtain ⟨⟨s₁, ev₁⟩, h1, h⟩ := Option.bind_eq_some_iff.1 h
    obtain ⟨⟨s₂, ev₂⟩, h2, h⟩ := Option.bind_eq_some_iff.1 h
    simp only [Option.some.injEq, Prod.mk.injEq] at h
    obtain ⟨rfl, rfl⟩ := h
    obtain ⟨hev, hrest, pte, hproc, hpte⟩ := ih h2
    obtain ⟨hn, hp, rfl⟩ | ⟨b, hb, hp, rfl⟩ := exitPage_spec h1
    · rw [hp] at hev hrest hproc hpte
      refine ⟨?_, ?_, pte, hproc, hpte⟩
      · simp only [List.map_cons, Sweep.sweep, hn, hev, List.nil_append]
      · rw [hrest, List.map_cons, Sweep.rest_cons_of_none hn]
    · rw [hp] at hev hrest hproc hpte
      rw [page_setPte_zero] at hev hrest
      refine ⟨?_, ?_, pte, hproc, ?_⟩
      · simp only [List.map_cons, Sweep.sweep, hb, hev, List.cons_append, List.nil_append]
      · rw [hrest, List.map_cons, Sweep.rest_update]
      · intro v
        obtain hv | hv := hpte v
        · by_cases e : v = vpn va
          · subst e
            right
            rw [hv]
            simp [Proc.setPte]
          · left
            rw [hv]
            simp [Proc.setPte, e]
        · exact Or.inr hv

/-- The loop over the open files clears the table. -/
theorem closeFds_spec {fds : List ℕ} {s s' : Sys} {ev : List Event} (hnd : fds.Nodup)
    (h : traced closeFd fds s = some (s', ev)) :
    ev = fds.filterMap (fun fd => (s.proc.ofile fd).map (Event.close fd)) ∧
      s'.proc = s.proc.setOfile fun fd => if fd ∈ fds then none else s.proc.ofile fd := by
  induction fds generalizing s ev with
  | nil =>
    simp only [traced, Option.some.injEq, Prod.mk.injEq] at h
    obtain ⟨rfl, rfl⟩ := h
    simp [Proc.setOfile]
  | cons fd fds ih =>
    obtain ⟨hfd, hnd⟩ := List.nodup_cons.1 hnd
    simp only [traced] at h
    obtain ⟨⟨s₁, ev₁⟩, h1, h⟩ := Option.bind_eq_some_iff.1 h
    obtain ⟨⟨s₂, ev₂⟩, h2, h⟩ := Option.bind_eq_some_iff.1 h
    simp only [Option.some.injEq, Prod.mk.injEq] at h
    obtain ⟨rfl, rfl⟩ := h
    obtain ⟨hev, hproc⟩ := ih hnd h2
    have e1 : s₁.proc = s.proc.setOfile (Function.update s.proc.ofile fd none) ∧
        ev₁ = ((s.proc.ofile fd).map (Event.close fd)).toList := by
      unfold closeFd at h1
      cases ho : s.proc.ofile fd with
      | none =>
        simp only [ho, Option.some.injEq, Prod.mk.injEq] at h1
        obtain ⟨rfl, rfl⟩ := h1
        rw [← ho, Function.update_eq_self]
        simp [ho, Proc.setOfile]
      | some f =>
        simp only [ho] at h1
        obtain ⟨s₃, h3, h1⟩ := Option.bind_eq_some_iff.1 h1
        simp only [Option.some.injEq, Prod.mk.injEq] at h1
        obtain ⟨rfl, rfl⟩ := h1
        simp [Sys.setProc, fileclose_proc h3]
    obtain ⟨e1, rfl⟩ := e1
    rw [e1] at hev hproc
    constructor
    · rw [hev, List.filterMap_cons]
      have same : ∀ j ∈ fds, Function.update s.proc.ofile fd none j = s.proc.ofile j := by
        intro j hj
        apply Function.update_of_ne
        rintro rfl
        exact hfd hj
      have tail : (fds.filterMap fun fd' => (Function.update s.proc.ofile fd none fd').map
          (Event.close fd')) = fds.filterMap fun fd' => (s.proc.ofile fd').map (Event.close fd') :=
        List.filterMap_congr fun j hj => by rw [same j hj]
      show _ ++ fds.filterMap (fun fd' => (Function.update s.proc.ofile fd none fd').map
          (Event.close fd')) = _
      rw [tail]
      cases s.proc.ofile fd <;> rfl
    · rw [hproc]
      show s.proc.setOfile _ = _
      congr 1
      funext j
      show (if j ∈ fds then none else Function.update s.proc.ofile fd none j) = _
      by_cases e : j = fd
      · subst e
        simp
      · simp [e]

end Mmap
