import Coursework.Mmap.Exit

/-! What `exit` releases: files, region slots and frames, and in which order. -/
namespace Mmap

/-- The open-file table after the loop over the open files. -/
def cleared (ofile : ℕ → Option ℕ) : ℕ → Option ℕ :=
  fun fd => if fd < nOfile then none else ofile fd

@[simp] theorem closes_cleared (ofile : ℕ → Option ℕ) : closes (cleared ofile) = [] := by
  apply List.filterMap_eq_nil_iff.2
  intro fd hfd
  have : fd < nOfile := List.mem_range.1 hfd
  simp [cleared, this]

/-- The pages that the walks over a list of regions visit. -/
def visitedAll (rs : List Region) : List ℕ := rs.flatMap visited

/-- The events of the region loop over the recorded regions, in order. -/
def exitEvents (page : ℕ → Option (ℕ × Bool)) (ofile : ℕ → Option ℕ) : List Region → List Event
  | [] => []
  | r :: rs =>
    (Sweep.sweep page (visited r)).map pageEvent ++ closes ofile ++
      (Sweep.sweep (Sweep.rest page (visited r)) (visitedAll rs)).map pageEvent

/-- The recorded regions among some slots. -/
def recorded (p : Proc) (slots : List ℕ) : List Region :=
  (slots.filter fun i => (p.mmArr i).fd ≠ 0).map p.mmArr

/-- What a round of the region loop does for a recorded region. -/
theorem exitRegion_spec {s s' : Sys} {i : ℕ} {ev : List Event} (hf : (s.proc.mmArr i).fd ≠ 0)
    (h : exitRegion s i = some (s', ev)) :
    ev = (Sweep.sweep s.proc.page (visited (s.proc.mmArr i))).map pageEvent ++
        closes s.proc.ofile ∧
      s'.proc.page = Sweep.rest s.proc.page (visited (s.proc.mmArr i)) ∧
      s'.proc.ofile = cleared s.proc.ofile ∧
      s'.proc.mmArr = Function.update s.proc.mmArr i { s.proc.mmArr i with fd := 0 } ∧
      s'.proc.table = s.proc.table ∧
      ∀ v, s'.proc.pte v = s.proc.pte v ∨ s'.proc.pte v = Pte.zero := by
  simp only [exitRegion] at h
  rw [if_neg hf] at h
  obtain ⟨s₁, h1, h⟩ := Option.bind_eq_some_iff.1 h
  split_ifs at h
  obtain ⟨⟨s₂, pages⟩, h2, h⟩ := Option.bind_eq_some_iff.1 h
  obtain ⟨⟨s₃, cl⟩, h3, h⟩ := Option.bind_eq_some_iff.1 h
  simp only [Option.some.injEq, Prod.mk.injEq] at h
  obtain ⟨rfl, rfl⟩ := h
  obtain ⟨hev, hpage, pte, hproc, hpte⟩ := exitPages_spec h2
  obtain ⟨hcl, hproc₃⟩ := closeFds_spec List.nodup_range h3
  rw [setFileOff_proc h1] at hev hpage hproc hpte
  have hofile : (fun fd => if fd ∈ List.range nOfile then none else s.proc.ofile fd) =
      cleared s.proc.ofile := by
    funext fd
    simp [cleared]
  rw [hproc] at hproc₃ hcl
  refine ⟨by rw [hev, hcl]; rfl, ?_, ?_, ?_, ?_, ?_⟩
  · show s₃.proc.page = _
    rw [← show (visited (s.proc.mmArr i)) = (walk (s.proc.mmArr i)).map vpn from rfl] at hpage
    rw [← hpage, hproc₃, hproc]
    rfl
  · show s₃.proc.ofile = _
    rw [hproc₃, ← hofile]
    rfl
  · show Function.update s₃.proc.mmArr i _ = _
    rw [hproc₃]
    rfl
  · show s₃.proc.table = _
    rw [hproc₃]
    rfl
  · show ∀ v, s₃.proc.pte v = _ ∨ _
    rw [hproc₃]
    exact hpte

/-- The region loop over distinct slots. -/
theorem exitRegions_spec {slots : List ℕ} (hnd : slots.Nodup) {s s' : Sys} {ev : List Event}
    (h : traced exitRegion slots s = some (s', ev)) :
    ev = exitEvents s.proc.page s.proc.ofile (recorded s.proc slots) ∧
      s'.proc.page = Sweep.rest s.proc.page (visitedAll (recorded s.proc slots)) ∧
      s'.proc.ofile = (if recorded s.proc slots = [] then s.proc.ofile
        else cleared s.proc.ofile) ∧
      (∀ i ∈ slots, (s'.proc.mmArr i).fd = 0) ∧
      (∀ i ∉ slots, s'.proc.mmArr i = s.proc.mmArr i) ∧
      s'.proc.table = s.proc.table ∧
      ∀ v, s'.proc.pte v = s.proc.pte v ∨ s'.proc.pte v = Pte.zero := by
  induction slots generalizing s ev with
  | nil =>
    simp only [traced, Option.some.injEq, Prod.mk.injEq] at h
    obtain ⟨rfl, rfl⟩ := h
    simp [recorded, exitEvents, visitedAll]
  | cons i slots ih =>
    obtain ⟨hi, hnd⟩ := List.nodup_cons.1 hnd
    simp only [traced] at h
    obtain ⟨⟨s₁, ev₁⟩, h1, h⟩ := Option.bind_eq_some_iff.1 h
    obtain ⟨⟨s₂, ev₂⟩, h2, h⟩ := Option.bind_eq_some_iff.1 h
    simp only [Option.some.injEq, Prod.mk.injEq] at h
    obtain ⟨rfl, rfl⟩ := h
    obtain ⟨hev, hpage, hofile, hfree, hsame, htable, hpte⟩ := ih hnd h2
    by_cases hf : (s.proc.mmArr i).fd = 0
    · -- a free slot is skipped
      have e : s₁ = s ∧ ev₁ = [] := by
        simp only [exitRegion, if_pos hf, Option.some.injEq, Prod.mk.injEq] at h1
        exact ⟨h1.1.symm, h1.2.symm⟩
      obtain ⟨rfl, rfl⟩ := e
      have hrec : recorded s₁.proc (i :: slots) = recorded s₁.proc slots := by
        simp [recorded, hf]
      rw [hrec]
      refine ⟨hev, hpage, hofile, ?_, ?_, htable, hpte⟩
      · intro j hj
        obtain rfl | hj := List.mem_cons.1 hj
        · rw [hsame j hi]
          exact hf
        · exact hfree j hj
      · intro j hj
        exact hsame j fun hj' => hj (List.mem_cons_of_mem i hj')
    · obtain ⟨rfl, hpage₁, hofile₁, harr₁, htable₁, hpte₁⟩ := exitRegion_spec hf h1
      have hother : ∀ j ∈ slots, s₁.proc.mmArr j = s.proc.mmArr j := by
        intro j hj
        rw [harr₁]
        apply Function.update_of_ne
        rintro rfl
        exact hi hj
      have hrest : recorded s₁.proc slots = recorded s.proc slots := by
        simp only [recorded]
        rw [List.filter_congr fun j hj => by rw [hother j hj]]
        apply List.map_congr_left
        intro j hj
        exact hother j (List.mem_filter.1 hj).1
      have hrec : recorded s.proc (i :: slots) = s.proc.mmArr i :: recorded s.proc slots := by
        simp [recorded, hf]
      rw [hrest, hpage₁, hofile₁] at hev
      rw [hrest, hpage₁, Sweep.rest_rest] at hpage
      rw [hrest, hofile₁] at hofile
      rw [hrec]
      refine ⟨?_, ?_, ?_, ?_, ?_, htable.trans htable₁, ?_⟩
      · -- the files are closed after the first region, so the later rounds only free pages
        rw [hev, exitEvents]
        congr 1
        generalize recorded s.proc slots = rs
        cases rs with
        | nil => simp [exitEvents, visitedAll, Sweep.sweep]
        | cons r rs =>
          simp only [exitEvents, closes_cleared, List.append_nil]
          rw [← List.map_append, ← Sweep.sweep_append]
          rfl
      · exact hpage
      · rw [hofile, if_neg (List.cons_ne_nil _ _)]
        split_ifs
        · rfl
        · funext fd
          by_cases hfd : fd < nOfile <;> simp [cleared, hfd]
      · intro j hj
        obtain rfl | hj := List.mem_cons.1 hj
        · rw [hsame j hi, harr₁, Function.update_self]
        · exact hfree j hj
      · intro j hj
        rw [hsame j fun hj' => hj (List.mem_cons_of_mem i hj'), harr₁]
        apply Function.update_of_ne
        rintro rfl
        exact hj List.mem_cons_self
      · intro v
        obtain hv | hv := hpte v
        · rw [hv]
          exact hpte₁ v
        · exact Or.inr hv

/-- The virtual page holds an address of the region. -/
def Region.Meets (r : Region) (v : ℕ) : Prop := ∃ x, r.startVa ≤ x ∧ x < r.endVa ∧ vpn x = v

/-- The event frees the frame. -/
def Event.frees (frame : ℕ) : Event → Bool
  | .page _ f _ => f = frame
  | .close _ _ => false

/-- What should hold between the state before `exit` and the zombie state. -/
structure Released (s s' : Sys) (ev : List Event) : Prop where
  files : ∀ fd < nOfile, ∀ f, s.proc.ofile fd = some f →
    ev.count (.close fd f) = 1 ∧ s'.proc.ofile fd = none
  slots : ∀ i < nRegion, (s'.proc.mmArr i).fd = 0
  frames : ∀ i < nRegion, (s.proc.mmArr i).fd ≠ 0 → ∀ v, (s.proc.mmArr i).Meets v →
    ∀ frame d, s.proc.page v = some (frame, d) →
      (ev.filter (Event.frees frame)).length = 1 ∧ s'.proc.pte v = Pte.zero
  order : ∀ i < nRegion, (s.proc.mmArr i).fd ≠ 0 → ∀ f, (s.proc.mmArr i).f = some f →
    ∀ fd < nOfile, s.proc.ofile fd = some f → ∀ v, (s.proc.mmArr i).Meets v →
    ∀ frame, s.proc.page v = some (frame, true) →
    ∀ pre post, ev = pre ++ .close fd f :: post → .page v frame true ∈ pre

/-- The first recorded region. -/
def firstRegion (p : Proc) : Option ℕ := (List.range nRegion).find? fun i => (p.mmArr i).fd ≠ 0

/-- The page is on the walk over some recorded region. -/
def Proc.Walked (p : Proc) (v : ℕ) : Prop :=
  ∃ i < nRegion, (p.mmArr i).fd ≠ 0 ∧ v ∈ visited (p.mmArr i)

/-- When `exit` releases everything in order: it has a region or no open file, its walks
reach every present page of a region, no two of these pages share a frame, and every dirty
page of a region whose file is open is on the walk over the first region. -/
structure Tidy (s : Sys) : Prop where
  mapped : (∀ fd < nOfile, s.proc.ofile fd = none) ∨ ∃ i < nRegion, (s.proc.mmArr i).fd ≠ 0
  walked : ∀ i < nRegion, (s.proc.mmArr i).fd ≠ 0 → ∀ v, (s.proc.mmArr i).Meets v →
    s.proc.page v ≠ none → s.proc.Walked v
  distinct : ∀ v v', s.proc.Walked v → s.proc.Walked v' → ∀ frame d d',
    s.proc.page v = some (frame, d) → s.proc.page v' = some (frame, d') → v = v'
  first : ∀ i < nRegion, (s.proc.mmArr i).fd ≠ 0 → ∀ f, (s.proc.mmArr i).f = some f →
    ∀ fd < nOfile, s.proc.ofile fd = some f → ∀ v, (s.proc.mmArr i).Meets v →
    ∀ frame, s.proc.page v = some (frame, true) →
    ∃ j, firstRegion s.proc = some j ∧ v ∈ visited (s.proc.mmArr j)

theorem meets_of_mem_visited {r : Region} {v : ℕ} (h : v ∈ visited r) : r.Meets v := by
  obtain ⟨x, hx, rfl⟩ := List.mem_map.1 h
  obtain ⟨k, hk, rfl⟩ := List.mem_map.1 hx
  have hk : k < (r.endVa - r.startVa + 4096 - 1) / 4096 := List.mem_range.1 hk
  exact ⟨r.startVa + k * pgSize, by omega, by show r.startVa + k * 4096 < r.endVa; omega, rfl⟩

theorem mem_visitedAll {p : Proc} {v : ℕ} :
    v ∈ visitedAll (recorded p (List.range nRegion)) ↔ p.Walked v := by
  simp only [visitedAll, recorded, List.mem_flatMap, List.mem_map, List.mem_filter,
    List.mem_range, decide_eq_true_eq, Proc.Walked]
  constructor
  · rintro ⟨r, ⟨i, ⟨hi, hf⟩, rfl⟩, hv⟩
    exact ⟨i, hi, hf, hv⟩
  · rintro ⟨i, hi, hf, hv⟩
    exact ⟨_, ⟨i, ⟨hi, hf⟩, rfl⟩, hv⟩

theorem recorded_eq_nil {p : Proc} :
    recorded p (List.range nRegion) = [] ↔ ∀ i < nRegion, (p.mmArr i).fd = 0 := by
  simp [recorded]

theorem recorded_eq_cons {p : Proc} {r : Region} {rs : List Region}
    (h : recorded p (List.range nRegion) = r :: rs) :
    ∃ j, firstRegion p = some j ∧ p.mmArr j = r := by
  obtain ⟨j, l, hl, hj, -⟩ := List.map_eq_cons_iff.1 h
  refine ⟨j, ?_, hj⟩
  show (List.range nRegion).find? _ = _
  rw [← List.head?_filter, hl]
  rfl

theorem count_closes (ofile : ℕ → Option ℕ) {fd f : ℕ} (hfd : fd < nOfile)
    (h : ofile fd = some f) : (closes ofile).count (.close fd f) = 1 := by
  apply List.count_eq_one_of_mem
  · apply List.nodup_range.filterMap
    intro i j e hi hj
    obtain ⟨f, -, rfl⟩ := Option.map_eq_some_iff.1 hi
    obtain ⟨f', -, hj⟩ := Option.map_eq_some_iff.1 hj
    rw [Event.close.injEq] at hj
    exact hj.1.symm
  · exact List.mem_filterMap.2 ⟨fd, List.mem_range.2 hfd, by simp [h]⟩

theorem close_not_mem_pages {l : List (ℕ × (ℕ × Bool))} {fd f : ℕ} :
    Event.close fd f ∉ l.map pageEvent := by
  simp [pageEvent]

theorem page_not_mem_closes {ofile : ℕ → Option ℕ} {v frame : ℕ} {d : Bool} :
    Event.page v frame d ∉ closes ofile := by
  simp [closes]

theorem page_mem_sweep {m : ℕ → Option (ℕ × Bool)} {ks : List ℕ} {v frame : ℕ} {d : Bool} :
    Event.page v frame d ∈ (Sweep.sweep m ks).map pageEvent ↔ v ∈ ks ∧ m v = some (frame, d) := by
  rw [← Sweep.mem_sweep]
  constructor
  · intro h
    obtain ⟨⟨k, b⟩, hk, he⟩ := List.mem_map.1 h
    simp only [pageEvent, Event.page.injEq] at he
    obtain ⟨rfl, rfl, rfl⟩ := he
    exact hk
  · intro h
    exact List.mem_map.2 ⟨_, h, rfl⟩

/-- The frames freed are those of one pass over all walks. -/
theorem filter_exitEvents (page : ℕ → Option (ℕ × Bool)) (ofile : ℕ → Option ℕ)
    (rs : List Region) (frame : ℕ) :
    ((exitEvents page ofile rs).filter (Event.frees frame)).length =
      ((Sweep.sweep page (visitedAll rs)).filter fun e => e.2.1 = frame).length := by
  have pages : ∀ l : List (ℕ × (ℕ × Bool)), ((l.map pageEvent).filter (Event.frees frame)).length
      = (l.filter fun e => e.2.1 = frame).length := by
    intro l
    rw [List.filter_map, List.length_map]
    rfl
  have none : (closes ofile).filter (Event.frees frame) = [] := by
    rw [List.filter_eq_nil_iff]
    intro e he
    obtain ⟨fd, -, h⟩ := List.mem_filterMap.1 he
    obtain ⟨f, -, rfl⟩ := Option.map_eq_some_iff.1 h
    simp [Event.frees]
  cases rs with
  | nil => rfl
  | cons r rs =>
    have e : visitedAll (r :: rs) = visited r ++ visitedAll rs := rfl
    rw [exitEvents, List.filter_append, List.filter_append, none, List.append_nil,
      List.length_append, pages, pages, e, Sweep.sweep_append, List.filter_append,
      List.length_append]

theorem freed_once {p : Proc} {frame : ℕ} :
    ((exitEvents p.page p.ofile (recorded p (List.range nRegion))).filter
      (Event.frees frame)).length = 1 ↔
    ∃ v d, p.Walked v ∧ p.page v = some (frame, d) ∧
      ∀ v' d', p.Walked v' → p.page v' = some (frame, d') → v' = v := by
  rw [filter_exitEvents]
  have h := @Sweep.count_sweep_eq_one ℕ (ℕ × Bool) _ ℕ _ p.page
    (visitedAll (recorded p (List.range nRegion))) Prod.fst frame
  rw [h]
  constructor
  · rintro ⟨v, ⟨fr, d⟩, hv, hp, rfl, hu⟩
    exact ⟨v, d, mem_visitedAll.1 hv, hp, fun v' d' hv' hp' =>
      hu v' (fr, d') (mem_visitedAll.2 hv') hp' rfl⟩
  · rintro ⟨v, d, hv, hp, hu⟩
    refine ⟨v, (frame, d), mem_visitedAll.2 hv, hp, rfl, ?_⟩
    rintro v' ⟨fr, d'⟩ hv' hp' rfl
    exact hu v' d' (mem_visitedAll.1 hv') hp'

theorem page_eq_some_present {p : Proc} {v : ℕ} {b : ℕ × Bool} (h : p.page v = some b) :
    (p.pte v).p = true := by
  unfold Proc.page at h
  split_ifs at h with hp
  exact hp.2

/-- A present page loses its entry exactly when a walk visits it. -/
theorem cleared_iff {p p' : Proc} {v : ℕ} {b : ℕ × Bool}
    (hpage : p'.page = Sweep.rest p.page (visitedAll (recorded p (List.range nRegion))))
    (htable : p'.table = p.table) (hpte : p'.pte v = p.pte v ∨ p'.pte v = Pte.zero)
    (hv : p.page v = some b) : p'.pte v = Pte.zero ↔ p.Walked v := by
  rw [← mem_visitedAll]
  constructor
  · intro hz
    by_contra hw
    have : p'.page v = some b := by
      rw [hpage]
      simp [Sweep.rest, hw, hv]
    have := page_eq_some_present this
    rw [hz] at this
    exact Bool.noConfusion this
  · intro hw
    obtain he | he := hpte
    · have : p'.page v = none := by
        rw [hpage]
        simp [Sweep.rest, hw]
      have same : p'.page v = p.page v := by
        simp only [Proc.page, htable, he]
      rw [same, hv] at this
      simp at this
    · exact he

theorem mem_before_close {page : ℕ → Option (ℕ × Bool)} {ofile : ℕ → Option ℕ} {r : Region}
    {rs : List Region} {fd f v frame : ℕ} {d : Bool} {pre post : List Event}
    (h : exitEvents page ofile (r :: rs) = pre ++ .close fd f :: post)
    (hv : v ∈ visited r) (hp : page v = some (frame, d)) : .page v frame d ∈ pre := by
  have hmem : Event.page v frame d ∈ (Sweep.sweep page (visited r)).map pageEvent :=
    page_mem_sweep.2 ⟨hv, hp⟩
  rw [exitEvents, List.append_assoc] at h
  obtain ⟨a, rfl, -⟩ | ⟨c, hc, he⟩ := List.append_eq_append_iff.1 h
  · exact List.mem_append_left a hmem
  · cases c with
    | nil =>
      rw [List.append_nil] at hc
      exact hc ▸ hmem
    | cons e c =>
      obtain ⟨rfl, -⟩ := List.cons_eq_cons.1 he
      have : Event.close fd f ∈ (Sweep.sweep page (visited r)).map pageEvent := by
        rw [hc]
        simp
      exact absurd this close_not_mem_pages

theorem exists_split {page : ℕ → Option (ℕ × Bool)} {ofile : ℕ → Option ℕ} {r : Region}
    {rs : List Region} {fd f : ℕ} (hfd : fd < nOfile) (hf : ofile fd = some f) :
    ∃ pre post, exitEvents page ofile (r :: rs) = pre ++ .close fd f :: post ∧
      ∀ v frame d, .page v frame d ∈ pre → v ∈ visited r := by
  have hmem : Event.close fd f ∈ closes ofile := by
    have := count_closes ofile hfd hf
    exact List.count_pos_iff.1 (by omega)
  obtain ⟨a, b, hab⟩ := List.append_of_mem hmem
  refine ⟨_ ++ a, b ++ _, by rw [exitEvents, hab]; simp [List.append_assoc]; rfl, ?_⟩
  intro v frame d hv
  obtain hv | hv := List.mem_append.1 hv
  · exact (page_mem_sweep.1 hv).1
  · have : Event.page v frame d ∈ closes ofile := by
      rw [hab]
      exact List.mem_append_left _ hv
    exact absurd this page_not_mem_closes

/-- `exit` releases every resource in order exactly from the tidy states. -/
theorem exit_released {s s' : Sys} {ev : List Event} (h : exit s = some (s', ev)) :
    Released s s' ev ↔ Tidy s := by
  obtain ⟨⟨s₁, ev₁⟩, h1, h⟩ := Option.bind_eq_some_iff.1 h
  simp only [Option.some.injEq, Prod.mk.injEq] at h
  obtain ⟨rfl, rfl⟩ := h
  obtain ⟨hev, hpage, hofile, hfree, -, htable, hpte⟩ := exitRegions_spec List.nodup_range h1
  constructor
  · intro hr
    constructor
    · by_contra hcon
      rw [not_or] at hcon
      obtain ⟨hopen, hnone⟩ := hcon
      simp only [not_forall] at hopen
      obtain ⟨fd, hfd, hf⟩ := hopen
      have hnone : ∀ i < nRegion, (s.proc.mmArr i).fd = 0 := fun i hi =>
        by_contra fun hfi => hnone ⟨i, hi, hfi⟩
      obtain ⟨f, hf⟩ := Option.ne_none_iff_exists'.1 hf
      have hc := (hr.files fd hfd f hf).1
      rw [hev, recorded_eq_nil.2 hnone] at hc
      simp [exitEvents] at hc
    · intro i hi hf v hv hp
      obtain ⟨⟨frame, d⟩, hp⟩ := Option.ne_none_iff_exists'.1 hp
      have hz := (hr.frames i hi hf v hv frame d hp).2
      exact (cleared_iff hpage htable (hpte v) hp).1 hz
    · intro v v' hv hv' frame d d' hp hp'
      obtain ⟨i, hi, hf, hvis⟩ := hv
      have hc := (hr.frames i hi hf v (meets_of_mem_visited hvis) frame d hp).1
      rw [hev, freed_once] at hc
      obtain ⟨w, -, -, -, hu⟩ := hc
      rw [hu v d ⟨i, hi, hf, hvis⟩ hp, hu v' d' hv' hp']
    · intro i hi hf f hfile fd hfd hopen v hv frame hp
      cases hrec : recorded s.proc (List.range nRegion) with
      | nil => exact absurd (recorded_eq_nil.1 hrec i hi) hf
      | cons r rs =>
        obtain ⟨j, hj, rfl⟩ := recorded_eq_cons hrec
        refine ⟨j, hj, ?_⟩
        rw [hrec] at hev
        obtain ⟨pre, post, hsplit, hpre⟩ :=
          @exists_split s.proc.page s.proc.ofile (s.proc.mmArr j) rs fd f hfd hopen
        exact hpre v frame true (hr.order i hi hf f hfile fd hfd hopen v hv frame hp pre post
          (hev.trans hsplit))
  · intro ht
    constructor
    · intro fd hfd f hf
      cases hrec : recorded s.proc (List.range nRegion) with
      | nil =>
        obtain hnone | ⟨i, hi, hfi⟩ := ht.mapped
        · rw [hnone fd hfd] at hf
          simp at hf
        · exact absurd (recorded_eq_nil.1 hrec i hi) hfi
      | cons r rs =>
        rw [hrec] at hev hofile
        rw [if_neg (List.cons_ne_nil _ _)] at hofile
        constructor
        · rw [hev, exitEvents, List.count_append, List.count_append, count_closes _ hfd hf,
            List.count_eq_zero_of_not_mem close_not_mem_pages,
            List.count_eq_zero_of_not_mem close_not_mem_pages]
        · show s₁.proc.ofile fd = none
          rw [hofile]
          simp [cleared, hfd]
    · intro i hi
      exact hfree i (List.mem_range.2 hi)
    · intro i hi hf v hv frame d hp
      have hw := ht.walked i hi hf v hv (by simp [hp])
      constructor
      · rw [hev, freed_once]
        exact ⟨v, d, hw, hp, fun v' d' hv' hp' => ht.distinct v' v hv' hw frame d' d hp' hp⟩
      · exact (cleared_iff hpage htable (hpte v) hp).2 hw
    · intro i hi hf f hfile fd hfd hopen v hv frame hp pre post hsplit
      obtain ⟨j, hj, hvis⟩ := ht.first i hi hf f hfile fd hfd hopen v hv frame hp
      cases hrec : recorded s.proc (List.range nRegion) with
      | nil => exact absurd (recorded_eq_nil.1 hrec i hi) hf
      | cons r rs =>
        obtain ⟨j', hj', rfl⟩ := recorded_eq_cons hrec
        obtain rfl := Option.some.inj (hj.symm.trans hj')
        rw [hrec] at hev
        exact mem_before_close (hev.symm.trans hsplit) hvis hp

/-- A process with one open file and no region. -/
def oneFile : Sys :=
  { fivePages with
    file := fun _ => ⟨.inode, 1, true, true, 0, 0⟩
    proc := fivePages.proc.setOfile fun fd => if fd = 3 then some 0 else none }

/-- A process without regions never closes its files. -/
theorem exit_keeps_files :
    ¬ ∀ s s' ev, exit s = some (s', ev) → Released s s' ev := by
  intro h
  obtain ⟨⟨s', ev⟩, he⟩ := Option.isSome_iff_exists.1 (show (exit oneFile).isSome by decide +kernel)
  have hev : ev = [] := by
    have : (exit oneFile).map Prod.snd = some [] := by decide +kernel
    rw [he] at this
    exact Option.some.inj this
  have := ((h _ _ _ he).files 3 (by decide) 0 rfl).1
  rw [hev] at this
  simp at this

/-- The same process after a store into a page it maps from its file. -/
def oneMap : Sys :=
  { oneFile with
    proc := { oneFile.proc with
      mmArr := fun i => if i = 0 then ⟨3, 0x1005000, 0x1006000, some 0, 0, 3⟩ else
        ⟨0, 0, 0, none, 0, 0⟩
      table := fun i => if i = 0 then some 300 else if i = 4 then some 301 else none
      pte := fun v => if v = 0x1005 then ⟨320, true, true, true, true⟩ else oneFile.proc.pte v } }

theorem exit_released_oneMap : ∃ s' ev, exit oneMap = some (s', ev) ∧ Released oneMap s' ev := by
  obtain ⟨⟨s', ev⟩, he⟩ := Option.isSome_iff_exists.1 (show (exit oneMap).isSome by decide +kernel)
  have slot : ∀ i, (oneMap.proc.mmArr i).fd ≠ 0 → i = 0 := by
    intro i hi
    by_contra hne
    simp [oneMap, hne] at hi
  have vis : visited (oneMap.proc.mmArr 0) = [0x1005] := by decide
  have meets : ∀ v, (oneMap.proc.mmArr 0).Meets v → v = 0x1005 := by
    rintro v ⟨x, h1, h2, rfl⟩
    have h1 : 0x1005000 ≤ x := h1
    have h2 : x < 0x1006000 := h2
    show x / 4096 = 0x1005
    omega
  have walked : ∀ v, oneMap.proc.Walked v → v = 0x1005 := by
    rintro v ⟨i, -, hi, hv⟩
    obtain rfl := slot i hi
    rw [vis] at hv
    exact List.mem_singleton.1 hv
  refine ⟨s', ev, he, (exit_released he).2 ⟨Or.inr ⟨0, by decide, by decide⟩, ?_, ?_, ?_⟩⟩
  · intro i hi hf v hv _
    obtain rfl := slot i hf
    exact ⟨0, hi, hf, by rw [vis, meets v hv]; simp⟩
  · intro v v' hv hv' frame d d' _ _
    rw [walked v hv, walked v' hv']
  · intro i hi hf f _ fd _ _ v hv frame _
    obtain rfl := slot i hf
    exact ⟨0, by decide, by rw [vis, meets v hv]; simp⟩

end Mmap
