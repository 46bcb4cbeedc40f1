import Coursework.Lib.Machine
import Coursework.Zns.Fill

/-! The counter of open zones, over any calls of the five operations. -/
namespace Zns

variable (g : Geometry)

/-- The calls that change the device, and `zns_read`. `tmp` is what uninitialised buffers hold. -/
inductive Op where
  | write (tmp : ℕ → Word) (lba : ℕ) (data : List Word)
  | read (lba nsect : ℕ)
  | reset (lba : ℕ)
  | izc (tmp : ℕ → Word) (srcZone destZone : ℕ) (copyList : List ℕ)
  | tlOpen (tmp : ℕ → Word) (zone : ℕ) (validArr : ℕ → ℕ)

def step (s : Dev) : Op → Dev
  | .write tmp lba data => (znsWrite g s tmp lba data).2
  | .read _ _ => s
  | .reset lba => (znsReset g s lba).2
  | .izc tmp src dest list => (znsIzc g s tmp src dest list).2
  | .tlOpen tmp zone validArr => (znsTlOpen g s tmp zone validArr).2

/-- A range of sectors inside one zone. -/
def InZone (lba nsect : ℕ) : Prop :=
  g.lbaToZone lba < g.maxZone ∧ lba % g.zoneSize + nsect ≤ g.zoneSize

/-- What the driver guarantees, and for a copy list that its offsets lie in the zone and are not
more than its sectors. -/
def Admitted : Op → Prop
  | .write _ lba data => InZone g lba data.length
  | .read lba nsect => InZone g lba nsect
  | .reset lba => g.lbaToZone lba < g.maxZone
  | .izc _ src dest list => src < g.maxZone ∧ dest < g.maxZone ∧ list.length ≤ g.zoneSize ∧
      ∀ c ∈ list, c < g.zoneSize
  | .tlOpen _ zone _ => zone < g.maxZone

/-- A TL-open that is accepted leaves out a sector. -/
def PartlyValid (s : Dev) : Op → Prop
  | .tlOpen _ zone validArr => s.openZoneCnt ≠ g.maxOpen → s.state zone = .full →
      ∃ i < g.zoneSize, validArr i = 0
  | _ => True

/-- The states that the counter counts. -/
def ZoneState.Active (st : ZoneState) : Prop := st = .opened ∨ st = .tlOpen

instance (st : ZoneState) : Decidable st.Active := inferInstanceAs (Decidable (_ ∨ _))

def activeZones (N : ℕ) (state : ℕ → ZoneState) : Finset ℕ :=
  (Finset.range N).filter fun zone => (state zone).Active

section ActiveZones

variable {N zone : ℕ} {state : ℕ → ZoneState} {st : ZoneState}

theorem mem_activeZones : zone ∈ activeZones N state ↔ zone < N ∧ (state zone).Active := by
  rw [activeZones, Finset.mem_filter, Finset.mem_range]

theorem activeZones_on (hz : zone < N) (hoff : ¬ (state zone).Active) (hst : st.Active) :
    (activeZones N (Function.update state zone st)).card = (activeZones N state).card + 1 := by
  have he : activeZones N (Function.update state zone st) = insert zone (activeZones N state) := by
    ext z
    rw [Finset.mem_insert, mem_activeZones, mem_activeZones]
    by_cases h : z = zone
    · simp [h, hz, hst]
    · simp [h]
  rw [he, Finset.card_insert_of_notMem fun hm => hoff (mem_activeZones.1 hm).2]

theorem activeZones_off (hz : zone < N) (hon : (state zone).Active) (hst : ¬ st.Active) :
    (activeZones N (Function.update state zone st)).card + 1 = (activeZones N state).card := by
  have he : activeZones N (Function.update state zone st) = (activeZones N state).erase zone := by
    ext z
    rw [Finset.mem_erase, mem_activeZones, mem_activeZones]
    by_cases h : z = zone
    · simp [h, hst]
    · simp [h]
  rw [he, Finset.card_erase_add_one (mem_activeZones.2 ⟨hz, hon⟩)]

theorem activeZones_same (h : (state zone).Active ↔ st.Active) :
    activeZones N (Function.update state zone st) = activeZones N state := by
  ext z
  rw [mem_activeZones, mem_activeZones]
  by_cases hz : z = zone
  · simp [hz, h]
  · simp [hz]

end ActiveZones

/-- The counter is right, and an open zone has room at its write pointer. -/
structure Counted (s : Dev) : Prop where
  cnt : s.openZoneCnt = (activeZones g.maxZone s.state).card
  le : s.openZoneCnt ≤ g.maxOpen
  wp : ∀ zone < g.maxZone, (s.state zone).Active →
    g.slba zone ≤ s.wp zone ∧ s.wp zone < g.slba zone + g.zoneSize

variable {g} {s s' : Dev} {zone : ℕ}

namespace Counted

theorem congr (h : Counted g s) (hstate : s'.state = s.state) (hwp : s'.wp = s.wp)
    (hcnt : s'.openZoneCnt = s.openZoneCnt) : Counted g s' := by
  constructor
  · rw [hcnt, hstate, h.cnt]
  · rw [hcnt]
    exact h.le
  · rw [hstate, hwp]
    exact h.wp

theorem lt (h : Counted g s) (hne : s.openZoneCnt ≠ g.maxOpen) : s.openZoneCnt < g.maxOpen :=
  lt_of_le_of_ne h.le hne

theorem turnOn (h : Counted g s) (hz : zone < g.maxZone) (hoff : ¬ (s.state zone).Active)
    {st : ZoneState} (hst : st.Active) (hlt : s.openZoneCnt < g.maxOpen)
    (hstate : s'.state = Function.update s.state zone st)
    (hwp : s'.wp = Function.update s.wp zone (g.slba zone))
    (hcnt : s'.openZoneCnt = s.openZoneCnt + 1) : Counted g s' := by
  refine ⟨?_, by omega, fun z hzm ha => ?_⟩
  · rw [hcnt, hstate, activeZones_on hz hoff hst, h.cnt]
    push_cast
    rfl
  · by_cases he : z = zone
    · rw [he, hwp, Function.update_self]
      have := g.zoneSize_pos
      omega
    · rw [hstate, Function.update_of_ne he] at ha
      rw [hwp, Function.update_of_ne he]
      exact h.wp z hzm ha

theorem stayOff (h : Counted g s) (hoff : ¬ (s.state zone).Active) {st : ZoneState}
    (hst : ¬ st.Active) (hstate : s'.state = Function.update s.state zone st) {w : ℕ}
    (hwp : s'.wp = Function.update s.wp zone w) (hcnt : s'.openZoneCnt = s.openZoneCnt) :
    Counted g s' := by
  refine ⟨?_, by rw [hcnt]; exact h.le, fun z hzm ha => ?_⟩
  · rw [hcnt, hstate, activeZones_same (iff_of_false hoff hst), h.cnt]
  · by_cases he : z = zone
    · rw [hstate, he, Function.update_self] at ha
      exact absurd ha hst
    · rw [hstate, Function.update_of_ne he] at ha
      rw [hwp, Function.update_of_ne he]
      exact h.wp z hzm ha

/-- One sector stored in an open zone. -/
theorem put (h : Counted g s) (hz : zone < g.maxZone) (ha : (s.state zone).Active) (i : ℕ)
    (v : Word) : Counted g (putSector g s zone i v) := by
  obtain ⟨hlo, hhi⟩ := h.wp zone hz ha
  by_cases hend : s.wp zone + 1 = g.slba zone + g.zoneSize
  · have hoff : ¬ ZoneState.full.Active := by decide
    have hcard := activeZones_off hz ha hoff
    refine ⟨?_, ?_, fun z hzm haz => ?_⟩
    · rw [putSector_openZoneCnt, putSector_state, if_pos hend, if_pos hend, h.cnt]
      omega
    · rw [putSector_openZoneCnt, if_pos hend]
      have := h.le
      omega
    · rw [putSector_state, if_pos hend] at haz
      by_cases he : z = zone
      · rw [he, Function.update_self] at haz
        exact absurd haz hoff
      · rw [Function.update_of_ne he] at haz
        rw [putSector_wp, Function.update_of_ne he]
        exact h.wp z hzm haz
  · refine ⟨?_, ?_, fun z hzm haz => ?_⟩
    · rw [putSector_openZoneCnt, putSector_state, if_neg hend, if_neg hend, h.cnt]
    · rw [putSector_openZoneCnt, if_neg hend]
      exact h.le
    · rw [putSector_state, if_neg hend] at haz
      rw [putSector_wp]
      by_cases he : z = zone
      · subst he
        rw [Function.update_self]
        omega
      · rw [Function.update_of_ne he]
        exact h.wp z hzm haz

theorem fill (h : Counted g s) (hz : zone < g.maxZone) {vs : List Word}
    (ha : vs ≠ [] → (s.state zone).Active)
    (hle : s.wp zone + vs.length ≤ g.slba zone + g.zoneSize) : Counted g (fill g s zone vs) := by
  induction vs generalizing s with
  | nil => exact h
  | cons v vs ih =>
    have ha' := ha (List.cons_ne_nil v vs)
    rw [List.length_cons] at hle
    refine ih (h.put hz ha' _ v) (fun hne => ?_) ?_
    · have hpos := List.length_pos_iff.2 hne
      rw [putSector_state, if_neg (by omega)]
      exact ha'
    · rw [putSector_wp, Function.update_self]
      omega

end Counted

theorem openZone_control (s : Dev) (zone : ℕ) :
    (openZone g s zone).state = Function.update s.state zone .opened ∧
    (openZone g s zone).wp = Function.update s.wp zone (g.slba zone) ∧
    (openZone g s zone).openZoneCnt = s.openZoneCnt + 1 := by
  unfold openZone queuePop
  cases (s.queue (g.zoneToFcg zone)).pop g.nblk <;> exact ⟨rfl, rfl, rfl⟩

theorem openLog_control (s : Dev) (zone : ℕ) (validArr : ℕ → ℕ) :
    (openLog g s zone validArr).state = Function.update s.state zone .tlOpen ∧
    (openLog g s zone validArr).wp = Function.update s.wp zone (g.slba zone) ∧
    (openLog g s zone validArr).openZoneCnt = s.openZoneCnt + 1 ∧
    (openLog g s zone validArr).validMap = Function.update s.validMap zone validArr := by
  unfold openLog queuePop
  cases (s.queue (g.zoneToFcg zone)).pop g.nblk <;> exact ⟨rfl, rfl, rfl, rfl⟩

theorem lba_zone (lba : ℕ) :
    g.slba (g.lbaToZone lba) + lba % g.zoneSize = lba := by
  rw [Geometry.slba, Geometry.lbaToZone, Nat.mul_comm, Nat.div_add_mod]

theorem Counted.writeOpen (h : Counted g s) {lba : ℕ} {data : List Word}
    (hin : InZone g lba data.length) (ha : (s.state (g.lbaToZone lba)).Active) :
    Counted g (writeOpen g s (g.lbaToZone lba) lba data).2 := by
  unfold Zns.writeOpen
  split
  · exact h
  · next hwp =>
    have hlba := lba_zone (g := g) lba
    have hle := hin.2
    rw [not_not] at hwp
    rw [writeData_eq hwp]
    exact h.fill hin.1 (fun _ => ha) (by omega)

theorem Counted.write (h : Counted g s) {tmp : ℕ → Word} {lba : ℕ} {data : List Word}
    (hin : InZone g lba data.length) : Counted g (znsWrite g s tmp lba data).2 := by
  have hlba := lba_zone (g := g) lba
  have hle := hin.2
  unfold znsWrite
  dsimp only
  cases hst : s.state (g.lbaToZone lba) with
  | empty =>
    dsimp only
    split
    · exact h
    · next hno =>
      rw [not_or] at hno
      obtain ⟨hs, hw, hc⟩ := openZone_control (g := g) s (g.lbaToZone lba)
      refine (h.turnOn hin.1 (by rw [hst]; decide) (.inl rfl) (by omega) hs hw hc).writeOpen hin ?_
      rw [hs, Function.update_self]
      exact .inl rfl
  | opened => exact h.writeOpen hin (hst ▸ .inl rfl)
  | full => exact h
  | tlOpen =>
    dsimp only
    rcases writeTlOpen_cases s tmp (g.lbaToZone lba) lba data with he | ⟨hwp, -, he⟩
    · rw [he]
      exact h
    · obtain ⟨vs, hcopy, hlen, -⟩ := @copyOff_eq g (g.lbaToZone lba) (s.z2Fbg (g.lbaToZone lba))
        (g.slba (g.lbaToZone lba) + g.zoneSize - (s.wp (g.lbaToZone lba) + data.length)) tmp
        (Zns.fill g s (g.lbaToZone lba) data)
      rw [he, hcopy, ← fill_append]
      refine h.fill hin.1 (fun _ => hst ▸ .inr rfl) ?_
      rw [List.length_append]
      omega

theorem Counted.reset (h : Counted g s) (lba : ℕ) : Counted g (znsReset g s lba).2 := by
  unfold znsReset
  dsimp only
  split
  · exact h
  · next hst =>
    rw [not_not] at hst
    have hclear : Counted g (clearZone g s (g.lbaToZone lba)) :=
      h.stayOff (by rw [hst]; decide) (show ¬ ZoneState.empty.Active by decide) rfl rfl rfl
    dsimp only
    split
    · exact hclear.congr rfl rfl rfl
    · exact hclear.congr rfl rfl rfl

theorem Counted.izc (h : Counted g s) {tmp : ℕ → Word} {src dest : ℕ} {list : List ℕ}
    (hdest : dest < g.maxZone) (hlen : list.length ≤ g.zoneSize) :
    Counted g (znsIzc g s tmp src dest list).2 := by
  unfold znsIzc
  split
  · exact h
  · next hno =>
    simp only [not_or, not_not] at hno
    obtain ⟨hcnt, -, hempty, -⟩ := hno
    obtain ⟨hs, hw, hc⟩ := openZone_control (g := g) s dest
    have hopen := h.turnOn hdest (by rw [hempty]; decide) (.inl rfl) (h.lt hcnt) hs hw hc
    apply Counted.reset
    obtain ⟨vs, he, hvs⟩ := @copySectors_eq g dest src (g.zoneToFcg src)
      (s.z2Fbg src) list tmp { openZone g s dest with
        z2LogFbg := Function.update (openZone g s dest).z2LogFbg dest (-1) }
    have hlog : Counted g { openZone g s dest with
        z2LogFbg := Function.update (openZone g s dest).z2LogFbg dest (-1) } :=
      hopen.congr rfl rfl rfl
    rw [he]
    refine hlog.fill hdest (fun _ => ?_) ?_
    · dsimp only
      rw [hs, Function.update_self]
      exact .inl rfl
    · dsimp only
      rw [hw, Function.update_self, hvs]
      omega

theorem exists_first {p : ℕ → Prop} [DecidablePred p] {n : ℕ} (h : ∃ i < n, p i) :
    ∃ m < n, p m ∧ ∀ j < m, ¬ p j := by
  have hex : ∃ i, p i := h.imp fun _ hi => hi.2
  obtain ⟨i, hi, hp⟩ := h
  exact ⟨Nat.find hex, (Nat.find_min' hex hp).trans_lt hi, Nat.find_spec hex,
    fun _ hj => Nat.find_min hex hj⟩

theorem Counted.tlOpen (h : Counted g s) {tmp : ℕ → Word} {validArr : ℕ → ℕ}
    (hz : zone < g.maxZone) (hp : PartlyValid g s (.tlOpen tmp zone validArr)) :
    Counted g (znsTlOpen g s tmp zone validArr).2 := by
  unfold znsTlOpen
  split
  · exact h
  · next hno =>
    rw [not_or, not_not] at hno
    obtain ⟨m, hm, h0, hfirst⟩ := exists_first (hp hno.1 hno.2)
    obtain ⟨hs, hw, hc, hv⟩ := openLog_control (g := g) s zone validArr
    obtain ⟨vs, he, hvs⟩ := @copyValid_eq g (openLog g s zone validArr) zone (s.z2Fbg zone)
      g.zoneSize 0 m ⟨Nat.zero_le _, by omega⟩ (by rw [hv, Function.update_self]; exact h0)
      (fun j _ hj => by rw [hv, Function.update_self]; exact hfirst j hj)
      (by rw [hw, Function.update_self]; rfl) hm (by rw [hs, Function.update_self]; decide) tmp
    dsimp only
    rw [he]
    have hopen := h.turnOn hz (by rw [hno.2]; decide) (.inr rfl) (h.lt hno.1) hs hw hc
    refine hopen.fill hz (fun _ => ?_) ?_
    · rw [hs, Function.update_self]
      exact .inr rfl
    · rw [hw, Function.update_self, hvs]
      omega

theorem znsInit_counted {mem : ℕ → Nand.Page (ℕ → Word) ℕ} {slots : ℕ → ℕ → ℤ}
    (h : znsInit g mem slots = some s) : Counted g s := by
  obtain ⟨n, -, rfl⟩ := Option.map_eq_some_iff.1 h
  have hnone : activeZones g.maxZone (fun _ => ZoneState.empty) = ∅ := by
    rw [activeZones, Finset.filter_eq_empty_iff]
    exact fun _ _ => by decide
  refine ⟨?_, Int.natCast_nonneg _, fun z _ ha => absurd ha (by decide : ¬ ZoneState.empty.Active)⟩
  dsimp only
  rw [hnone, Finset.card_empty]
  rfl

theorem Counted.step (h : Counted g s) (op : Op) (hop : Admitted g op ∧ PartlyValid g s op) :
    Counted g (step g s op) := by
  cases op with
  | write tmp lba data => exact h.write hop.1
  | read lba nsect => exact h
  | reset lba => exact h.reset lba
  | izc tmp src dest list => exact h.izc hop.1.2.1 hop.1.2.2.1
  | tlOpen tmp zone validArr => exact h.tlOpen hop.1 hop.2

/-- In every run in which each accepted TL-open leaves out a sector, the counter is the number
of open zones and within its bounds. -/
theorem openZoneCnt_counts {mem : ℕ → Nand.Page (ℕ → Word) ℕ} {slots : ℕ → ℕ → ℤ}
    (hinit : znsInit g mem slots = some s) (ops : List Op)
    (hops : Machine.Along (step g) (fun s op => Admitted g op ∧ PartlyValid g s op) s ops) :
    let s' := Machine.run (step g) s ops
    s'.openZoneCnt = (activeZones g.maxZone s'.state).card ∧ 0 ≤ s'.openZoneCnt ∧
      s'.openZoneCnt ≤ g.maxOpen := by
  have h : Counted g (Machine.run (step g) s ops) :=
    Machine.invariant (fun _ op hs hop => hs.step op hop) ops s (znsInit_counted hinit) hops
  refine ⟨h.cnt, ?_, h.le⟩
  rw [h.cnt]
  exact Int.natCast_nonneg _

/-- One bank of two blocks of one page, and one zone. -/
def tiny : Geometry where
  nbank := 1
  nblk := 2
  npage := 1
  deg := 1
  maxOpen := 1
  nbank_pos := Nat.one_pos
  nblk_pos := Nat.two_pos
  npage_pos := Nat.one_pos
  deg_pos := Nat.one_pos

def tinyOpen : Option Dev := znsInit tiny (fun _ => ⟨fun _ => 0, 0⟩) fun _ _ => 0

/-- A zone that is filled and then TL-opened with the first sector left out. -/
theorem openZoneCnt_counts_tiny : ∃ s, tinyOpen = some s ∧
    let s' := Machine.run (step tiny) s
      [.write (fun _ => 0) 0 (List.replicate 8 7), .tlOpen (fun _ => 0) 0 fun i => i]
    s'.openZoneCnt = (activeZones tiny.maxZone s'.state).card ∧ 0 ≤ s'.openZoneCnt ∧
      s'.openZoneCnt ≤ tiny.maxOpen := by
  have hzone : 0 < tiny.maxZone := by decide
  refine ⟨_, rfl, openZoneCnt_counts rfl _ ⟨⟨⟨by decide, by decide⟩, trivial⟩, ⟨hzone, ?_⟩,
    trivial⟩⟩
  exact fun _ _ => ⟨0, by decide, rfl⟩

/-- A zone that is filled and then TL-opened with every sector valid is counted off twice. -/
theorem openZoneCnt_negative : ∃ s, tinyOpen = some s ∧
    (∀ op ∈ ([.write (fun _ => 0) 0 (List.replicate 8 7), .tlOpen (fun _ => 0) 0 fun _ => 1] :
      List Op), Admitted tiny op) ∧
    (Machine.run (step tiny) s
      [.write (fun _ => 0) 0 (List.replicate 8 7),
        .tlOpen (fun _ => 0) 0 fun _ => 1]).openZoneCnt = -1 := by
  refine ⟨_, rfl, ?_, by decide +kernel⟩
  intro op hop
  rcases List.mem_pair.1 hop with rfl | rfl
  · exact ⟨by decide, by decide⟩
  · exact (by decide : (0 : ℕ) < tiny.maxZone)

end Zns
