import Coursework.Zns.Steps

/-! The block groups of a channel group over whole runs: each lies in the free queue or with one
zone. -/
namespace Zns
open Nand Paging

variable {g : Geometry} {s : Dev} {vs : ℕ → View} {z fcg : ℕ}

/-- A call that the driver guarantees and that does not fill a TL-open zone. -/
def Sound (g : Geometry) (s : Dev) (op : Op) : Prop :=
  Admitted g op ∧ PartlyValid g s op ∧ StaysOpen g s op

theorem Inv.unchanged (h : Inv g s vs) {s' : Dev} (he : s' = s) : Inv g s' vs := he ▸ h

/-- Every call but `zns_tl_open`. -/
def Op.Ordinary : Op → Prop
  | .tlOpen .. => False
  | _ => True

/-- No zone has a log group. -/
def Plain (vs : ℕ → View) : Prop := ∀ z, (vs z).isLog = false

theorem Plain.update (h : Plain vs) {v : View} (hv : v.isLog = false) :
    Plain (Function.update vs z v) := by
  intro z'
  by_cases he : z' = z
  · rw [he, Function.update_self]
    exact hv
  · rw [Function.update_of_ne he]
    exact h z'

/-- Every zone below `MAX_ZONE` keeps a view through such a call, and only `zns_tl_open` gives a
zone a log group. -/
theorem Inv.step (h : Inv g s vs) (hc : Counted g s) (op : Op) (hop : Sound g s op) :
    ∃ vs', Inv g (step g s op) vs' ∧ (op.Ordinary → Plain vs → Plain vs') := by
  obtain ⟨hadm, hpart, hstay⟩ := hop
  cases op with
  | write tmp lba data =>
    by_cases hst : s.state (g.lbaToZone lba) = .tlOpen
    · obtain ⟨b, old, c, xs, hv⟩ := (h.shows _ hadm.1).of_tlOpen hst
      rcases h.znsWrite_tlOpen hadm.1 rfl hst hstay hv with
        ⟨-, he⟩ | ⟨-, -, -, m, -, -, -, -, hinv⟩
      · exact ⟨vs, h.unchanged he, fun _ hp => hp⟩
      · refine ⟨_, hinv, fun _ hp => ?_⟩
        have hlog := hp (g.lbaToZone lba)
        rw [hv] at hlog
        cases hlog
    · rcases h.znsWrite_cases tmp hc hadm hst with ⟨-, he⟩ | ⟨-, -, b, hinv⟩
      · exact ⟨vs, h.unchanged he, fun _ hp => hp⟩
      · exact ⟨_, hinv, fun _ hp => hp.update rfl⟩
  | read lba nsect => exact ⟨vs, h, fun _ hp => hp⟩
  | reset lba =>
    rcases h.znsReset_cases hadm with ⟨-, he⟩ | ⟨-, -, hinv⟩
    · exact ⟨vs, h.unchanged he, fun _ hp => hp⟩
    · exact ⟨_, hinv, fun _ hp => hp.update rfl⟩
  | izc tmp src dest list =>
    rcases h.znsIzc_cases tmp hc hadm.1 hadm.2.1 hadm.2.2.1 hadm.2.2.2 with
      ⟨-, he⟩ | ⟨-, -, -, b, xs, b', -, -, hinv, -⟩
    · exact ⟨vs, h.unchanged he, fun _ hp => hp⟩
    · exact ⟨_, hinv, fun _ hp => (hp.update rfl).update rfl⟩
  | tlOpen tmp zone validArr =>
    rcases h.znsTlOpen_cases hc hadm hpart with
      ⟨-, he⟩ | ⟨-, b, xs, c, m, -, -, -, -, -, hinv⟩
    · exact ⟨vs, h.unchanged he, fun _ hp => hp⟩
    · exact ⟨_, hinv, fun ho => ho.elim⟩

theorem run_inv {mem : ℕ → Page (ℕ → Word) ℕ} {slots : ℕ → ℕ → ℤ}
    (hinit : znsInit g mem slots = some s) (ops : List Op)
    (hops : Machine.Along (Zns.step g) (Sound g) s ops) :
    Counted g (Machine.run (Zns.step g) s ops) ∧
      ∃ vs, Inv g (Machine.run (Zns.step g) s ops) vs := by
  refine @Machine.invariant Dev Op (Zns.step g) (Sound g) (fun s => Counted g s ∧ ∃ vs, Inv g s vs)
    ?_ ops s ⟨znsInit_counted hinit, _, znsInit_inv hinit⟩ hops
  rintro s op ⟨hc, vs, h⟩ hop
  obtain ⟨vs', h', -⟩ := h.step hc op hop
  exact ⟨hc.step op ⟨hop.1, hop.2.1⟩, vs', h'⟩

theorem Inv.state_ne_tlOpen (h : Inv g s vs) (hp : Plain vs) (hz : z < g.maxZone) :
    s.state z ≠ .tlOpen := by
  intro hst
  obtain ⟨b, old, c, xs, hv⟩ := (h.shows z hz).of_tlOpen hst
  have hlog := hp z
  rw [hv] at hlog
  cases hlog

theorem Inv.sound (h : Inv g s vs) (hp : Plain vs) {op : Op} (hadm : Admitted g op)
    (hord : op.Ordinary) : Sound g s op := by
  refine ⟨hadm, ?_, ?_⟩
  · cases op with
    | tlOpen tmp zone validArr => exact hord.elim
    | _ => trivial
  · cases op with
    | write tmp lba data => exact fun hst => absurd hst (h.state_ne_tlOpen hp hadm.1)
    | _ => trivial

/-- The zone, and which of `Z2FBG` and `Z2LogFBG`, that has a group of a channel group. -/
def assigned (g : Geometry) (s : Dev) (fcg : ℕ) (o : ℕ × Bool) : Option ℕ :=
  if o.1 < g.maxZone ∧ g.zoneToFcg o.1 = fcg then
    entry (if o.2 then s.z2LogFbg o.1 else s.z2Fbg o.1)
  else none

theorem entry_groupNo (o : Option (ℕ × List Word)) : entry (groupNo o) = o.map Prod.fst := by
  cases o with
  | none => rfl
  | some p => exact entry_natCast p.1

theorem Inv.assigned_eq (h : Inv g s vs) (fcg : ℕ) : assigned g s fcg = owner g vs fcg := by
  funext ⟨z, log⟩
  unfold assigned owner
  dsimp only
  split
  · next hz =>
    cases log with
    | false =>
      rw [if_neg Bool.false_ne_true, (h.shows z hz.1).fbg, entry_groupNo]
    | true => rw [if_pos rfl, (h.shows z hz.1).log, entry_groupNo]
  · rfl

theorem Shows.log_iff {v : View} (h : Shows g s z v) :
    s.z2LogFbg z ≠ -1 ↔ s.state z = .tlOpen := by
  rw [h.log, h.state]
  cases v with
  | empty => exact iff_of_false (fun hc => hc rfl) (by rintro ⟨⟩)
  | written b xs =>
    refine iff_of_false (fun hc => hc rfl) ?_
    change (if xs.length = g.zoneSize then ZoneState.full else .opened) ≠ .tlOpen
    split <;> decide
  | merging b old c xs =>
    refine iff_of_true ?_ rfl
    change (c : ℤ) ≠ -1
    omega

/-- The free queue from which a call takes a group with `Queue_Pop`. -/
def popsFrom (g : Geometry) (s : Dev) : Op → Option ℕ
  | .write _ lba _ =>
    let zone := g.lbaToZone lba
    if s.state zone = .empty ∧ ¬ (lba ≠ g.slba zone ∨ s.openZoneCnt ≥ g.maxOpen) then
      some (g.zoneToFcg zone)
    else none
  | .izc _ src dest _ =>
    if s.openZoneCnt = g.maxOpen ∨ s.state src ≠ .full ∨ s.state dest ≠ .empty ∨ src = dest then
      none
    else some (g.zoneToFcg dest)
  | .tlOpen _ zone _ =>
    if s.openZoneCnt = g.maxOpen ∨ s.state zone ≠ .full then none
    else some (g.zoneToFcg zone)
  | _ => none

/-- No call takes a group from an empty queue. -/
theorem Inv.popsFrom_cnt (h : Inv g s vs) (hc : Counted g s) {op : Op} (hop : Admitted g op)
    (hp : popsFrom g s op = some fcg) : (s.queue fcg).cnt ≠ 0 := by
  obtain ⟨z, hz, rfl, hlt⟩ : ∃ z < g.maxZone, g.zoneToFcg z = fcg ∧ s.openZoneCnt < g.maxOpen := by
    unfold popsFrom at hp
    split at hp
    · dsimp only at hp
      split at hp
      · next hno =>
        rw [not_or, not_le] at hno
        exact ⟨_, hop.1, Option.some.inj hp, hno.2.2⟩
      · cases hp
    · split at hp
      · cases hp
      · next hno =>
        rw [not_or] at hno
        exact ⟨_, hop.2.1, Option.some.inj hp, hc.lt hno.1⟩
    · split at hp
      · cases hp
      · next hno =>
        rw [not_or] at hno
        exact ⟨_, hop, Option.some.inj hp, hc.lt hno.1⟩
    · cases hp
  obtain ⟨l, hl⟩ := h.pool _ (zoneToFcg_lt hz)
  have hne := h.pool_ne_nil hc hz hlt hl
  rw [hl.queue.cnt, List.length_map]
  exact fun h0 => hne (List.eq_nil_of_length_eq_zero h0)

/-- In every run whose TL-opens leave out a sector and whose writes fill no TL-open zone, the free
queue and the tables of a channel group have each of its groups in one place, those in the queue are
erased, log groups are with the TL-open zones, and no call takes from an empty queue. -/
theorem groups_conserved {mem : ℕ → Page (ℕ → Word) ℕ} {slots : ℕ → ℕ → ℤ}
    (hinit : znsInit g mem slots = some s) (ops : List Op)
    (hops : Machine.Along (Zns.step g) (Sound g) s ops) :
    let s' := Machine.run (Zns.step g) s ops
    (∀ fcg < g.numFcg, ∃ l : List ℕ, Circular.Holds g.nblk (s'.queue fcg) (l.map Nat.cast) ∧
      Custody (assigned g s' fcg) l (List.range g.nblk) ∧
      ∀ b ∈ l, GroupErased g s'.nand fcg b) ∧
    (∀ z < g.maxZone, s'.z2LogFbg z ≠ -1 ↔ s'.state z = .tlOpen) ∧
    ∀ op fcg, Admitted g op → popsFrom g s' op = some fcg → (s'.queue fcg).cnt ≠ 0 := by
  obtain ⟨hc, vs, h⟩ := run_inv hinit ops hops
  refine ⟨fun fcg hf => ?_, fun z hz => (h.shows z hz).log_iff,
    fun op fcg hop hp => h.popsFrom_cnt hc hop hp⟩
  obtain ⟨l, hl⟩ := h.pool fcg hf
  refine ⟨l, hl.queue, ?_, hl.erased⟩
  rw [h.assigned_eq]
  exact hl.custody

/-- A zone that is filled, and TL-opened without its first sector. -/
theorem groups_conserved_tiny : ∃ s, tinyOpen = some s ∧
    let s' := Machine.run (Zns.step tiny) s
      [.write (fun _ => 0) 0 (List.replicate 8 7), .tlOpen (fun _ => 0) 0 fun i => i]
    (∀ fcg < tiny.numFcg, ∃ l : List ℕ,
      Circular.Holds tiny.nblk (s'.queue fcg) (l.map Nat.cast) ∧
      Custody (assigned tiny s' fcg) l (List.range tiny.nblk) ∧
      ∀ b ∈ l, GroupErased tiny s'.nand fcg b) ∧
    (∀ z < tiny.maxZone, s'.z2LogFbg z ≠ -1 ↔ s'.state z = .tlOpen) ∧
    ∀ op fcg, Admitted tiny op → popsFrom tiny s' op = some fcg → (s'.queue fcg).cnt ≠ 0 := by
  have hzone : 0 < tiny.maxZone := by decide
  refine ⟨_, rfl, groups_conserved rfl _ ⟨⟨⟨by decide, by decide⟩, trivial, ?_⟩,
    ⟨hzone, ?_, trivial⟩, trivial⟩⟩
  · intro hst
    cases hst
  · exact fun _ _ => ⟨0, by decide, rfl⟩

/-- The same zone written to its end keeps its log group when it is full. -/
theorem log_group_kept : ∃ s, tinyOpen = some s ∧
    (∀ op ∈ ([.write (fun _ => 0) 0 (List.replicate 8 7), .tlOpen (fun _ => 0) 0 fun _ => 0,
      .write (fun _ => 0) 0 (List.replicate 8 9)] : List Op), Admitted tiny op) ∧
    let s' := Machine.run (Zns.step tiny) s
      [.write (fun _ => 0) 0 (List.replicate 8 7), .tlOpen (fun _ => 0) 0 fun _ => 0,
        .write (fun _ => 0) 0 (List.replicate 8 9)]
    s'.state 0 = .full ∧ s'.z2LogFbg 0 = 1 := by
  have hzone : 0 < tiny.maxZone := by decide
  refine ⟨_, rfl, ?_, by decide +kernel⟩
  intro op hop
  rcases List.mem_cons.1 hop with rfl | hop
  · exact ⟨hzone, by decide⟩
  · rcases List.mem_pair.1 hop with rfl | rfl
    · exact hzone
    · exact ⟨hzone, by decide⟩

end Zns
