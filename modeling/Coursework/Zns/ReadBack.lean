import Coursework.Zns.Read

/-! Reads after writes and resets: which reads return what was written last. -/
namespace Zns
open Nand

variable {g : Geometry} {s : Dev} {vs : ℕ → View} {z b : ℕ} {xs : List Word}

/-- `zns_write`, `zns_read` and `zns_reset`. -/
def Op.Basic : Op → Prop
  | .izc .. | .tlOpen .. => False
  | _ => True

/-- What each sector should hold after a call: the data of a write that succeeds, and nothing in
a zone that is reset. -/
def expectedStep (g : Geometry) (s : Dev) (flat : ℕ → Word) : Op → ℕ → Word
  | .write tmp lba data =>
    if (znsWrite g s tmp lba data).1 = 0 then
      fun a => if lba ≤ a ∧ a < lba + data.length then data[a - lba]?.getD blank else flat a
    else flat
  | .reset lba =>
    if (znsReset g s lba).1 = 0 then
      fun a => if g.lbaToZone a = g.lbaToZone lba then blank else flat a
    else flat
  | _ => flat

/-- The device and what its sectors should hold. -/
def tracedStep (g : Geometry) (t : Dev × (ℕ → Word)) (op : Op) : Dev × (ℕ → Word) :=
  (step g t.1 op, expectedStep g t.1 t.2 op)

/-- The sectors hold what the views say. -/
def Agrees (g : Geometry) (vs : ℕ → View) (flat : ℕ → Word) : Prop :=
  ∀ z < g.maxZone, ∀ j < g.zoneSize, flat (g.slba z + j) = (vs z).data[j]?.getD blank

theorem Agrees.write {flat : ℕ → Word} (h : Agrees g vs flat) {lba : ℕ} {data : List Word}
    (hin : InZone g lba data.length)
    (hlba : lba = g.slba (g.lbaToZone lba) + (vs (g.lbaToZone lba)).data.length) :
    Agrees g (Function.update vs (g.lbaToZone lba)
        (.written b ((vs (g.lbaToZone lba)).data ++ data)))
      fun a => if lba ≤ a ∧ a < lba + data.length then data[a - lba]?.getD blank else flat a := by
  have hoff := lba_zone (g := g) lba
  have hle := hin.2
  generalize g.lbaToZone lba = z at hlba hoff
  intro z' hz' j hj
  dsimp only
  by_cases he : z' = z
  · rw [he, Function.update_self]
    change _ = ((vs z).data ++ data)[j]?.getD blank
    by_cases hdata : (vs z).data.length ≤ j
    · rw [List.getElem?_append_right hdata]
      by_cases hlt : j < (vs z).data.length + data.length
      · rw [if_pos (by omega), show g.slba z + j - lba = j - (vs z).data.length by omega]
      · have hold := h z (he ▸ hz') j hj
        rw [List.getElem?_eq_none hdata] at hold
        rw [if_neg (by omega), hold, List.getElem?_eq_none (by omega)]
    · rw [if_neg (by omega), List.getElem?_append_left (by omega)]
      exact h z (he ▸ hz') j hj
  · rw [Function.update_of_ne he, if_neg]
    · exact h z' hz' j hj
    · rintro ⟨h1, h2⟩
      -- An address between the two ends of the write lies in its zone.
      obtain ⟨i, hi⟩ := Nat.exists_eq_add_of_le (by omega : g.slba z ≤ g.slba z' + j)
      have hzone := @Geometry.slba_add_div g z i (by omega)
      rw [← hi, Geometry.slba_add_div hj] at hzone
      exact he hzone

theorem Agrees.reset {flat : ℕ → Word} (h : Agrees g vs flat) (lba : ℕ) :
    Agrees g (Function.update vs (g.lbaToZone lba) .empty)
      fun a => if g.lbaToZone a = g.lbaToZone lba then blank else flat a := by
  intro z hz j hj
  dsimp only
  rw [Geometry.slba_add_div hj]
  by_cases he : z = g.lbaToZone lba
  · rw [if_pos he, he, Function.update_self]
    rfl
  · rw [if_neg he, Function.update_of_ne he]
    exact h z hz j hj

/-- The views, and what the sectors should hold, agree after every run of these calls. -/
theorem run_agrees {mem : ℕ → Page (ℕ → Word) ℕ} {slots : ℕ → ℕ → ℤ}
    (hinit : znsInit g mem slots = some s) (ops : List Op)
    (hops : ∀ op ∈ ops, Admitted g op ∧ op.Basic) :
    let t := Machine.run (tracedStep g) (s, fun _ => blank) ops
    ∃ vs, Inv g t.1 vs ∧ Plain vs ∧ Agrees g vs t.2 := by
  have hrun := @Machine.invariant (Dev × (ℕ → Word)) Op (tracedStep g)
    (fun _ op => Admitted g op ∧ op.Basic)
    (fun t => Counted g t.1 ∧ ∃ vs, Inv g t.1 vs ∧ Plain vs ∧ Agrees g vs t.2) ?_ ops
    (s, fun _ => blank)
    ⟨znsInit_counted hinit, _, znsInit_inv hinit, fun _ => rfl, fun _ _ _ _ => rfl⟩
    (Machine.along_of_forall (fun op hop _ => hops op hop) _)
  · exact hrun.2
  rintro ⟨s, flat⟩ op ⟨hc, vs, h, hp, hflat⟩ ⟨hadm, hbasic⟩
  dsimp only at hc h hflat
  cases op with
  | write tmp lba data =>
    have hst := h.state_ne_tlOpen hp hadm.1
    refine ⟨hc.write hadm, ?_⟩
    unfold tracedStep expectedStep
    rcases h.znsWrite_cases tmp hc hadm hst with ⟨hret, he⟩ | ⟨hret, hlba, b, hinv⟩
    · refine ⟨vs, h.unchanged he, hp, ?_⟩
      dsimp only
      rw [hret, if_neg (by decide)]
      exact hflat
    · refine ⟨_, hinv, hp.update rfl, ?_⟩
      dsimp only
      rw [hret, if_pos rfl]
      exact hflat.write hadm hlba
  | read lba nsect => exact ⟨hc, vs, h, hp, hflat⟩
  | reset lba =>
    refine ⟨hc.reset lba, ?_⟩
    unfold tracedStep expectedStep
    rcases h.znsReset_cases hadm with ⟨hret, he⟩ | ⟨hret, -, hinv⟩
    · refine ⟨vs, h.unchanged he, hp, ?_⟩
      dsimp only
      rw [hret, if_neg (by decide)]
      exact hflat
    · refine ⟨_, hinv, hp.update rfl, ?_⟩
      dsimp only
      rw [hret, if_pos rfl]
      exact hflat.reset lba
  | izc tmp src dest list => exact hbasic.elim
  | tlOpen tmp zone validArr => exact hbasic.elim

/-- The reads that take each sector from where it is: of an empty zone, from the start of a page of
a full zone, and of an open zone from the page of the write pointer on, or from the start of a page
without a page that lies partly beyond the request. -/
def ReadsBack (g : Geometry) (s : Dev) (startLba nsect : ℕ) : Prop :=
  let wp := s.wp (g.lbaToZone startLba)
  match s.state (g.lbaToZone startLba) with
  | .empty | .tlOpen => True
  | .full => startLba % 8 = 0
  | .opened => wp / 8 * 8 ≤ startLba ∨
      startLba % 8 = 0 ∧ (nsect % 8 = 0 ∨ wp < startLba + 8 * (nsect / 8) + 8)

theorem Inv.readPage_start (h : Inv g s vs) (hz : z < g.maxZone) (hv : vs z = .written b xs)
    {j : ℕ} (h8 : j % 8 = 0) (hle : j + 8 ≤ xs.length) (tmp : ℕ → Word) {i : ℕ} (hi : i < 8) :
    Zns.readPage g s (g.zoneToFcg z) b (g.slba z + j) tmp i = xs[j + i]?.getD blank := by
  have hs := h.shows z hz
  rw [hv] at hs
  have hsize : xs.length ≤ g.zoneSize := hs.sized
  have hread := @readPage_holds g _ b xs s z j (hs.group false b xs rfl).2 (by omega)
    (by omega) tmp i hi
  rw [show 8 * (j / 8) + i = j + i by omega] at hread
  rw [hread]
  rfl

/-- A read of that kind stores what the views say. -/
theorem Inv.znsRead (h : Inv g s vs) (hp : Plain vs) {startLba nsect : ℕ}
    (hin : InZone g startLba nsect) (hr : ReadsBack g s startLba nsect) {flat : ℕ → Word}
    (hflat : Agrees g vs flat) (tmp : ℕ → Word) :
    ∃ fuel out, znsRead g fuel s tmp startLba nsect = some out ∧
      out.map Prod.fst = List.range nsect ∧ ∀ p ∈ out, p.2 = flat (startLba + p.1) := by
  have hoff := lba_zone (g := g) startLba
  obtain ⟨hz, hle⟩ := hin
  unfold ReadsBack at hr
  unfold Zns.znsRead
  dsimp only at hr ⊢
  generalize g.lbaToZone startLba = z at hoff hz hr
  obtain ⟨j₀, hj₀⟩ : ∃ j₀, startLba % g.zoneSize = j₀ := ⟨_, rfl⟩
  rw [hj₀] at hoff hle
  subst hoff
  have h8 := Geometry.slba_mod_eight (g := g) z
  have hs := h.shows z hz
  cases hst : s.state z with
  | empty =>
    have hv := hs.of_empty hst
    refine ⟨0, _, rfl, ?_, fun p hmem => ?_⟩
    · rw [List.map_map]
      exact List.map_id _
    · obtain ⟨i, hi, rfl⟩ := List.mem_map.1 hmem
      rw [List.mem_range] at hi
      have hval := hflat z hz (j₀ + i) (by omega)
      rw [hv] at hval
      dsimp only
      rw [Nat.add_assoc, hval]
      rfl
  | full =>
    obtain ⟨b, xs, hv, hlen⟩ := hs.of_full hst
    rw [hv] at hs
    have hfbg : s.z2Fbg z = b := hs.fbg
    rw [hst] at hr
    dsimp only at hr ⊢
    obtain ⟨out, hout, hindex, hvalue⟩ := @readFull_fills g s z (g.slba z + j₀) nsect ⟨0, 0, 0, []⟩
      (fun i v => v = flat (g.slba z + j₀ + i)) nsect 0 (Cursor.At.start _) (by omega) (by omega)
      (fun k tmp i hi hlt => by
        have hmod : g.zoneSize % 8 = 0 := by
          rw [g.zoneSize_eq]
          exact Nat.mul_mod_left _ _
        have hval := hflat z hz (j₀ + 8 * k + i) (by omega)
        rw [hv] at hval
        rw [hfbg, Nat.add_assoc (g.slba z) j₀ (8 * k),
          h.readPage_start hz hv (by omega) (by omega) tmp hi]
        rw [show g.slba z + j₀ + (8 * k + i) = g.slba z + (j₀ + 8 * k + i) by omega, hval]
        rfl) tmp
    exact ⟨nsect, out, hout, hindex, hvalue⟩
  | opened =>
    obtain ⟨b, xs, hv, hlen⟩ := hs.of_opened hst
    rw [hv] at hs
    have hfbg : s.z2Fbg z = b := hs.fbg
    have hwp : s.wp z = g.slba z + xs.length := hs.wp
    rw [hst] at hr
    dsimp only at hr ⊢
    have hdata (j : ℕ) (hj : j < g.zoneSize) : flat (g.slba z + j) = xs[j]?.getD blank := by
      have hval := hflat z hz j hj
      rw [hv] at hval
      exact hval
    obtain ⟨fuel, c, hout, hc⟩ := @readOpen_fills g s z (g.slba z + j₀) nsect
      (fun i v => j₀ + i < g.zoneSize → v = flat (g.slba z + j₀ + i))
      (by
        unfold OpenRange
        omega)
      (fun k hk hkwp tmp i hi _ => by
        rw [hfbg, Nat.add_assoc (g.slba z) j₀ (8 * k),
          h.readPage_start hz hv (by omega) (by omega) tmp hi,
          show g.slba z + j₀ + (8 * k + i) = g.slba z + (j₀ + 8 * k + i) by omega,
          hdata _ (by omega)])
      (fun i hi hiwp _ => by
        have hbuf := hs.buffer ((g.slba z + j₀ + i) % 8) (by
          change _ < xs.length % 8
          omega)
        change xs[8 * (xs.length / 8) + _]? = _ at hbuf
        rw [Nat.add_assoc, hdata _ (by omega), ← Nat.add_assoc]
        rw [show 8 * (xs.length / 8) + (g.slba z + j₀ + i) % 8 = j₀ + i by omega] at hbuf
        rw [hbuf]
        rfl)
      (fun i hi hlt => by
        rw [Nat.add_assoc, hdata _ hlt, List.getElem?_eq_none (by omega)]
        rfl) tmp
    refine ⟨fuel, c.stores, hout, hc.index, fun p hmem => hc.value p hmem ?_⟩
    have hidx : p.1 ∈ List.range nsect := hc.index ▸ List.mem_map_of_mem hmem
    rw [List.mem_range] at hidx
    omega
  | tlOpen => exact absurd hst (h.state_ne_tlOpen hp hz)

/-- After every run of writes, reads and resets, such a read stores for each sector what was written
to it last since the reset of its zone, and `blank` from the write pointer on. -/
theorem read_your_writes {mem : ℕ → Page (ℕ → Word) ℕ} {slots : ℕ → ℕ → ℤ}
    (hinit : znsInit g mem slots = some s) (ops : List Op)
    (hops : ∀ op ∈ ops, Admitted g op ∧ op.Basic) {startLba nsect : ℕ}
    (hin : InZone g startLba nsect) :
    let t := Machine.run (tracedStep g) (s, fun _ => blank) ops
    (∀ lba, g.lbaToZone lba < g.maxZone → t.1.wp (g.lbaToZone lba) ≤ lba → t.2 lba = blank) ∧
    (ReadsBack g t.1 startLba nsect → ∀ tmp, ∃ fuel out,
      znsRead g fuel t.1 tmp startLba nsect = some out ∧
      out.map Prod.fst = List.range nsect ∧ ∀ p ∈ out, p.2 = t.2 (startLba + p.1)) := by
  obtain ⟨vs, h, hp, hflat⟩ := run_agrees hinit ops hops
  refine ⟨fun lba hz hwp => ?_, fun hr tmp => h.znsRead hp hin hr hflat tmp⟩
  have hoff := lba_zone (g := g) lba
  have hval := hflat _ hz (lba % g.zoneSize) (Nat.mod_lt lba g.zoneSize_pos)
  rw [hoff] at hval
  rw [(h.shows _ hz).wp] at hwp
  rw [hval, List.getElem?_eq_none (by omega)]
  rfl

/-- A read from the middle of a page that is written. -/
def tailRead : List Op := [.write (fun _ => 0) 0 [1, 2, 3, 4, 5, 6, 7, 8, 9]]

theorem tailRead_basic : ∀ op ∈ tailRead, Admitted twoPages op ∧ op.Basic := by
  intro op hop
  rw [List.mem_singleton.1 hop]
  exact ⟨⟨by decide, by decide⟩, trivial⟩

theorem read_your_writes_twoPages :
    ∃ s, znsInit twoPages (fun _ => ⟨fun _ => 0, 0⟩) (fun _ _ => 0) = some s ∧
    let t := Machine.run (tracedStep twoPages) (s, fun _ => blank) tailRead
    (∀ lba, twoPages.lbaToZone lba < twoPages.maxZone →
      t.1.wp (twoPages.lbaToZone lba) ≤ lba → t.2 lba = blank) ∧
    (ReadsBack twoPages t.1 8 2 → ∀ tmp, ∃ fuel out,
      znsRead twoPages fuel t.1 tmp 8 2 = some out ∧
      out.map Prod.fst = List.range 2 ∧ ∀ p ∈ out, p.2 = t.2 (8 + p.1)) :=
  ⟨_, rfl, read_your_writes rfl tailRead tailRead_basic ⟨by decide, by decide⟩⟩

/-- A full zone read from its second sector on gives its first sector. -/
theorem full_read_misaligned : ∃ s, tinyOpen = some s ∧
    let t := Machine.run (tracedStep tiny) (s, fun _ => blank)
      [.write (fun _ => 0) 0 [1, 2, 3, 4, 5, 6, 7, 8]]
    InZone tiny 1 1 ∧ t.2 1 = 2 ∧ znsRead tiny 1 t.1 (fun _ => 0) 1 1 = some [(0, 1)] :=
  ⟨_, rfl, ⟨by decide, by decide⟩, by decide +kernel, by decide +kernel⟩

end Zns
