import Coursework.Zns.Source

/-! Reads of a zone that has been TL-opened: which of them return the old sectors that are valid
and what has been written to the others. -/
namespace Zns
open Nand

variable {g : Geometry} {s : Dev} {z b : ℕ} {old xs : List Word} {lba nsect : ℕ}

/-- What the sectors of a zone should hold, and which of them a TL-open has marked invalid. -/
structure Content where
  value : ℕ → Word
  dropped : ℕ → Bool

/-- The sectors of a zone that a validity array leaves out. -/
def LeftOut (g : Geometry) (zone : ℕ) (validArr : ℕ → ℕ) (lba : ℕ) : Prop :=
  g.lbaToZone lba = zone ∧ validArr (lba % g.zoneSize) = 0

instance (zone : ℕ) (validArr : ℕ → ℕ) (lba : ℕ) : Decidable (LeftOut g zone validArr lba) :=
  inferInstanceAs (Decidable (_ ∧ _))

/-- A write that succeeds stores its data, and a TL-open that succeeds keeps the valid sectors. -/
def contentStep (g : Geometry) (s : Dev) (t : Content) : Op → Content
  | .tlOpen tmp zone validArr =>
    if (znsTlOpen g s tmp zone validArr).1 = 0 then
      { value := fun a => if LeftOut g zone validArr a then blank else t.value a
        dropped := fun a => t.dropped a || decide (LeftOut g zone validArr a) }
    else t
  | op => { t with value := expectedStep g s t.value op }

/-- The device and what the sectors should hold. -/
def mergeStep (g : Geometry) (p : Dev × Content) (op : Op) : Dev × Content :=
  (step g p.1 op, contentStep g p.1 p.2 op)

/-- `zns_write`, `zns_read` and `zns_tl_open` on one zone, with ranges inside it and arrays of
flags. -/
def OnZone (g : Geometry) (z : ℕ) : Op → Prop
  | .write _ lba data => g.lbaToZone lba = z ∧ InZone g lba data.length
  | .read lba nsect => g.lbaToZone lba = z ∧ InZone g lba nsect
  | .tlOpen _ zone validArr => zone = z ∧ ∀ i < g.zoneSize, validArr i ≤ 1
  | _ => False

/-- In a full zone, the reads from the start of a page on without a sector that has been marked
invalid. In a TL-open zone, those whose programmed sectors have not been marked invalid, whose
sectors in the buffer have not either or are invalid now, and that end at the latest with one
invalid sector at or after the write pointer. -/
def ReadsMerged (g : Geometry) (s : Dev) (dropped : ℕ → Bool) (startLba nsect : ℕ) : Prop :=
  let zone := g.lbaToZone startLba
  match s.state zone with
  | .full => startLba % 8 = 0 ∧ ∀ i < nsect, dropped (startLba + i) = false
  | .tlOpen => ∀ i < nsect,
      let lba := startLba + i
      if lba < s.wp zone then
        dropped lba = false ∨ s.wp zone < lba / 8 * 8 + 8 ∧ s.validMap zone (lba % g.zoneSize) = 0
      else s.validMap zone (lba % g.zoneSize) = 0 ∧ i + 1 = nsect
  | _ => True

/-- While a zone is TL-open: the sectors below the write pointer are those copied and those
written, and those after it that are invalid are not written. -/
structure Merging (g : Geometry) (s : Dev) (z : ℕ) (old xs : List Word) (t : Content) : Prop where
  flags : ∀ j < g.zoneSize, s.validMap z j ≤ 1
  valid : ∀ j < g.zoneSize, t.dropped (g.slba z + j) = false → s.validMap z j = 1
  copied : ∀ j < xs.length, t.dropped (g.slba z + j) = false → xs[j]? = old[j]?
  written : ∀ j < xs.length, s.validMap z j = 0 → xs[j]? = some (t.value (g.slba z + j))
  unwritten : ∀ j < g.zoneSize, xs.length ≤ j → s.validMap z j = 0 → t.value (g.slba z + j) = blank

/-- The old contents are those of the sectors that no TL-open has marked invalid. -/
structure Merges (g : Geometry) (s : Dev) (z : ℕ) (old xs : List Word) (t : Content) : Prop where
  kept : ∀ j < g.zoneSize, t.dropped (g.slba z + j) = false →
    old[j]? = some (t.value (g.slba z + j))
  merging : xs.length < g.zoneSize → Merging g s z old xs t

section Steps
variable {t : Content}

theorem leftOut_add {j : ℕ} (hj : j < g.zoneSize) (validArr : ℕ → ℕ) :
    LeftOut g z validArr (g.slba z + j) ↔ validArr j = 0 := by
  unfold LeftOut
  rw [Geometry.slba_add_div hj, Geometry.slba_add_mod hj, and_iff_right rfl]

/-- A TL-open of a zone. -/
theorem Merges.tlOpen (h : Merges g s z old xs t) {s' : Dev} {ys : List Word} {validArr : ℕ → ℕ}
    (hys : Follows old (fun j => validArr j ≠ 0) 0 ys)
    (hmap : ys.length < g.zoneSize → s'.validMap z = validArr)
    (hflags : ∀ i < g.zoneSize, validArr i ≤ 1) :
    Merges g s' z old ys
      { value := fun a => if LeftOut g z validArr a then blank else t.value a
        dropped := fun a => t.dropped a || decide (LeftOut g z validArr a) } := by
  constructor
  · intro j hj hd
    rw [Bool.or_eq_false_iff, decide_eq_false_iff_not] at hd
    dsimp only
    rw [if_neg hd.2]
    exact h.kept j hj hd.1
  · intro hlt
    have hm := hmap hlt
    have hcopy : ∀ j < ys.length, validArr j ≠ 0 ∧ ys[j]? = old[j]? := by
      intro j hj
      have hk := hys j hj
      rwa [Nat.zero_add] at hk
    refine ⟨fun j hj => ?_, fun j hj hd => ?_, fun j hj _ => (hcopy j hj).2, fun j hj h0 => ?_,
      fun j hj _ h0 => ?_⟩
    · rw [hm]
      exact hflags j hj
    · rw [Bool.or_eq_false_iff, decide_eq_false_iff_not, leftOut_add hj] at hd
      have hle := hflags j hj
      rw [hm]
      omega
    · rw [hm] at h0
      exact absurd h0 (hcopy j hj).1
    · rw [hm] at h0
      exact if_pos ((leftOut_add hj validArr).2 h0)

/-- A write to a TL-open zone. -/
theorem Merges.write (h : Merges g s z old xs t) {s' : Dev} {data ys : List Word}
    (hlt : xs.length < g.zoneSize) (hle : (xs ++ data ++ ys).length ≤ g.zoneSize)
    (hfree : ∀ i < data.length, s.validMap z (xs.length + i) ≠ 1)
    (hmap : s'.validMap = s.validMap)
    (hys : Follows old (fun j => s.validMap z j = 1) (xs.length + data.length) ys) :
    Merges g s' z old (xs ++ data ++ ys)
      { t with value := fun a =>
        if g.slba z + xs.length ≤ a ∧ a < g.slba z + xs.length + data.length
          then data[a - (g.slba z + xs.length)]?.getD blank else t.value a } := by
  have hm := h.merging hlt
  rw [List.length_append, List.length_append] at hle
  have hfree' : ∀ j, xs.length ≤ j → j < xs.length + data.length → s.validMap z j = 0 := by
    intro j h1 h2
    have hne := hfree (j - xs.length) (by omega)
    rw [Nat.add_sub_cancel' h1] at hne
    have hflag := hm.flags j (by omega)
    omega
  have hstays : ∀ j, ¬ (xs.length ≤ j ∧ j < xs.length + data.length) →
      (if g.slba z + xs.length ≤ g.slba z + j ∧ g.slba z + j < g.slba z + xs.length + data.length
        then data[g.slba z + j - (g.slba z + xs.length)]?.getD blank
        else t.value (g.slba z + j)) = t.value (g.slba z + j) := fun j hj => if_neg (by omega)
  refine ⟨fun j hj hd => ?_, fun hlt' => ⟨?_, ?_, fun j hj hd => ?_, fun j hj h0 => ?_,
    fun j hj hge h0 => ?_⟩⟩
  · have hv := hm.valid j hj hd
    dsimp only
    rw [hstays j fun hc => by rw [hfree' j hc.1 hc.2] at hv; cases hv]
    exact h.kept j hj hd
  · rw [hmap]
    exact hm.flags
  · rw [hmap]
    exact hm.valid
  · rw [List.length_append, List.length_append] at hj
    have hv := hm.valid j (by omega) hd
    by_cases h1 : j < xs.length
    · rw [List.append_assoc, List.getElem?_append_left h1]
      exact hm.copied j h1 hd
    · by_cases h2 : j < xs.length + data.length
      · rw [hfree' j (by omega) h2] at hv
        cases hv
      · rw [List.getElem?_append_right (by rw [List.length_append]; omega), List.length_append]
        have hk := (hys (j - (xs.length + data.length)) (by omega)).2
        rwa [Nat.add_sub_cancel' (by omega)] at hk
  · rw [hmap] at h0
    rw [List.length_append, List.length_append] at hj
    dsimp only
    by_cases h1 : j < xs.length
    · rw [hstays j (by omega), List.append_assoc, List.getElem?_append_left h1]
      exact hm.written j h1 h0
    · by_cases h2 : j < xs.length + data.length
      · rw [if_pos (by omega), Nat.add_sub_add_left, List.append_assoc,
          List.getElem?_append_right (by omega), List.getElem?_append_left (by omega),
          List.getElem?_eq_getElem (by omega)]
        rfl
      · have hk := (hys (j - (xs.length + data.length)) (by omega)).1
        rw [Nat.add_sub_cancel' (by omega), h0] at hk
        cases hk
  · rw [hmap] at h0
    rw [List.length_append, List.length_append] at hge
    dsimp only
    rw [hstays j (by omega)]
    exact hm.unwritten j hj (by omega) h0

end Steps

/-- Every call on the zone keeps it over its old contents. -/
theorem Rests.step (h : Rests g s z b old xs) {t : Content} (ht : Merges g s z old xs t) {op : Op}
    (hop : OnZone g z op) :
    ∃ ys, Rests g (step g s op) z b old ys ∧
      Merges g (step g s op) z old ys (contentStep g s t op) := by
  cases op with
  | write tmp lba data =>
    obtain ⟨hzone, hin⟩ := hop
    unfold contentStep expectedStep
    dsimp only
    rcases h.znsWrite tmp hzone hin with
      ⟨hret, he⟩ | ⟨hret, hlba, hlt, hfree, hmap, ys, hys, hrest⟩
    · rw [hret, if_neg (by decide), Zns.step, he]
      exact ⟨xs, h, ht⟩
    · rw [hret, if_pos rfl]
      subst hlba
      exact ⟨_, hrest, ht.write hlt hrest.le hfree hmap hys⟩
  | read lba nsect => exact ⟨xs, h, ht⟩
  | reset lba => exact hop.elim
  | izc tmp src dest list => exact hop.elim
  | tlOpen tmp zone validArr =>
    obtain ⟨rfl, hflags⟩ := hop
    unfold contentStep
    dsimp only
    rcases h.znsTlOpen tmp validArr with ⟨hret, he⟩ | ⟨hret, ys, hys, hmap, hrest⟩
    · rw [hret, if_neg (by decide), Zns.step, he]
      exact ⟨xs, h, ht⟩
    · rw [hret, if_pos rfl]
      exact ⟨ys, hrest, ht.tlOpen hys hmap hflags⟩

theorem run_merges {calls : List Op} (hcalls : ∀ op ∈ calls, OnZone g z op) {p : Dev × Content}
    (h : Rests g p.1 z b old xs) (ht : Merges g p.1 z old xs p.2) :
    ∃ ys, Rests g (Machine.run (mergeStep g) p calls).1 z b old ys ∧
      Merges g (Machine.run (mergeStep g) p calls).1 z old ys
        (Machine.run (mergeStep g) p calls).2 := by
  refine @Machine.invariant (Dev × Content) Op (mergeStep g) (fun _ op => OnZone g z op)
    (fun p => ∃ ys, Rests g p.1 z b old ys ∧ Merges g p.1 z old ys p.2) ?_ calls p ⟨xs, h, ht⟩
    (Machine.along_of_forall (fun op hop _ => hcalls op hop) p)
  rintro p op ⟨ys, hp, htp⟩ hop
  exact hp.step htp hop

/-! Reads. -/

/-- `zns_read` of a TL-open zone stores for sector `a` its value, and goes on to the next element of
the buffer unless it is the last sector. -/
def StoresValue (g : Geometry) (s : Dev) (z : ℕ) (value : ℕ → Word) (a : ℕ) (last : Prop) : Prop :=
  (a < s.wp z ∧ ∀ tmp, (if a / 8 * 8 + 8 - 1 < s.wp z then
      readPage g s (g.zoneToFcg z) (s.z2Fbg z) a tmp (a % 8) else s.buffer z (a % 8)) = value a) ∨
    ¬ a < s.wp z ∧ s.validMap z (a % g.zoneSize) ≠ 1 ∧ value a = blank ∧ last

theorem readTlOpen_stores {value : ℕ → Word} {n lba : ℕ}
    (h : ∀ i < n, StoresValue g s z value (lba + i) (i + 1 = n)) (tmp : ℕ → Word) (data : ℕ) :
    (readTlOpen g s z n lba tmp data).map Prod.fst = List.range' data n ∧
      ∀ p ∈ readTlOpen g s z n lba tmp data, ∃ i, p.1 = data + i ∧ p.2 = value (lba + i) := by
  induction n generalizing lba tmp data with
  | zero => exact ⟨rfl, fun p hp => absurd hp List.not_mem_nil⟩
  | succ n ih =>
    rw [readTlOpen]
    have hfirst := h 0 (by omega)
    rw [Nat.add_zero] at hfirst
    rcases hfirst with ⟨hwp, hv⟩ | ⟨hwp, hv, hblank, hlast⟩
    · have hcons : ∀ v tmp', v = value lba →
          ((data, v) :: readTlOpen g s z n (lba + 1) tmp' (data + 1)).map Prod.fst =
            List.range' data (n + 1) ∧
          ∀ p ∈ (data, v) :: readTlOpen g s z n (lba + 1) tmp' (data + 1),
            ∃ i, p.1 = data + i ∧ p.2 = value (lba + i) := by
        intro v tmp' hvalue
        obtain ⟨hindex, hrest⟩ := @ih (lba + 1) (fun i hi => by
          have hnext := h (i + 1) (by omega)
          rw [← Nat.add_assoc, Nat.add_right_comm] at hnext
          exact hnext.imp_right fun hc => ⟨hc.1, hc.2.1, hc.2.2.1, by omega⟩) tmp' (data + 1)
        refine ⟨by rw [List.map_cons, hindex, List.range'_succ], fun p hp => ?_⟩
        rcases List.mem_cons.1 hp with rfl | hp
        · exact ⟨0, rfl, hvalue⟩
        · obtain ⟨i, hi, hpi⟩ := hrest p hp
          exact ⟨i + 1, by omega, by rw [hpi, ← Nat.add_assoc, Nat.add_right_comm]⟩
      have hvalue := hv tmp
      rw [if_pos hwp]
      by_cases hpage : lba / 8 * 8 + 8 - 1 < s.wp z
      · rw [if_pos hpage] at hvalue ⊢
        exact hcons _ _ hvalue
      · rw [if_neg hpage] at hvalue ⊢
        exact hcons _ _ hvalue
    · obtain rfl : n = 0 := by omega
      rw [if_neg hwp, if_neg hv]
      refine ⟨rfl, fun p hp => ?_⟩
      rw [List.mem_singleton.1 hp]
      exact ⟨0, rfl, hblank.symm⟩

/-- A sector that `ReadsMerged` admits in a TL-open zone. -/
theorem Rests.storesValue (h : Rests g s z b old xs) {t : Content} (ht : Merges g s z old xs t)
    (hlt : xs.length < g.zoneSize) {j : ℕ} (hj : j < g.zoneSize) {last : Prop}
    (hr : if g.slba z + j < s.wp z then t.dropped (g.slba z + j) = false ∨
        s.wp z < (g.slba z + j) / 8 * 8 + 8 ∧ s.validMap z ((g.slba z + j) % g.zoneSize) = 0
      else s.validMap z ((g.slba z + j) % g.zoneSize) = 0 ∧ last) :
    StoresValue g s z t.value (g.slba z + j) last := by
  have hm := ht.merging hlt
  have hwp := h.wp
  have h8 := Geometry.slba_mod_eight (g := g) z
  unfold StoresValue
  rw [Geometry.slba_add_mod hj] at hr ⊢
  rw [Geometry.add_mod_eight]
  by_cases hlow : g.slba z + j < s.wp z
  · rw [if_pos hlow] at hr
    refine .inl ⟨hlow, fun tmp => ?_⟩
    by_cases hpage : (g.slba z + j) / 8 * 8 + 8 - 1 < s.wp z
    · -- the page is programmed, and read from the group of the old contents
      have hkept := hr.resolve_right fun hc => by omega
      have hold := h.readPage hj tmp (Nat.mod_lt j (by omega))
      rw [Nat.div_add_mod, ht.kept _ hj hkept] at hold
      rw [if_pos hpage, h.fbg]
      exact (Option.some.inj hold).symm
    · have hbuf := h.buffer (j % 8) (by omega)
      rw [show 8 * (xs.length / 8) + j % 8 = j by omega] at hbuf
      have hval : xs[j]? = some (t.value (g.slba z + j)) := by
        rcases hr with hkept | ⟨-, h0⟩
        · rw [hm.copied _ (by omega) hkept, ht.kept _ hj hkept]
        · exact hm.written _ (by omega) h0
      rw [if_neg hpage]
      exact Option.some.inj (hbuf.symm.trans hval)
  · rw [if_neg hlow] at hr
    exact .inr ⟨hlow, by omega, hm.unwritten _ hj (by omega) hr.1, hr.2⟩

/-- Such a read stores the merged contents. -/
theorem Rests.znsRead (h : Rests g s z b old xs) {t : Content} (ht : Merges g s z old xs t)
    (hzone : g.lbaToZone lba = z) (hin : InZone g lba nsect)
    (hr : ReadsMerged g s t.dropped lba nsect) (tmp : ℕ → Word) :
    ∃ fuel out, znsRead g fuel s tmp lba nsect = some out ∧
      out.map Prod.fst = List.range nsect ∧ ∀ p ∈ out, p.2 = t.value (lba + p.1) := by
  have hoff := lba_zone (g := g) lba
  obtain ⟨-, hle⟩ := hin
  obtain ⟨j₀, hj₀⟩ : ∃ j₀, lba % g.zoneSize = j₀ := ⟨_, rfl⟩
  rw [hzone, hj₀] at hoff
  rw [hj₀] at hle
  unfold ReadsMerged at hr
  unfold Zns.znsRead
  rw [hzone] at hr ⊢
  subst hoff
  clear hj₀
  have h8 := Geometry.slba_mod_eight (g := g) z
  dsimp only at hr ⊢
  by_cases hlen : xs.length = g.zoneSize
  · rw [h.full hlen] at hr ⊢
    obtain ⟨hstart, hkept⟩ := hr
    obtain ⟨out, hout, hindex, hvalue⟩ := @readFull_fills g s z (g.slba z + j₀) nsect ⟨0, 0, 0, []⟩
      (fun i v => v = t.value (g.slba z + j₀ + i)) nsect 0 (Cursor.At.start _) (by omega) (by omega)
      (fun k tmp i hi hlt => by
        have hold := h.readPage (by omega : j₀ + 8 * k < g.zoneSize) tmp hi
        have hval := ht.kept (j₀ + (8 * k + i)) (by omega) (by
          rw [← Nat.add_assoc]
          exact hkept _ hlt)
        rw [show 8 * ((j₀ + 8 * k) / 8) + i = j₀ + (8 * k + i) by omega, hval,
          ← Nat.add_assoc] at hold
        rw [h.fbg, Nat.add_assoc (g.slba z) j₀ (8 * k)]
        exact (Option.some.inj hold).symm) tmp
    exact ⟨nsect, out, hout, hindex, hvalue⟩
  · have hlt : xs.length < g.zoneSize := lt_of_le_of_ne h.le hlen
    rw [h.tlOpen hlt] at hr ⊢
    have hstores : ∀ i < nsect, StoresValue g s z t.value (g.slba z + j₀ + i) (i + 1 = nsect) := by
      intro i hi
      have hri := hr i hi
      rw [Nat.add_assoc] at hri ⊢
      exact h.storesValue ht hlt (by omega) hri
    obtain ⟨hindex, hvalue⟩ := readTlOpen_stores hstores tmp 0
    refine ⟨0, _, rfl, by rw [hindex, List.range_eq_range'], fun p hp => ?_⟩
    obtain ⟨i, hi, hv⟩ := hvalue p hp
    rw [hv, hi, Nat.zero_add]

/-- A full zone after a run that fills no TL-open zone: after every further sequence of writes,
reads and TL-opens of the zone, such a read stores the old contents of the sectors that are valid
and what has been written to the others since they were marked invalid, or `blank`. -/
theorem merged_reads {mem : ℕ → Page (ℕ → Word) ℕ} {slots : ℕ → ℕ → ℤ}
    (hinit : znsInit g mem slots = some s) (ops : List Op)
    (hops : Machine.Along (step g) (Sound g) s ops) (hz : z < g.maxZone)
    (hfull : (Machine.run (step g) s ops).state z = .full) (calls : List Op)
    (hcalls : ∀ op ∈ calls, OnZone g z op) (hzone : g.lbaToZone lba = z)
    (hin : InZone g lba nsect) :
    let s' := Machine.run (step g) s ops
    let t := Machine.run (mergeStep g)
      (s', ⟨fun a => sector g s' z (a % g.zoneSize), fun _ => false⟩) calls
    ReadsMerged g t.1 t.2.dropped lba nsect → ∀ tmp, ∃ fuel out,
      znsRead g fuel t.1 tmp lba nsect = some out ∧
      out.map Prod.fst = List.range nsect ∧ ∀ p ∈ out, p.2 = t.2.value (lba + p.1) := by
  obtain ⟨-, vs, h⟩ := run_inv hinit ops hops
  generalize Machine.run (step g) s ops = s' at hfull h
  obtain ⟨b, xs, hv, hrest⟩ := h.rests hz hfull
  have hstart : Merges g s' z xs xs ⟨fun a => sector g s' z (a % g.zoneSize), fun _ => false⟩ := by
    refine ⟨fun j hj _ => ?_, fun hlt => absurd hrest.length hlt.ne⟩
    have hlen : j < xs.length := hrest.length ▸ hj
    dsimp only
    rw [Geometry.slba_add_mod hj, h.sector_written hz hv hlen, List.getElem?_eq_getElem hlen]
    rfl
  intro s'' t hr tmp
  obtain ⟨ys, hys, ht⟩ := run_merges (p := (s', _)) hcalls hrest hstart
  exact hys.znsRead ht hzone hin hr tmp

/-- A zone of two pages, filled. -/
def filled : List Op := [.write (fun _ => 0) 0 (List.replicate 16 7)]

/-- The zone opened with 9 valid sectors, and two sectors written after them. -/
def reopened : List Op :=
  [.tlOpen (fun _ => 0) 0 fun i => if i < 9 then 1 else 0, .write (fun _ => 0) 9 [21, 22]]

theorem reopened_onZone : ∀ op ∈ reopened, OnZone twoPages 0 op := by
  intro op hop
  rcases List.mem_pair.1 hop with rfl | rfl
  · refine ⟨rfl, fun i _ => ?_⟩
    dsimp only
    split <;> omega
  · exact ⟨by decide, by decide, by decide⟩

theorem merged_reads_twoPages :
    ∃ s, znsInit twoPages (fun _ => ⟨fun _ => 0, 0⟩) (fun _ _ => 0) = some s ∧
    let s' := Machine.run (step twoPages) s filled
    let t := Machine.run (mergeStep twoPages)
      (s', ⟨fun a => sector twoPages s' 0 (a % twoPages.zoneSize), fun _ => false⟩) reopened
    ReadsMerged twoPages t.1 t.2.dropped 8 4 ∧
    ∀ tmp, ∃ fuel out, znsRead twoPages fuel t.1 tmp 8 4 = some out ∧
      out.map Prod.fst = List.range 4 ∧ ∀ p ∈ out, p.2 = t.2.value (8 + p.1) := by
  obtain ⟨s, hs⟩ : ∃ s, znsInit twoPages (fun _ => ⟨fun _ => 0, 0⟩) (fun _ _ => 0) = some s :=
    ⟨_, rfl⟩
  refine ⟨s, hs, ?_⟩
  have hsound : Machine.Along (step twoPages) (Sound twoPages) s filled := by
    cases hs
    exact ⟨⟨⟨by decide, by decide⟩, trivial, fun hst => nomatch hst⟩, trivial⟩
  have hfull : (Machine.run (step twoPages) s filled).state 0 = .full := by
    cases hs
    decide +kernel
  have hreads := merged_reads hs filled hsound (by decide) hfull reopened reopened_onZone
    (by decide : twoPages.lbaToZone 8 = 0) (⟨by decide, by decide⟩ : InZone twoPages 8 4)
  have hr : let s' := Machine.run (step twoPages) s filled
      let t := Machine.run (mergeStep twoPages)
        (s', ⟨fun a => sector twoPages s' 0 (a % twoPages.zoneSize), fun _ => false⟩) reopened
      ReadsMerged twoPages t.1 t.2.dropped 8 4 := by
    cases hs
    unfold ReadsMerged
    change ∀ i < 4, _
    decide +kernel
  exact ⟨hr, hreads hr⟩

/-- A zone that is TL-opened without its old sectors and filled again still reads them. -/
theorem merged_reads_old : ∃ s, tinyOpen = some s ∧
    let s' := step tiny s (.write (fun _ => 0) 0 [1, 2, 3, 4, 5, 6, 7, 8])
    let t := Machine.run (mergeStep tiny)
      (s', ⟨fun a => sector tiny s' 0 (a % tiny.zoneSize), fun _ => false⟩)
      [.tlOpen (fun _ => 0) 0 fun _ => 0,
        .write (fun _ => 0) 0 [11, 12, 13, 14, 15, 16, 17, 18]]
    s'.state 0 = .full ∧ t.1.state 0 = .full ∧ InZone tiny 0 1 ∧ t.2.value 0 = 11 ∧
      znsRead tiny 1 t.1 (fun _ => 0) 0 1 = some [(0, 1)] :=
  ⟨_, rfl, by decide +kernel, by decide +kernel, ⟨by decide, by decide⟩, by decide +kernel,
    by decide +kernel⟩

end Zns
