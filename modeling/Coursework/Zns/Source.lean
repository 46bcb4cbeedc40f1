import Coursework.Zns.ReadBack

/-! The calls on a zone after `zns_tl_open`: the group of its old contents is only read, whatever
the log group holds. -/
namespace Zns
open Nand

variable {g : Geometry} {s : Dev} {z b : ℕ} {old xs : List Word} {tmp : ℕ → Word}

/-- A zone that is full or TL-open over the group `b` of its old contents, with the sectors `xs`
stored since it was opened. -/
structure Rests (g : Geometry) (s : Dev) (z b : ℕ) (old xs : List Word) : Prop where
  state : s.state z = if xs.length = g.zoneSize then .full else .tlOpen
  wp : s.wp z = g.slba z + xs.length
  fbg : s.z2Fbg z = b
  log : s.z2LogFbg z ≠ b
  queue : ∃ l, Circular.Holds g.nblk (s.queue (g.zoneToFcg z)) l ∧ (b : ℤ) ∉ l
  source : GroupHolds g s.nand (g.zoneToFcg z) b old
  length : old.length = g.zoneSize
  le : xs.length ≤ g.zoneSize
  buffer : ∀ i < xs.length % 8, xs[8 * (xs.length / 8) + i]? = some (s.buffer z i)

theorem Inv.rests {vs : ℕ → View} (h : Inv g s vs) (hz : z < g.maxZone)
    (hfull : s.state z = .full) :
    ∃ b xs, vs z = .written b xs ∧ Rests g s z b xs xs := by
  have hs := h.shows z hz
  obtain ⟨b, xs, hv, hlen⟩ := hs.of_full hfull
  rw [hv] at hs
  obtain ⟨l, hl⟩ := h.pool _ (zoneToFcg_lt hz)
  have hown : owner g vs (g.zoneToFcg z) (z, false) = some b := by
    rw [owner_self hz, hv]
    rfl
  refine ⟨b, xs, hv, ?_, hs.wp, hs.fbg, ?_, ⟨_, hl.queue, fun hmem => ?_⟩,
    (hs.group false b xs rfl).2, hlen, hlen.le, hs.buffer⟩
  · rw [if_pos hlen, hfull]
  · rw [hs.log]
    change (-1 : ℤ) ≠ b
    omega
  · obtain ⟨b', hb', he⟩ := List.mem_map.1 hmem
    rw [Int.ofNat_inj.1 he] at hb'
    exact hl.custody.apart hown hb'

/-- The sectors `ys` are those of `old` from offset `n` on, and all their offsets have `p`. -/
def Follows (old : List Word) (p : ℕ → Prop) (n : ℕ) (ys : List Word) : Prop :=
  ∀ k < ys.length, p (n + k) ∧ ys[k]? = old[n + k]?

section Follows
variable {p : ℕ → Prop} {n : ℕ} {ys : List Word} {w : Word}

theorem follows_nil (old : List Word) (p : ℕ → Prop) (n : ℕ) : Follows old p n [] :=
  fun k hk => absurd hk (Nat.not_lt_zero k)

theorem Follows.cons (hp : p n) (hw : old[n]? = some w) (h : Follows old p (n + 1) ys) :
    Follows old p n (w :: ys) := by
  intro k hk
  cases k with
  | zero => exact ⟨hp, hw.symm⟩
  | succ k =>
    have hnext := h k (Nat.lt_of_succ_lt_succ hk)
    rwa [Nat.add_assoc, Nat.add_comm 1] at hnext

end Follows

/-! One sector. -/

theorem putSector_groupCell (hne : flushFbg s z ≠ b) (i : ℕ) (w : Word) (fcg k : ℕ) :
    groupCell g (putSector g s z i w).nand fcg b k = groupCell g s.nand fcg b k := by
  unfold putSector
  dsimp only
  split
  · rw [(bufferFlush_nand _ z).1]
    exact nandWrite_cell_of_ne _ hne _ _ _ _
  · rfl

theorem putSector_buffer (i : ℕ) (w : Word) (hmod : (s.wp z + 1) % 8 ≠ 0) :
    (putSector g s z i w).buffer z = Function.update (s.buffer z) i w := by
  unfold putSector
  simp only [Function.update_self, if_neg hmod]

namespace Rests

theorem tlOpen (h : Rests g s z b old xs) (hlt : xs.length < g.zoneSize) : s.state z = .tlOpen := by
  rw [h.state, if_neg hlt.ne]

theorem full (h : Rests g s z b old xs) (hlen : xs.length = g.zoneSize) : s.state z = .full := by
  rw [h.state, if_pos hlen]

theorem readPage (h : Rests g s z b old xs) {j : ℕ} (hj : j < g.zoneSize) (tmp : ℕ → Word) {i : ℕ}
    (hi : i < 8) :
    old[8 * (j / 8) + i]? = some (readPage g s (g.zoneToFcg z) b (g.slba z + j) tmp i) :=
  readPage_holds h.source hj (h.length ▸ page_le_zoneSize hj) tmp i hi

theorem put (h : Rests g s z b old xs) (hlt : xs.length < g.zoneSize) (w : Word) :
    Rests g (putSector g s z (s.wp z % 8) w) z b old (xs ++ [w]) := by
  have hlen : (xs ++ [w]).length = xs.length + 1 := by
    rw [List.length_append, List.length_singleton]
  have hwp := h.wp
  have hmod : s.wp z % 8 = xs.length % 8 := by rw [hwp, Geometry.add_mod_eight]
  have hflush : flushFbg s z ≠ b := by
    unfold flushFbg
    rw [if_pos (h.tlOpen hlt)]
    exact h.log
  refine ⟨?_, ?_, ?_, ?_, ?_, ?_, h.length, by omega, fun i hi => ?_⟩
  · rw [putSector_state, hlen]
    by_cases hend : xs.length + 1 = g.zoneSize
    · rw [if_pos (by omega), if_pos hend, Function.update_self]
    · rw [if_neg (by omega), if_neg hend, h.tlOpen hlt]
  · rw [putSector_wp, Function.update_self, hlen, hwp, Nat.add_assoc]
  · rw [putSector_z2Fbg, h.fbg]
  · rw [putSector_z2LogFbg]
    exact h.log
  · rw [putSector_queue]
    exact h.queue
  · exact h.source.congr (putSector_groupCell hflush _ w _)
  · rw [hlen] at hi ⊢
    have hpage : (xs.length + 1) % 8 ≠ 0 := fun h0 => by omega
    rw [putSector_buffer _ w (by omega), hmod, show (xs.length + 1) / 8 = xs.length / 8 by omega]
    exact getElem?_snoc_tail h.buffer (by omega)

theorem fill (h : Rests g s z b old xs) (ws : List Word)
    (hle : xs.length + ws.length ≤ g.zoneSize) :
    Rests g (fill g s z ws) z b old (xs ++ ws) := by
  induction ws generalizing s xs with
  | nil => rwa [List.append_nil]
  | cons w ws ih =>
    rw [List.length_cons] at hle
    have hnext := ih (h.put (by omega) w) (by
      rw [List.length_append, List.length_singleton]
      omega)
    rwa [List.append_assoc] at hnext

/-- The last loop of `zns_write` copies old sectors that are valid, up to one that is not. -/
theorem copyOff (h : Rests g s z b old xs) {n : ℕ} (hn : xs.length + n = g.zoneSize)
    (tmp : ℕ → Word) :
    ∃ ys, Follows old (fun j => s.validMap z j = 1) xs.length ys ∧
      (copyOff g z b n tmp s).validMap = s.validMap ∧
      Rests g (copyOff g z b n tmp s) z b old (xs ++ ys) := by
  induction n generalizing s xs tmp with
  | zero => exact ⟨[], follows_nil _ _ _, rfl, by rwa [List.append_nil]⟩
  | succ n ih =>
    have hlt : xs.length < g.zoneSize := by omega
    have hmod : s.wp z % g.zoneSize = xs.length := by rw [h.wp, Geometry.slba_add_mod hlt]
    rw [Zns.copyOff, hmod]
    by_cases hv : s.validMap z xs.length = 1
    · rw [if_pos hv]
      dsimp only
      have hmod8 : s.wp z % 8 = xs.length % 8 := by rw [h.wp, Geometry.add_mod_eight]
      have hold := h.readPage hlt tmp (Nat.mod_lt xs.length (by omega))
      rw [Nat.div_add_mod, ← h.wp, ← hmod8] at hold
      generalize Zns.readPage g s (g.zoneToFcg z) b (s.wp z) tmp = page at hold
      have hlen : (xs ++ [page (s.wp z % 8)]).length = xs.length + 1 := by
        rw [List.length_append, List.length_singleton]
      obtain ⟨ys, hys, hmap, hrest⟩ := ih (h.put hlt (page (s.wp z % 8))) (by omega) page
      rw [putSector_validMap, hlen] at hys
      rw [putSector_validMap] at hmap
      refine ⟨page (s.wp z % 8) :: ys, hys.cons hv hold, hmap, ?_⟩
      rwa [List.append_assoc] at hrest
    · rw [if_neg hv]
      exact ⟨[], follows_nil _ _ _, rfl, by rwa [List.append_nil]⟩

/-! The log group. -/

theorem eraseGroup_groupCell {fbg : ℤ} (hne : fbg ≠ b) (n : Device (ℕ → Word) ℕ) (fcg fcg' k : ℕ) :
    groupCell g (eraseGroup g n fcg fbg) fcg' b k = groupCell g n fcg' b k := by
  unfold eraseGroup
  induction List.range g.deg generalizing n with
  | nil => rfl
  | cons i is ih =>
    rw [List.foldl_cons, ih]
    exact nandErase_cell_of_ne n hne _ _

theorem pop (h : Rests g s z b old xs) : ∃ c q, c ≠ (b : ℤ) ∧
    queuePop g s (g.zoneToFcg z) =
      (c, { s with queue := Function.update s.queue (g.zoneToFcg z) q }) ∧
    ∃ l, Circular.Holds g.nblk q l ∧ (b : ℤ) ∉ l := by
  obtain ⟨l, hq, hl⟩ := h.queue
  unfold queuePop
  cases l with
  | nil =>
    refine ⟨-1, s.queue (g.zoneToFcg z), by omega, ?_, [], hq, hl⟩
    rw [hq.pop_nil, Function.update_eq_self]
  | cons c l =>
    obtain ⟨q, hpop, hq'⟩ := hq.pop
    rw [List.mem_cons, not_or] at hl
    refine ⟨c, q, Ne.symm hl.1, ?_, l, hq', hl.2⟩
    rw [hpop]

theorem openLog (h : Rests g s z b old xs) (validArr : ℕ → ℕ) :
    Rests g (openLog g s z validArr) z b old [] := by
  obtain ⟨c, q, hne, hpop, l, hq, hl⟩ := h.pop
  unfold Zns.openLog
  rw [hpop]
  refine ⟨?_, Function.update_self .., h.fbg, ?_, ⟨l, ?_, hl⟩, h.source, h.length,
    Nat.zero_le _, fun i hi => absurd hi (Nat.not_lt_zero i)⟩
  · exact (Function.update_self ..).trans (if_neg g.zoneSize_pos.ne).symm
  · dsimp only
    rwa [Function.update_self]
  · dsimp only
    rwa [Function.update_self]

theorem closeLog (h : Rests g s z b old xs) : Rests g (closeLog g s z) z b old xs := by
  obtain ⟨l, hq, hl⟩ := h.queue
  obtain ⟨l', hq', hl'⟩ := hq.getD_push (s.z2LogFbg z)
  refine ⟨h.state, h.wp, h.fbg, ?_, ⟨l', ?_, fun hmem => ?_⟩, ?_, h.length, h.le, h.buffer⟩
  · change Function.update s.z2LogFbg z (-1) z ≠ b
    rw [Function.update_self]
    omega
  · change Circular.Holds g.nblk (Function.update s.queue (g.zoneToFcg z) _ (g.zoneToFcg z)) l'
    rwa [Function.update_self]
  · rcases hl' _ hmem with hmem | he
    · exact hl hmem
    · exact h.log he.symm
  · exact h.source.congr (eraseGroup_groupCell h.log s.nand _ _)

/-- The loop of `zns_tl_open` copies the old sectors before the first one that is not valid. -/
theorem copyValid (h : Rests g s z b old xs) {n : ℕ} (hn : xs.length + n = g.zoneSize)
    (tmp : ℕ → Word) :
    ∃ ys, Follows old (fun j => s.validMap z j ≠ 0) xs.length ys ∧
      (xs.length + ys.length < g.zoneSize →
        (copyValid g z b n xs.length tmp s).validMap = s.validMap) ∧
      Rests g (copyValid g z b n xs.length tmp s) z b old (xs ++ ys) := by
  induction n generalizing s xs tmp with
  | zero => exact ⟨[], follows_nil _ _ _, fun _ => rfl, by rwa [List.append_nil]⟩
  | succ n ih =>
    have hlt : xs.length < g.zoneSize := by omega
    rw [Zns.copyValid]
    by_cases hv : s.validMap z xs.length = 0
    · rw [if_pos hv]
      exact ⟨[], follows_nil _ _ _, fun _ => rfl, by rwa [List.append_nil]⟩
    · rw [if_neg hv]
      dsimp only
      have hold := h.readPage hlt tmp (Nat.mod_lt xs.length (by omega))
      rw [Nat.div_add_mod] at hold
      change _ = some (Zns.readPage g s (g.zoneToFcg z) b
        (z * g.zoneSize + xs.length) tmp _) at hold
      generalize Zns.readPage g s (g.zoneToFcg z) b (z * g.zoneSize + xs.length) tmp = page at hold
      generalize page (xs.length % 8) = w at hold
      have hlen : (xs ++ [w]).length = xs.length + 1 := by
        rw [List.length_append, List.length_singleton]
      have hput := h.put hlt w
      by_cases hend : xs.length + 1 = g.zoneSize
      · -- the zone is full, and the loop is over
        obtain rfl : n = 0 := by omega
        refine ⟨[w], (follows_nil _ _ _).cons hv hold, fun hlast => ?_, ?_⟩
        · rw [List.length_singleton] at hlast
          omega
        · rw [Zns.copyValid]
          split
          · exact hput.closeLog
          · exact hput
      · have hstate := hput.tlOpen (by omega)
        rw [if_neg fun hc => by rw [hstate] at hc; cases hc.2]
        obtain ⟨ys, hys, hmap, hrest⟩ := ih hput (by omega) page
        rw [putSector_validMap, hlen] at hys
        rw [putSector_validMap, hlen] at hmap
        rw [hlen] at hrest
        refine ⟨w :: ys, hys.cons hv hold, fun hlast => hmap ?_, ?_⟩
        · rw [List.length_cons] at hlast
          omega
        · rwa [List.append_assoc] at hrest

/-! The calls. -/

theorem znsTlOpen (h : Rests g s z b old xs) (tmp : ℕ → Word) (validArr : ℕ → ℕ) :
    (znsTlOpen g s tmp z validArr).1 = -1 ∧ (znsTlOpen g s tmp z validArr).2 = s ∨
    (znsTlOpen g s tmp z validArr).1 = 0 ∧ ∃ ys,
      Follows old (fun j => validArr j ≠ 0) 0 ys ∧
      (ys.length < g.zoneSize → (znsTlOpen g s tmp z validArr).2.validMap z = validArr) ∧
      Rests g (znsTlOpen g s tmp z validArr).2 z b old ys := by
  unfold Zns.znsTlOpen
  by_cases hno : s.openZoneCnt = g.maxOpen ∨ s.state z ≠ .full
  · rw [if_pos hno]
    exact .inl ⟨rfl, rfl⟩
  · rw [if_neg hno]
    have hmap : (Zns.openLog g s z validArr).validMap z = validArr := by
      rw [(openLog_control s z validArr).2.2.2, Function.update_self]
    obtain ⟨ys, hys, hmap', hrest⟩ :=
      (h.openLog validArr).copyValid (n := g.zoneSize) (Nat.zero_add _) tmp
    rw [hmap] at hys
    dsimp only
    rw [h.fbg]
    refine .inr ⟨rfl, ys, hys, fun hlt => ?_, hrest⟩
    rw [List.length_nil, Nat.zero_add] at hmap'
    exact (congrFun (hmap' hlt) z).trans hmap

/-- `zns_write` stores the data and copies old sectors marked valid after it, or changes nothing. -/
theorem znsWrite (h : Rests g s z b old xs) (tmp : ℕ → Word) {lba : ℕ} {data : List Word}
    (hzone : g.lbaToZone lba = z) (hin : InZone g lba data.length) :
    (znsWrite g s tmp lba data).1 = -1 ∧ (znsWrite g s tmp lba data).2 = s ∨
    (znsWrite g s tmp lba data).1 = 0 ∧ lba = g.slba z + xs.length ∧ xs.length < g.zoneSize ∧
      (∀ i < data.length, s.validMap z (xs.length + i) ≠ 1) ∧
      (znsWrite g s tmp lba data).2.validMap = s.validMap ∧ ∃ ys,
        Follows old (fun j => s.validMap z j = 1) (xs.length + data.length) ys ∧
        Rests g (znsWrite g s tmp lba data).2 z b old (xs ++ data ++ ys) := by
  obtain ⟨-, hle⟩ := hin
  unfold Zns.znsWrite
  rw [hzone]
  dsimp only
  by_cases hlen : xs.length = g.zoneSize
  · rw [h.full hlen]
    exact .inl ⟨rfl, rfl⟩
  have hlt : xs.length < g.zoneSize := lt_of_le_of_ne h.le hlen
  rw [h.tlOpen hlt]
  dsimp only
  rcases writeTlOpen_cases s tmp z lba data with he | ⟨hne, hfree, he⟩
  · rw [he]
    exact .inl ⟨rfl, rfl⟩
  have hlba := hne.trans h.wp
  rw [hlba, Geometry.slba_add_mod hlt] at hle
  have hwp := h.wp
  have hfill := h.fill data hle
  have hend : g.slba z + g.zoneSize - (s.wp z + data.length) =
      g.zoneSize - (xs ++ data).length := by
    rw [List.length_append]
    omega
  obtain ⟨ys, hys, hmap, hrest⟩ := hfill.copyOff (Nat.add_sub_cancel' hfill.le) tmp
  rw [fill_validMap] at hys hmap
  rw [List.length_append] at hys
  rw [he, hend, h.fbg]
  refine .inr ⟨rfl, hlba, hlt, fun i hi => ?_, hmap, ys, hys, hrest⟩
  have hi' := hfree i hi
  rwa [hlba, Nat.add_assoc, Geometry.slba_add_mod (by omega)] at hi'

end Rests

end Zns
