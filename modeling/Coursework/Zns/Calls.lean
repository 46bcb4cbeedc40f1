import Coursework.Zns.Zones
import Mathlib.Data.Finset.Prod

/-! Block groups taken from the free queues and given back to them. -/
namespace Zns
open Nand Paging

variable {g : Geometry} {s : Dev} {vs : ℕ → View} {z fcg b : ℕ} {l : List ℕ} {xs : List Word}

theorem zones_card_le (g : Geometry) (fcg : ℕ) :
    ((Finset.range g.maxZone).filter fun z => g.zoneToFcg z = fcg).card ≤ g.nblk - g.maxOpen := by
  rw [← Finset.card_range (g.nblk - g.maxOpen)]
  refine Finset.card_le_card_of_injOn (· / g.numFcg) (fun z hz => ?_) fun z hz z' hz' he => ?_
  · obtain ⟨hlt, -⟩ := Finset.mem_filter.1 hz
    rw [Finset.mem_range] at hlt
    rw [Finset.coe_range, Set.mem_Iio]
    exact Nat.div_lt_of_lt_mul hlt
  · obtain ⟨-, hmod⟩ := Finset.mem_filter.1 hz
    obtain ⟨-, hmod'⟩ := Finset.mem_filter.1 hz'
    change z / g.numFcg = z' / g.numFcg at he
    rw [← Nat.div_add_mod z g.numFcg, ← Nat.div_add_mod z' g.numFcg, he]
    exact congrArg _ (hmod.trans hmod'.symm)

/-- While fewer zones are open than may be, the free queue of every channel group has a group. -/
theorem Inv.pool_ne_nil (h : Inv g s vs) (hc : Counted g s) (hz : z < g.maxZone)
    (hlt : s.openZoneCnt < g.maxOpen) (hl : Pool g s vs (g.zoneToFcg z) l) : l ≠ [] := by
  rintro rfl
  have hspare : g.maxOpen < g.nblk := by
    by_contra hle
    rw [Geometry.maxZone, Nat.sub_eq_zero_of_le (by omega), Nat.mul_zero] at hz
    exact Nat.not_lt_zero z hz
  -- Every group is with a zone, or is the log group of an open zone.
  have hsub : Finset.range g.nblk ⊆
      (((Finset.range g.maxZone).filter fun z' => g.zoneToFcg z' = g.zoneToFcg z) ×ˢ
        ({false} : Finset Bool) ∪ activeZones g.maxZone s.state ×ˢ ({true} : Finset Bool)).image
        fun o => (owner g vs (g.zoneToFcg z) o).getD 0 := by
    intro b hb
    rcases (hl.custody.mem b).1 (List.mem_range.2 (Finset.mem_range.1 hb))
      with hnil | ⟨⟨z', log⟩, ho⟩
    · exact absurd hnil List.not_mem_nil
    · refine Finset.mem_image.2 ⟨(z', log), ?_, by rw [ho]; rfl⟩
      unfold owner at ho
      split at ho
      · next hz' =>
        rw [Finset.mem_union, Finset.mem_product, Finset.mem_product, Finset.mem_filter,
          Finset.mem_range, mem_activeZones, Finset.mem_singleton, Finset.mem_singleton]
        cases log with
        | false => exact .inl ⟨hz', rfl⟩
        | true =>
          refine .inr ⟨⟨hz'.1, ?_⟩, rfl⟩
          have hstate := (h.shows z' hz'.1).state
          dsimp only at ho ⊢
          revert ho hstate
          cases vs z' with
          | empty => exact fun ho => by cases ho
          | written b xs => exact fun ho => by cases ho
          | merging b old c xs => exact fun _ hstate => .inr hstate
      · cases ho
  have hcard := (Finset.card_le_card hsub).trans Finset.card_image_le
  have hle := Finset.card_union_le
    (((Finset.range g.maxZone).filter fun z' => g.zoneToFcg z' = g.zoneToFcg z) ×ˢ
      ({false} : Finset Bool))
    (activeZones g.maxZone s.state ×ˢ ({true} : Finset Bool))
  rw [Finset.card_range] at hcard
  rw [Finset.card_product, Finset.card_product, Finset.card_singleton, Finset.card_singleton,
    Nat.mul_one, Nat.mul_one] at hle
  have hzones := zones_card_le g (g.zoneToFcg z)
  have hcnt := hc.cnt
  omega

theorem queuePop_cons (h : Circular.Holds g.nblk (s.queue fcg) ((b :: l).map Nat.cast)) :
    ∃ q, queuePop g s fcg = ((b : ℤ), { s with queue := Function.update s.queue fcg q }) ∧
      Circular.Holds g.nblk q (l.map Nat.cast) := by
  rw [List.map_cons] at h
  obtain ⟨q, hq, hholds⟩ := h.pop
  refine ⟨q, ?_, hholds⟩
  unfold queuePop
  rw [hq]

theorem Inv.pop (h : Inv g s vs) (hc : Counted g s) (hz : z < g.maxZone)
    (hlt : s.openZoneCnt < g.maxOpen) :
    ∃ b l q, Pool g s vs (g.zoneToFcg z) (b :: l) ∧ b < g.nblk ∧
      queuePop g s (g.zoneToFcg z) =
        ((b : ℤ), { s with queue := Function.update s.queue (g.zoneToFcg z) q }) ∧
      Circular.Holds g.nblk q (l.map Nat.cast) := by
  obtain ⟨l, hl⟩ := h.pool _ (zoneToFcg_lt hz)
  cases l with
  | nil => exact absurd rfl (h.pool_ne_nil hc hz hlt hl)
  | cons b l =>
    obtain ⟨q, hpop, hq⟩ := queuePop_cons hl.queue
    exact ⟨b, l, q, hl, List.mem_range.1 (hl.custody.held_of_hand List.mem_cons_self), hpop, hq⟩

/-- An empty zone gets a group. -/
theorem Inv.openZone (h : Inv g s vs) (hc : Counted g s) (hz : z < g.maxZone)
    (hlt : s.openZoneCnt < g.maxOpen) (hempty : vs z = .empty) :
    ∃ b, Inv g (openZone g s z) (Function.update vs z (.written b [])) := by
  obtain ⟨b, l, q, hl, hb, hpop, hq⟩ := h.pop hc hz hlt
  have hs := h.shows z hz
  rw [hempty] at hs
  have hown : owner g vs (g.zoneToFcg z) (z, false) = none := by
    rw [owner_self hz, hempty]
    rfl
  refine ⟨b, ?_⟩
  unfold Zns.openZone
  rw [hpop]
  refine h.replace (b := b) h.fits (fun z' hne => ⟨?_, ?_, ?_, rfl, rfl⟩)
    (fun fcg hne => ?_) (fun z' log hne ho => ?_) (fun _ _ _ _ => rfl) h.codes
    ⟨?_, ?_, ?_, hs.log, fun log b' xs hg => ?_, fun i hi => absurd hi (Nat.not_lt_zero i), ?_⟩
    ⟨l, ?_, ?_, fun b' hb' => hl.erased b' (List.mem_cons_of_mem _ hb')⟩
  · exact Function.update_of_ne hne _ _
  · exact Function.update_of_ne hne _ _
  · exact Function.update_of_ne hne _ _
  · exact Function.update_of_ne hne _ _
  · exact hl.custody.apart ho List.mem_cons_self
  · exact (Function.update_self ..).trans (if_neg g.zoneSize_pos.ne).symm
  · exact Function.update_self ..
  · exact Function.update_self ..
  · cases log with
    | false =>
      obtain ⟨rfl, rfl⟩ := Prod.ext_iff.1 (Option.some.inj hg)
      exact ⟨hb, (hl.erased b List.mem_cons_self).holds⟩
    | true => cases hg
  · exact Nat.zero_le _
  · dsimp only
    rw [Function.update_self]
    exact hq
  · rw [owner_update hz false (by rw [hempty]; rfl)]
    exact hl.custody.hang hown

/-- A full zone gets a log group. -/
theorem Inv.openLog (h : Inv g s vs) (hc : Counted g s) (hz : z < g.maxZone)
    (hlt : s.openZoneCnt < g.maxOpen) (hfull : vs z = .written b xs)
    (hlen : xs.length = g.zoneSize) (validArr : ℕ → ℕ) :
    ∃ c, Inv g (openLog g s z validArr) (Function.update vs z (.merging b xs c [])) := by
  obtain ⟨c, l, q, hl, hcb, hpop, hq⟩ := h.pop hc hz hlt
  have hs := h.shows z hz
  rw [hfull] at hs
  have hown : owner g vs (g.zoneToFcg z) (z, true) = none := by
    rw [owner_self hz, hfull]
    rfl
  refine ⟨c, ?_⟩
  unfold Zns.openLog
  rw [hpop]
  refine h.replace (b := c) h.fits (fun z' hne => ⟨?_, ?_, rfl, ?_, rfl⟩)
    (fun fcg hne => ?_) (fun z' log hne ho => ?_) (fun _ _ _ _ => rfl) h.codes
    ⟨?_, ?_, hs.fbg, ?_, fun log b' ys hg => ?_, fun i hi => absurd hi (Nat.not_lt_zero i), ?_⟩
    ⟨l, ?_, ?_, fun b' hb' => hl.erased b' (List.mem_cons_of_mem _ hb')⟩
  · exact Function.update_of_ne hne _ _
  · exact Function.update_of_ne hne _ _
  · exact Function.update_of_ne hne _ _
  · exact Function.update_of_ne hne _ _
  · exact hl.custody.apart ho List.mem_cons_self
  · exact Function.update_self ..
  · exact Function.update_self ..
  · exact Function.update_self ..
  · cases log with
    | false => exact hs.group false b' ys hg
    | true =>
      obtain ⟨rfl, rfl⟩ := Prod.ext_iff.1 (Option.some.inj hg)
      exact ⟨hcb, (hl.erased c List.mem_cons_self).holds⟩
  · exact ⟨hlen, g.zoneSize_pos⟩
  · dsimp only
    rw [Function.update_self]
    exact hq
  · rw [owner_update hz true (by rw [hfull]; rfl)]
    exact hl.custody.hang hown

theorem Pool.length_lt (hl : Pool g s vs fcg l) {o : ℕ × Bool} (ho : owner g vs fcg o = some b) :
    l.length < g.nblk := by
  have hsub : b :: l ⊆ List.range g.nblk := by
    intro c hc
    rcases List.mem_cons.1 hc with rfl | hc
    · exact hl.custody.held_of_own ho
    · exact hl.custody.held_of_hand hc
  have hlen := ((hl.custody.unhang ho).hand_nodup.subperm hsub).length_le
  rwa [List.length_range] at hlen

/-- The group of a full zone is given back and erased. -/
theorem Inv.reset (h : Inv g s vs) (lba : ℕ) (hz : g.lbaToZone lba < g.maxZone)
    (hfull : vs (g.lbaToZone lba) = .written b xs) (hlen : xs.length = g.zoneSize) :
    Inv g (znsReset g s lba).2 (Function.update vs (g.lbaToZone lba) .empty) ∧
      GroupErased g (znsReset g s lba).2.nand (g.zoneToFcg (g.lbaToZone lba)) b := by
  generalize hzone : g.lbaToZone lba = z at hz hfull
  have hs := h.shows z hz
  rw [hfull] at hs
  have hstate : s.state z = .full := hs.state.trans (if_pos hlen)
  have hfbg : s.z2Fbg z = b := hs.fbg
  obtain ⟨l, hl⟩ := h.pool _ (zoneToFcg_lt hz)
  have hown : owner g vs (g.zoneToFcg z) (z, false) = some b := by
    rw [owner_self hz, hfull]
    rfl
  have hb : b < g.nblk := (hs.group false b xs rfl).1
  obtain ⟨q, hpush, hq⟩ := hl.queue.push (by
    rw [List.length_map]
    exact hl.length_lt hown) (b : ℤ)
  obtain ⟨hfits, herased, hothers⟩ := eraseGroup_spec h.fits (zoneToFcg_lt hz) hb
  have hreset : (znsReset g s lba).2 =
      clearValid { clearZone g s z with
        queue := Function.update s.queue (g.zoneToFcg z) q
        nand := eraseGroup g s.nand (g.zoneToFcg z) b
        z2Fbg := Function.update s.z2Fbg z (-1) } z := by
    unfold znsReset
    dsimp only
    rw [hzone, if_neg (by rw [hstate]; exact fun hc => hc rfl)]
    have hlog : (releaseFbg g (clearZone g s z) z).z2LogFbg z = -1 := hs.log
    rw [if_neg fun hc => hc hlog]
    unfold releaseFbg release queuePush
    dsimp only [clearZone]
    rw [hfbg, hpush]
    rfl
  rw [hreset]
  refine ⟨?_, herased⟩
  refine h.replace (b := b) hfits (fun z' hne => ⟨?_, ?_, ?_, rfl, rfl⟩)
    (fun fcg hne => ?_) (fun z' log hne ho => ?_) hothers h.codes
    ⟨?_, ?_, ?_, hs.log, fun log b' xs hg => ?_, fun i hi => absurd hi (Nat.not_lt_zero i), trivial⟩
    ⟨l ++ [b], ?_, ?_, fun b' hb' => ?_⟩
  · exact Function.update_of_ne hne _ _
  · exact Function.update_of_ne hne _ _
  · exact Function.update_of_ne hne _ _
  · exact Function.update_of_ne hne _ _
  · exact hne (Prod.ext_iff.1 (hl.custody.inj ho hown)).1
  · exact Function.update_self ..
  · exact Function.update_self ..
  · exact Function.update_self ..
  · cases log <;> cases hg
  · dsimp only [clearValid]
    rw [Function.update_self, List.map_append]
    exact hq
  · rw [owner_update hz false (by rw [hfull]; rfl)]
    exact (hl.custody.unhang hown).perm (List.perm_append_singleton b l) (List.Perm.refl _)
  · rcases List.mem_append.1 hb' with hmem | hmem
    · intro k
      refine (hothers _ _ _ fun hc => ?_).trans (hl.erased b' hmem k)
      exact hl.custody.apart hown (hc.2 ▸ hmem)
    · rw [List.mem_singleton.1 hmem]
      exact herased

end Zns
