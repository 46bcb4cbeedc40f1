import Coursework.Nand.View
import Coursework.Zns.Device

/-! Block groups: page `k` of a group lies in bank `k % DEG_ZONE` of its channel group, at page
`k / DEG_ZONE` of the block. -/
namespace Zns
open Nand Paging

variable {g : Geometry}

namespace Geometry

variable (g)

/-- Pages of a block group. -/
def groupPages : ℕ := g.deg * g.npage

theorem zoneSize_eq : g.zoneSize = g.groupPages * 8 := rfl

theorem groupPages_pos : 0 < g.groupPages := Nat.mul_pos g.deg_pos g.npage_pos

theorem zoneSize_pos : 0 < g.zoneSize := by
  have := g.groupPages_pos
  rw [zoneSize_eq]
  omega

variable {g} {zone j : ℕ}

theorem slba_add_div (hj : j < g.zoneSize) : g.lbaToZone (g.slba zone + j) = zone :=
  div_page hj

theorem slba_add_mod (hj : j < g.zoneSize) : (g.slba zone + j) % g.zoneSize = j :=
  mod_page hj

theorem slba_mod_eight (zone : ℕ) : g.slba zone % 8 = 0 := by
  rw [slba, zoneSize_eq, ← Nat.mul_assoc, Nat.mul_mod_left]

theorem add_mod_eight (zone j : ℕ) : (g.slba zone + j) % 8 = j % 8 := by
  rw [Nat.add_mod, slba_mod_eight, Nat.zero_add, Nat.mod_mod]

theorem add_div_eight (zone j : ℕ) : (g.slba zone + j) / 8 = zone * g.groupPages + j / 8 := by
  rw [slba, zoneSize_eq, ← Nat.mul_assoc, Nat.add_comm, Nat.add_mul_div_right _ _ (by omega),
    Nat.add_comm]

theorem div_eight_lt (hj : j < g.zoneSize) : j / 8 < g.groupPages := by
  rw [zoneSize_eq] at hj
  omega

theorem lbaToBank_add (fcg zone j : ℕ) :
    g.lbaToBank fcg (g.slba zone + j) = fcg * g.deg + j / 8 % g.deg := by
  rw [lbaToBank, add_div_eight, groupPages, ← Nat.mul_assoc, Nat.mul_right_comm,
    Nat.mul_add_mod_self_right]

theorem lbaToPage_add (zone : ℕ) (hj : j < g.zoneSize) :
    g.lbaToPage (g.slba zone + j) = j / 8 / g.deg := by
  have hlt : j / 8 / g.deg < g.npage := by
    rw [Nat.div_lt_iff_lt_mul g.deg_pos, Nat.mul_comm]
    exact div_eight_lt hj
  rw [lbaToPage, Nat.mul_comm g.deg 8, ← Nat.div_div_eq_div_mul, add_div_eight, groupPages,
    Nat.mul_comm g.deg, ← Nat.mul_assoc, Nat.add_comm, Nat.add_mul_div_right _ _ g.deg_pos,
    Nat.add_mul_mod_self_right, Nat.mod_eq_of_lt hlt]

end Geometry

/-- The NAND has the dimensions of `zns_init`. -/
structure Fits (g : Geometry) (n : Device (ℕ → Word) ℕ) : Prop where
  nbanks : n.nbanks = g.nbank
  nblks : n.nblks = g.nblk
  npages : n.npages = g.npage

variable (g) in
/-- Page `k` of a block group. -/
def groupCell (n : Device (ℕ → Word) ℕ) (fcg fbg k : ℕ) : Option (Page (ℕ → Word) ℕ) :=
  n.cell (fcg * g.deg + k % g.deg) fbg (k / g.deg)

/-- The programmed pages of a block group are the complete pages of `xs`. -/
structure GroupHolds (g : Geometry) (n : Device (ℕ → Word) ℕ) (fcg fbg : ℕ) (xs : List Word) :
    Prop where
  full : ∀ k < g.groupPages, 8 * k + 8 ≤ xs.length →
    ∃ pg, groupCell g n fcg fbg k = some pg ∧ ∀ i < 8, xs[8 * k + i]? = some (pg.data i)
  rest : ∀ k < g.groupPages, xs.length < 8 * k + 8 → groupCell g n fcg fbg k = none

section Groups

variable {n n' : Device (ℕ → Word) ℕ} {fcg fcg' fbg fbg' k k' : ℕ} {xs : List Word}

theorem bank_lt (hf : fcg < g.numFcg) (k : ℕ) : fcg * g.deg + k % g.deg < g.nbank :=
  lt_of_lt_of_le (page_lt hf (Nat.mod_lt k g.deg_pos)) (Nat.div_mul_le_self _ _)

theorem row_lt (hk : k < g.groupPages) : k / g.deg < g.npage := by
  rw [Nat.div_lt_iff_lt_mul g.deg_pos, Nat.mul_comm]
  exact hk

theorem inRange_group (hn : Fits g n) (hf : fcg < g.numFcg) (hb : fbg < g.nblk)
    (hk : k < g.groupPages) :
    n.InRange (fcg * g.deg + k % g.deg) fbg (k / g.deg) := by
  refine ⟨?_, ?_, ?_⟩
  · rw [hn.nbanks]
    exact bank_lt hf k
  · rwa [hn.nblks]
  · rw [hn.npages]
    exact row_lt hk

theorem place_inj (hbank : fcg' * g.deg + k' % g.deg = fcg * g.deg + k % g.deg)
    (hrow : k' / g.deg = k / g.deg) : fcg' = fcg ∧ k' = k := by
  obtain ⟨hf, hmod⟩ := page_inj (Nat.mod_lt k' g.deg_pos) (Nat.mod_lt k g.deg_pos) hbank
  refine ⟨hf, ?_⟩
  rw [← Nat.div_add_mod k' g.deg, ← Nat.div_add_mod k g.deg, hrow, hmod]

theorem groupCell_programmed {pg : Page (ℕ → Word) ℕ}
    (h : Programmed n n' (fcg * g.deg + k % g.deg) fbg (k / g.deg) pg) :
    groupCell g n' fcg' fbg' k' =
      if fcg' = fcg ∧ fbg' = fbg ∧ k' = k then some pg else groupCell g n fcg' fbg' k' := by
  unfold groupCell
  rw [h.cell]
  by_cases hc : fcg' = fcg ∧ fbg' = fbg ∧ k' = k
  · obtain ⟨rfl, rfl, rfl⟩ := hc
    rw [if_pos ⟨rfl, rfl, rfl⟩, if_pos ⟨rfl, rfl, rfl⟩]
  · rw [if_neg hc, if_neg]
    rintro ⟨hbank, hb, hrow⟩
    obtain ⟨hf, hk⟩ := place_inj hbank hrow
    exact hc ⟨hf, hb, hk⟩

theorem Fits.programmed {bank blk page : ℕ} {pg : Page (ℕ → Word) ℕ} (h : Fits g n)
    (hp : Programmed n n' bank blk page pg) : Fits g n' :=
  ⟨hp.nbanks.trans h.nbanks, hp.nblks.trans h.nblks, hp.npages.trans h.npages⟩

theorem Fits.erased {bank blk : ℕ} (h : Fits g n) (hp : Erased n n' bank blk) : Fits g n' :=
  ⟨hp.nbanks.trans h.nbanks, hp.nblks.trans h.nblks, hp.npages.trans h.npages⟩

namespace GroupHolds

theorem congr (h : GroupHolds g n fcg fbg xs)
    (he : ∀ k, groupCell g n' fcg fbg k = groupCell g n fcg fbg k) :
    GroupHolds g n' fcg fbg xs := by
  constructor
  · intro k hk hx
    rw [he]
    exact h.full k hk hx
  · intro k hk hx
    rw [he]
    exact h.rest k hk hx

theorem isSome_iff (h : GroupHolds g n fcg fbg xs) (hk : k < g.groupPages) :
    (groupCell g n fcg fbg k).isSome ↔ 8 * k + 8 ≤ xs.length := by
  constructor
  · intro hs
    by_contra hlt
    rw [h.rest k hk (by omega)] at hs
    cases hs
  · intro hle
    obtain ⟨pg, hpg, -⟩ := h.full k hk hle
    rw [hpg]
    rfl

theorem full_snoc (h : GroupHolds g n fcg fbg xs) (v : Word) {k : ℕ} (hk : k < g.groupPages)
    (hx : 8 * (k + 1) ≤ xs.length) : ∃ pg, groupCell g n fcg fbg k = some pg ∧
      ∀ i < 8, (xs ++ [v])[8 * k + i]? = some (pg.data i) := by
  obtain ⟨pg, hpg, hdata⟩ := h.full k hk hx
  refine ⟨pg, hpg, fun i hi => ?_⟩
  rw [List.getElem?_append_left (by omega)]
  exact hdata i hi

theorem snoc (h : GroupHolds g n fcg fbg xs) (v : Word) (hmod : (xs.length + 1) % 8 ≠ 0) :
    GroupHolds g n fcg fbg (xs ++ [v]) := by
  constructor
  · intro k hk hx
    rw [List.length_append, List.length_singleton] at hx
    exact h.full_snoc v hk (by omega)
  · intro k hk hx
    rw [List.length_append, List.length_singleton] at hx
    exact h.rest k hk (by omega)

theorem program (h : GroupHolds g n fcg fbg xs) (v : Word) (hmod : (xs.length + 1) % 8 = 0)
    {pg : Page (ℕ → Word) ℕ}
    (hp : Programmed n n' (fcg * g.deg + xs.length / 8 % g.deg) fbg (xs.length / 8 / g.deg) pg)
    (hpg : ∀ i < 8, (xs ++ [v])[8 * (xs.length / 8) + i]? = some (pg.data i)) :
    GroupHolds g n' fcg fbg (xs ++ [v]) := by
  constructor
  · intro k' hk' hx
    rw [List.length_append, List.length_singleton] at hx
    rw [groupCell_programmed hp]
    by_cases hkk : k' = xs.length / 8
    · subst hkk
      exact ⟨pg, if_pos ⟨rfl, rfl, rfl⟩, hpg⟩
    · rw [if_neg fun hc => hkk hc.2.2]
      exact h.full_snoc v hk' (by omega)
  · intro k' hk' hx
    rw [List.length_append, List.length_singleton] at hx
    rw [groupCell_programmed hp, if_neg (fun hc => by omega)]
    exact h.rest k' hk' (by omega)

theorem nandWrite (h : GroupHolds g n fcg fbg xs) (hn : Fits g n) (hf : fcg < g.numFcg)
    (hb : fbg < g.nblk) (hk : xs.length / 8 < g.groupPages) (data : ℕ → Word) (spare : ℕ) :
    ∃ n', Nand.nandWrite n ((fcg * g.deg + xs.length / 8 % g.deg : ℕ) : ℤ) fbg
        ((xs.length / 8 / g.deg : ℕ) : ℤ) data spare = (n', .success) ∧
      Programmed n n' (fcg * g.deg + xs.length / 8 % g.deg) fbg (xs.length / 8 / g.deg)
        ⟨data, spare⟩ := by
  refine nandWrite_next (inRange_group hn hf hb hk) (h.rest _ hk (by omega)) ?_ data spare
  -- An earlier page of the same bank is an earlier page of the group.
  intro row hrow
  have hdeg := Nat.mod_lt (xs.length / 8) g.deg_pos
  have hdiv : (row * g.deg + xs.length / 8 % g.deg) / g.deg = row := div_page hdeg
  have hmod : (row * g.deg + xs.length / 8 % g.deg) % g.deg = xs.length / 8 % g.deg :=
    mod_page hdeg
  have hlt : row * g.deg + xs.length / 8 % g.deg < xs.length / 8 := by
    calc row * g.deg + xs.length / 8 % g.deg
        < xs.length / 8 / g.deg * g.deg + xs.length / 8 % g.deg := by
          have := Nat.mul_lt_mul_of_pos_right hrow g.deg_pos
          omega
      _ = xs.length / 8 := div_mul_add_mod _ _
  have hsome := (h.isSome_iff (hlt.trans hk)).2 (by omega)
  unfold groupCell at hsome
  rwa [hdiv, hmod] at hsome

end GroupHolds

/-- Every page of a block group is erased. -/
def GroupErased (g : Geometry) (n : Device (ℕ → Word) ℕ) (fcg fbg : ℕ) : Prop :=
  ∀ k, groupCell g n fcg fbg k = none

theorem GroupErased.holds (h : GroupErased g n fcg fbg) : GroupHolds g n fcg fbg [] :=
  ⟨fun _ _ hx => absurd hx (by simp), fun k _ _ => h k⟩

theorem eraseGroup_prefix (hn : Fits g n) (hf : fcg < g.numFcg) (hb : fbg < g.nblk) {m : ℕ}
    (hm : m ≤ g.deg) :
    let n' := (List.range m).foldl
      (fun n i => (nandErase n ((fcg * g.deg + i : ℕ) : ℤ) fbg).1) n
    Fits g n' ∧ ∀ bank blk page, n'.cell bank blk page =
      if (fcg * g.deg ≤ bank ∧ bank < fcg * g.deg + m) ∧ blk = fbg then none
      else n.cell bank blk page := by
  induction m with
  | zero =>
    refine ⟨hn, fun bank blk page => ?_⟩
    rw [if_neg (by omega)]
    rfl
  | succ m ih =>
    obtain ⟨hfit, hcell⟩ := ih (by omega)
    rw [List.range_succ, List.foldl_append]
    dsimp only [List.foldl_cons, List.foldl_nil] at hfit hcell ⊢
    have hbank : fcg * g.deg + m < g.nbank :=
      lt_of_lt_of_le (page_lt hf (by omega : m < g.deg)) (Nat.div_mul_le_self _ _)
    have he := (nandErase_eq (hbank.trans_eq hfit.nbanks.symm) (hb.trans_eq hfit.nblks.symm)).1
    refine ⟨hfit.erased he, fun bank blk page => ?_⟩
    rw [he.cell, hcell]
    by_cases hblk : blk = fbg
    · by_cases hlast : bank = fcg * g.deg + m
      · rw [if_pos ⟨hlast, hblk⟩, if_pos ⟨by omega, hblk⟩]
      · rw [if_neg fun hc => hlast hc.1]
        congr 1
        simp only [hblk, and_true, eq_iff_iff]
        omega
    · rw [if_neg fun hc => hblk hc.2, if_neg fun hc => hblk hc.2, if_neg fun hc => hblk hc.2]

theorem eraseGroup_spec (hn : Fits g n) (hf : fcg < g.numFcg) (hb : fbg < g.nblk) :
    Fits g (eraseGroup g n fcg fbg) ∧ GroupErased g (eraseGroup g n fcg fbg) fcg fbg ∧
      ∀ fcg' fbg' k', ¬ (fcg' = fcg ∧ fbg' = fbg) →
        groupCell g (eraseGroup g n fcg fbg) fcg' fbg' k' = groupCell g n fcg' fbg' k' := by
  obtain ⟨hfit, hcell⟩ := eraseGroup_prefix hn hf hb le_rfl
  refine ⟨hfit, fun k => ?_, fun fcg' fbg' k' hne => ?_⟩
  · unfold groupCell
    rw [eraseGroup, hcell, if_pos]
    have := Nat.mod_lt k g.deg_pos
    omega
  · unfold groupCell
    rw [eraseGroup, hcell, if_neg]
    rintro ⟨⟨h1, h2⟩, rfl⟩
    have hmod := Nat.mod_lt k' g.deg_pos
    obtain ⟨j, hj⟩ : ∃ j, fcg' * g.deg + k' % g.deg = fcg * g.deg + j :=
      ⟨_, (Nat.add_sub_cancel' h1).symm⟩
    exact hne ⟨(page_inj hmod (by omega) hj).1, rfl⟩

theorem readPage_holds {s : Dev} {zone j : ℕ} (h : GroupHolds g s.nand fcg fbg xs)
    (hj : j < g.zoneSize) (hx : 8 * (j / 8) + 8 ≤ xs.length) (tmp : ℕ → Word) :
    ∀ i < 8, xs[8 * (j / 8) + i]? = some (readPage g s fcg fbg (g.slba zone + j) tmp i) := by
  obtain ⟨pg, hpg, hdata⟩ := h.full (j / 8) (Geometry.div_eight_lt hj) hx
  have hread : readPage g s fcg fbg (g.slba zone + j) tmp = pg.data := by
    unfold readPage
    rw [Geometry.lbaToBank_add, Geometry.lbaToPage_add zone hj, nandRead_some hpg]
  rw [hread]
  exact hdata

end Groups

end Zns
