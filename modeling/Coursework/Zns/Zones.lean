import Coursework.Lib.Custody
import Coursework.Zns.Count

/-! What the zones hold: the view of a zone has the sectors stored in it and the block groups
they lie in, and every call keeps the device in step with the views of its zones. -/
namespace Zns
open Nand Paging

/-- A zone as its block groups show it. `merging` has the group of the old contents and the log
group. -/
inductive View where
  | empty
  | written (fbg : ℕ) (xs : List Word)
  | merging (fbg : ℕ) (old : List Word) (log : ℕ) (xs : List Word)

/-- The number of a group in the tables of the simulator. -/
def groupNo : Option (ℕ × List Word) → ℤ
  | none => -1
  | some (b, _) => b

namespace View

/-- The group of a zone, or its log group, and what it holds. -/
def group : View → Bool → Option (ℕ × List Word)
  | written b xs, false => some (b, xs)
  | merging b old _ _, false => some (b, old)
  | merging _ _ c xs, true => some (c, xs)
  | _, _ => none

/-- The sectors below the write pointer. -/
def data : View → List Word
  | empty => []
  | written _ xs => xs
  | merging _ _ _ xs => xs

/-- The group that the write pointer is in. -/
def isLog : View → Bool
  | merging .. => true
  | _ => false

variable (g : Geometry)

def state : View → ZoneState
  | empty => .empty
  | written _ xs => if xs.length = g.zoneSize then .full else .opened
  | merging .. => .tlOpen

/-- The lengths that occur. -/
def Sized : View → Prop
  | empty => True
  | written _ xs => xs.length ≤ g.zoneSize
  | merging _ old _ xs => old.length = g.zoneSize ∧ xs.length < g.zoneSize

/-- There is room for `n` more sectors; a zone that is TL-open must not be filled. -/
def Room (n : ℕ) : View → Prop
  | empty => False
  | written _ xs => xs.length + n ≤ g.zoneSize
  | merging _ _ _ xs => xs.length + n < g.zoneSize

/-- Sectors added at the write pointer. -/
def append (v : View) (ys : List Word) : View :=
  match v with
  | empty => empty
  | written b xs => written b (xs ++ ys)
  | merging b old c xs => merging b old c (xs ++ ys)

@[simp] theorem append_nil (v : View) : v.append [] = v := by
  cases v <;> simp [append]

theorem append_append (v : View) (ys zs : List Word) :
    (v.append ys).append zs = v.append (ys ++ zs) := by
  cases v <;> simp [append]

@[simp] theorem append_isLog (v : View) (ys : List Word) : (v.append ys).isLog = v.isLog := by
  cases v <;> rfl

theorem append_group_fst (v : View) (ys : List Word) (log : Bool) :
    ((v.append ys).group log).map Prod.fst = (v.group log).map Prod.fst := by
  cases v <;> cases log <;> rfl

theorem append_groupNo (v : View) (ys : List Word) (log : Bool) :
    groupNo ((v.append ys).group log) = groupNo (v.group log) := by
  cases v <;> cases log <;> rfl

end View

/-- Zone `z` is as its view says. -/
structure Shows (g : Geometry) (s : Dev) (z : ℕ) (v : View) : Prop where
  state : s.state z = v.state g
  wp : s.wp z = g.slba z + v.data.length
  fbg : s.z2Fbg z = groupNo (v.group false)
  log : s.z2LogFbg z = groupNo (v.group true)
  group : ∀ log b xs, v.group log = some (b, xs) →
    b < g.nblk ∧ GroupHolds g s.nand (g.zoneToFcg z) b xs
  buffer : ∀ i < v.data.length % 8, v.data[8 * (v.data.length / 8) + i]? = some (s.buffer z i)
  sized : v.Sized g

/-- The descriptor, the tables and the buffer of a zone are the same in two states. -/
structure SameZone (s s' : Dev) (z : ℕ) : Prop where
  state : s'.state z = s.state z
  wp : s'.wp z = s.wp z
  fbg : s'.z2Fbg z = s.z2Fbg z
  log : s'.z2LogFbg z = s.z2LogFbg z
  buffer : s'.buffer z = s.buffer z

/-- The zone, and which of its two tables, that has a group. -/
def owner (g : Geometry) (vs : ℕ → View) (fcg : ℕ) (o : ℕ × Bool) : Option ℕ :=
  if o.1 < g.maxZone ∧ g.zoneToFcg o.1 = fcg then ((vs o.1).group o.2).map Prod.fst else none

/-- The free queue of a channel group has the groups that no zone has, all of them erased. -/
structure Pool (g : Geometry) (s : Dev) (vs : ℕ → View) (fcg : ℕ) (l : List ℕ) : Prop where
  queue : Circular.Holds g.nblk (s.queue fcg) (l.map Nat.cast)
  custody : Custody (owner g vs fcg) l (List.range g.nblk)
  erased : ∀ b ∈ l, GroupErased g s.nand fcg b

/-- The device is as the views of its zones say. -/
structure Inv (g : Geometry) (s : Dev) (vs : ℕ → View) : Prop where
  fits : Fits g s.nand
  shows : ∀ z < g.maxZone, Shows g s z (vs z)
  pool : ∀ fcg < g.numFcg, ∃ l, Pool g s vs fcg l
  codes : ∀ c ∈ s.codes, c = .success

variable {g : Geometry} {s s' : Dev} {vs : ℕ → View} {z fcg b : ℕ} {v : View} {l : List ℕ}

theorem zoneToFcg_lt (hz : z < g.maxZone) : g.zoneToFcg z < g.numFcg := by
  refine Nat.mod_lt z (Nat.pos_of_ne_zero fun h => ?_)
  rw [Geometry.maxZone, ← Geometry.numFcg, h, Nat.zero_mul] at hz
  exact Nat.not_lt_zero z hz

theorem owner_self (hz : z < g.maxZone) (log : Bool) :
    owner g vs (g.zoneToFcg z) (z, log) = ((vs z).group log).map Prod.fst :=
  if_pos ⟨hz, rfl⟩

theorem owner_update_other (hne : fcg ≠ g.zoneToFcg z) :
    owner g (Function.update vs z v) fcg = owner g vs fcg := by
  funext ⟨z', log⟩
  unfold owner
  dsimp only
  split
  · next h =>
    rw [Function.update_of_ne]
    rintro rfl
    exact hne h.2.symm
  · rfl

theorem owner_update_same
    (h : ∀ log, (v.group log).map Prod.fst = ((vs z).group log).map Prod.fst) :
    owner g (Function.update vs z v) fcg = owner g vs fcg := by
  funext ⟨z', log⟩
  unfold owner
  dsimp only
  by_cases he : z' = z
  · subst he
    rw [Function.update_self, h]
  · rw [Function.update_of_ne he]

theorem owner_update (hz : z < g.maxZone) (log : Bool)
    (h : (v.group !log).map Prod.fst = ((vs z).group !log).map Prod.fst) :
    owner g (Function.update vs z v) (g.zoneToFcg z) =
      Function.update (owner g vs (g.zoneToFcg z)) (z, log) ((v.group log).map Prod.fst) := by
  funext ⟨z', log'⟩
  by_cases he : (z', log') = (z, log)
  · obtain ⟨rfl, rfl⟩ := Prod.ext_iff.1 he
    rw [Function.update_self, owner_self hz, Function.update_self]
  · rw [Function.update_of_ne he]
    by_cases hzz : z' = z
    · subst hzz
      have hlog : log' = !log := by
        cases log <;> cases log' <;> simp_all
      rw [owner_self hz, owner_self hz, Function.update_self, hlog, h]
    · unfold owner
      rw [Function.update_of_ne hzz]

theorem Shows.frame (h : Shows g s z v) (hs : SameZone s s' z)
    (hcell : ∀ log b xs, v.group log = some (b, xs) → ∀ k,
      groupCell g s'.nand (g.zoneToFcg z) b k = groupCell g s.nand (g.zoneToFcg z) b k) :
    Shows g s' z v where
  state := hs.state.trans h.state
  wp := hs.wp.trans h.wp
  fbg := hs.fbg.trans h.fbg
  log := hs.log.trans h.log
  group log b xs hg := ⟨(h.group log b xs hg).1, (h.group log b xs hg).2.congr (hcell log b xs hg)⟩
  buffer := by
    rw [hs.buffer]
    exact h.buffer
  sized := h.sized

/-- A step that changes one zone, and one group that no other zone has. -/
theorem Inv.replace (h : Inv g s vs) (hfits : Fits g s'.nand)
    (hsame : ∀ z', z' ≠ z → SameZone s s' z')
    (hqueue : ∀ fcg, fcg ≠ g.zoneToFcg z → s'.queue fcg = s.queue fcg)
    (hfree : ∀ z' log, z' ≠ z → owner g vs (g.zoneToFcg z) (z', log) ≠ some b)
    (hcell : ∀ fcg' b' k, ¬ (fcg' = g.zoneToFcg z ∧ b' = b) →
      groupCell g s'.nand fcg' b' k = groupCell g s.nand fcg' b' k)
    (hcodes : ∀ c ∈ s'.codes, c = .success) (hshow : Shows g s' z v)
    (hpool : ∃ l, Pool g s' (Function.update vs z v) (g.zoneToFcg z) l) :
    Inv g s' (Function.update vs z v) := by
  refine ⟨hfits, fun z' hz' => ?_, fun fcg hf => ?_, hcodes⟩
  · by_cases he : z' = z
    · rw [he, Function.update_self]
      exact hshow
    · rw [Function.update_of_ne he]
      refine (h.shows z' hz').frame (hsame z' he) fun log b' xs hg k => hcell _ _ _ ?_
      rintro ⟨hfcg, rfl⟩
      refine hfree z' log he ?_
      rw [← hfcg, owner_self hz', hg]
      rfl
  · by_cases he : fcg = g.zoneToFcg z
    · rw [he]
      exact hpool
    · obtain ⟨l, hl⟩ := h.pool fcg hf
      refine ⟨l, ?_, ?_, fun b' hb' k => ?_⟩
      · rw [hqueue fcg he]
        exact hl.queue
      · rw [owner_update_other he]
        exact hl.custody
      · rw [hcell fcg b' k fun hc => he hc.1]
        exact hl.erased b' hb' k

/-! One sector stored at the write pointer. -/

/-- The block group that `buffer_flush` programs. -/
def flushFbg (s : Dev) (z : ℕ) : ℤ := if s.state z = .tlOpen then s.z2LogFbg z else s.z2Fbg z

/-- The call of `nand_write` in `buffer_flush`. -/
def flushWrite (g : Geometry) (s : Dev) (z : ℕ) : Device (ℕ → Word) ℕ × Code :=
  nandWrite s.nand (g.lbaToBank (g.zoneToFcg z) (s.wp z - 8)) (flushFbg s z)
    (g.lbaToPage (s.wp z - 8)) (s.buffer z) (s.wp z - 8)

theorem bufferFlush_nand (s : Dev) (z : ℕ) :
    (bufferFlush g s z).nand = (flushWrite g s z).1 ∧
    (bufferFlush g s z).codes = (flushWrite g s z).2 :: s.codes ∧
    (bufferFlush g s z).buffer = Function.update s.buffer z fun _ => 0 := by
  unfold bufferFlush
  dsimp only
  split <;> exact ⟨rfl, rfl, rfl⟩

/-- A sector stored in a group that is not full. -/
structure Stored (g : Geometry) (s s' : Dev) (z b : ℕ) (xs : List Word) : Prop where
  fits : Fits g s'.nand
  group : GroupHolds g s'.nand (g.zoneToFcg z) b xs
  others : ∀ fcg' b' k, ¬ (fcg' = g.zoneToFcg z ∧ b' = b) →
    groupCell g s'.nand fcg' b' k = groupCell g s.nand fcg' b' k
  tail : ∀ i < xs.length % 8, xs[8 * (xs.length / 8) + i]? = some (s'.buffer z i)
  buffers : ∀ z', z' ≠ z → s'.buffer z' = s.buffer z'
  codes : (∀ c ∈ s.codes, c = .success) → ∀ c ∈ s'.codes, c = .success

theorem getElem?_snoc_tail {xs : List Word} {buf : ℕ → Word} {w : Word} {i : ℕ}
    (htail : ∀ i < xs.length % 8, xs[8 * (xs.length / 8) + i]? = some (buf i))
    (hi : i < xs.length % 8 + 1) :
    (xs ++ [w])[8 * (xs.length / 8) + i]? =
      some (Function.update buf (xs.length % 8) w i) := by
  by_cases he : i = xs.length % 8
  · rw [he, Nat.div_add_mod, List.getElem?_concat_length, Function.update_self]
  · rw [List.getElem?_append_left (by omega), Function.update_of_ne he]
    exact htail i (by omega)

theorem putSector_stored {xs : List Word} (hfits : Fits g s.nand) (hf : g.zoneToFcg z < g.numFcg)
    (hb : b < g.nblk) (hgroup : GroupHolds g s.nand (g.zoneToFcg z) b xs)
    (hwp : s.wp z = g.slba z + xs.length) (hlen : xs.length < g.zoneSize)
    (hfbg : flushFbg s z = b)
    (htail : ∀ i < xs.length % 8, xs[8 * (xs.length / 8) + i]? = some (s.buffer z i)) (w : Word) :
    Stored g s (putSector g s z (s.wp z % 8) w) z b (xs ++ [w]) := by
  have hmod : s.wp z % 8 = xs.length % 8 := by rw [hwp, Geometry.add_mod_eight]
  have hmod' : (s.wp z + 1) % 8 = (xs.length + 1) % 8 := by omega
  have hlen' : (xs ++ [w]).length = xs.length + 1 := by simp
  have hsnoc := @getElem?_snoc_tail xs (s.buffer z) w
  unfold putSector
  simp only [Function.update_self, hmod', hmod]
  by_cases hend : (xs.length + 1) % 8 = 0
  · rw [if_pos hend]
    obtain ⟨hnand, hcodes, hbuffer⟩ := bufferFlush_nand (g := g)
      { s with
        buffer := Function.update s.buffer z (Function.update (s.buffer z) (xs.length % 8) w)
        wp := Function.update s.wp z (s.wp z + 1) } z
    obtain ⟨n', hwrite, hp⟩ := hgroup.nandWrite hfits hf hb (Geometry.div_eight_lt hlen)
      (Function.update (s.buffer z) (xs.length % 8) w) (g.slba z + (xs.length - 7))
    have hflush : flushWrite g { s with
        buffer := Function.update s.buffer z (Function.update (s.buffer z) (xs.length % 8) w)
        wp := Function.update s.wp z (s.wp z + 1) } z = (n', .success) := by
      have hstart : s.wp z + 1 - 8 = g.slba z + (xs.length - 7) := by omega
      have hdiv : (xs.length - 7) / 8 = xs.length / 8 := by omega
      unfold flushWrite
      dsimp only
      rw [Function.update_self, Function.update_self, hstart, Geometry.lbaToBank_add,
        Geometry.lbaToPage_add z (by omega), hdiv]
      rw [← hwrite, ← hfbg]
      rfl
    rw [hflush] at hnand hcodes
    refine ⟨?_, ?_, ?_, ?_, ?_, ?_⟩
    · rw [hnand]
      exact hfits.programmed hp
    · rw [hnand]
      exact hgroup.program w hend hp fun i hi => hsnoc htail (by omega)
    · intro fcg' b' k hne
      rw [hnand, groupCell_programmed hp, if_neg fun hc => hne ⟨hc.1, hc.2.1⟩]
    · rw [hlen', hend]
      exact fun i hi => absurd hi (Nat.not_lt_zero i)
    · intro z' hz'
      rw [hbuffer, Function.update_of_ne hz']
      exact Function.update_of_ne hz' _ _
    · intro hc c hmem
      rw [hcodes] at hmem
      rcases List.mem_cons.1 hmem with rfl | hmem
      · rfl
      · exact hc c hmem
  · rw [if_neg hend]
    refine ⟨hfits, hgroup.snoc w hend, fun _ _ _ _ => rfl, ?_, ?_, fun hc => hc⟩
    · intro i hi
      rw [hlen'] at hi ⊢
      dsimp only
      rw [Function.update_self, show (xs.length + 1) / 8 = xs.length / 8 by omega]
      exact hsnoc htail (by omega)
    · intro z' hz'
      exact Function.update_of_ne hz' _ _

namespace View

theorem Room.group {n : ℕ} (h : v.Room g n) : ∃ b, v.group v.isLog = some (b, v.data) := by
  cases v with
  | empty => exact h.elim
  | written b xs => exact ⟨b, rfl⟩
  | merging b old c xs => exact ⟨c, rfl⟩

theorem Room.length_add_le {n : ℕ} (h : v.Room g n) : v.data.length + n ≤ g.zoneSize := by
  cases v with
  | empty => exact h.elim
  | written b xs => exact h
  | merging b old c xs => exact Nat.le_of_lt h

theorem Room.append {n : ℕ} {ys : List Word} (h : v.Room g (ys.length + n)) :
    (v.append ys).Room g n := by
  cases v with
  | empty => exact h
  | written b xs => simpa [Room, View.append, Nat.add_assoc] using h
  | merging b old c xs => simpa [Room, View.append, Nat.add_assoc] using h

theorem Room.mono {n m : ℕ} (h : v.Room g n) (hm : m ≤ n) : v.Room g m := by
  cases v with
  | empty => exact h
  | written b xs => exact (Nat.add_le_add_left hm _).trans h
  | merging b old c xs => exact (Nat.add_le_add_left hm _).trans_lt h

theorem Room.data_append {n : ℕ} (h : v.Room g n) (ys : List Word) :
    (v.append ys).data = v.data ++ ys := by
  cases v with
  | empty => exact h.elim
  | written b xs => rfl
  | merging b old c xs => rfl

theorem Room.group_append {n : ℕ} (h : v.Room g n) (ys : List Word) (log : Bool) :
    (v.append ys).group log =
      if log = v.isLog then (v.group log).map fun p => (p.1, p.2 ++ ys) else v.group log := by
  cases v with
  | empty => exact h.elim
  | written b xs => cases log <;> rfl
  | merging b old c xs => cases log <;> rfl

theorem Sized.append (h : v.Sized g) {ys : List Word} (hr : v.Room g ys.length) :
    (v.append ys).Sized g := by
  cases v with
  | empty => exact h
  | written b xs =>
    change (xs ++ ys).length ≤ g.zoneSize
    rw [List.length_append]
    exact hr
  | merging b old c xs =>
    refine ⟨h.1, ?_⟩
    rw [List.length_append]
    exact hr

end View

theorem Shows.flushFbg (h : Shows g s z v) (hr : v.Room g 1) :
    ∃ b, v.group v.isLog = some (b, v.data) ∧ flushFbg s z = b := by
  unfold Zns.flushFbg
  rw [h.state, h.log, h.fbg]
  cases v with
  | empty => exact hr.elim
  | written b xs =>
    refine ⟨b, rfl, if_neg ?_⟩
    change (if xs.length = g.zoneSize then ZoneState.full else .opened) ≠ .tlOpen
    split <;> decide
  | merging b old c xs => exact ⟨c, rfl, if_pos rfl⟩

/-- The state after a sector is stored, which is the last one of a zone that becomes full. -/
theorem Shows.state_put (h : Shows g s z v) (hr : v.Room g 1) (i : ℕ) (w : Word) :
    (putSector g s z i w).state = Function.update s.state z ((v.append [w]).state g) := by
  have hwp := h.wp
  have hstate := h.state
  rw [putSector_state]
  cases v with
  | empty => exact hr.elim
  | written b xs =>
    change xs.length + 1 ≤ g.zoneSize at hr
    change s.wp z = g.slba z + xs.length at hwp
    change s.state z = if xs.length = g.zoneSize then ZoneState.full else .opened at hstate
    change _ = Function.update s.state z
      (if (xs ++ [w]).length = g.zoneSize then ZoneState.full else .opened)
    rw [if_neg (by omega)] at hstate
    rw [List.length_append, List.length_singleton]
    by_cases hend : xs.length + 1 = g.zoneSize
    · rw [if_pos (by omega), if_pos hend]
    · rw [if_neg (by omega), if_neg hend, ← hstate, Function.update_eq_self]
  | merging b old c xs =>
    change xs.length + 1 < g.zoneSize at hr
    change s.wp z = g.slba z + xs.length at hwp
    rw [if_neg (by omega)]
    exact (Function.update_eq_self_iff.2 hstate.symm).symm

/-- One sector stored in a zone with room. -/
theorem Inv.put (h : Inv g s vs) (hz : z < g.maxZone) (hr : (vs z).Room g 1) (w : Word) :
    Inv g (putSector g s z (s.wp z % 8) w) (Function.update vs z ((vs z).append [w])) := by
  have hs := h.shows z hz
  obtain ⟨b, hgroup, hfbg⟩ := hs.flushFbg hr
  obtain ⟨hb, hholds⟩ := hs.group _ _ _ hgroup
  have hlen := hr.length_add_le
  have hown : owner g vs (g.zoneToFcg z) (z, (vs z).isLog) = some b := by
    rw [owner_self hz, hgroup]
    rfl
  obtain ⟨l, hl⟩ := h.pool _ (zoneToFcg_lt hz)
  have hst := putSector_stored h.fits (zoneToFcg_lt hz) hb hholds hs.wp (by omega) hfbg hs.buffer w
  have hstate := hs.state_put hr (s.wp z % 8) w
  refine h.replace (b := b) hst.fits (fun z' hne => ⟨?_, ?_, ?_, ?_, hst.buffers z' hne⟩)
    (fun fcg _ => by rw [putSector_queue]) (fun z' log hne ho => ?_) hst.others (hst.codes h.codes)
    ⟨?_, ?_, ?_, ?_, fun log b' xs hg => ?_, ?_, hs.sized.append hr⟩ ⟨l, ?_, ?_, fun b' hb' k => ?_⟩
  · rw [hstate, Function.update_of_ne hne]
  · rw [putSector_wp, Function.update_of_ne hne]
  · rw [putSector_z2Fbg]
  · rw [putSector_z2LogFbg]
  · exact hne (Prod.ext_iff.1 (hl.custody.inj ho hown)).1
  · rw [hstate, Function.update_self]
  · rw [putSector_wp, Function.update_self, hs.wp, hr.data_append, List.length_append,
      List.length_singleton, Nat.add_assoc]
  · rw [putSector_z2Fbg, View.append_groupNo, hs.fbg]
  · rw [putSector_z2LogFbg, View.append_groupNo, hs.log]
  · rw [hr.group_append] at hg
    split at hg
    · next he =>
      rw [he, hgroup] at hg
      obtain ⟨rfl, rfl⟩ := Prod.ext_iff.1 (Option.some.inj hg)
      exact ⟨hb, hst.group⟩
    · next he =>
      obtain ⟨hb', hholds'⟩ := hs.group _ _ _ hg
      refine ⟨hb', hholds'.congr fun k => hst.others _ _ _ ?_⟩
      rintro ⟨-, rfl⟩
      have hown' : owner g vs (g.zoneToFcg z) (z, log) = some b' := by
        rw [owner_self hz, hg]
        rfl
      exact he (Prod.ext_iff.1 (hl.custody.inj hown' hown)).2
  · rw [hr.data_append]
    exact hst.tail
  · rw [putSector_queue]
    exact hl.queue
  · rw [owner_update_same fun log => View.append_group_fst _ _ _]
    exact hl.custody
  · rw [hst.others _ _ _ fun hc => hl.custody.apart hown (hc.2 ▸ hb')]
    exact hl.erased b' hb' k

theorem Inv.fill (h : Inv g s vs) (hz : z < g.maxZone) (ws : List Word)
    (hr : (vs z).Room g ws.length) :
    Inv g (fill g s z ws) (Function.update vs z ((vs z).append ws)) := by
  induction ws generalizing s vs with
  | nil =>
    rw [View.append_nil, Function.update_eq_self]
    exact h
  | cons w ws ih =>
    rw [List.length_cons] at hr
    have hput := ih (h.put hz (hr.mono (by omega)) w) (by
      rw [Function.update_self]
      exact View.Room.append (by rwa [List.length_singleton, Nat.add_comm]))
    rw [Function.update_self, Function.update_idem, View.append_append] at hput
    exact hput

end Zns
