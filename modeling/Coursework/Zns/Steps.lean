import Coursework.Zns.Copies

/-! What each call does to the views of the zones. -/
namespace Zns
open Nand Paging

variable {g : Geometry} {s : Dev} {vs : ℕ → View} {z b c : ℕ} {v : View} {xs old : List Word}
  {tmp : ℕ → Word} {lba : ℕ} {data : List Word}

/-- Every zone is empty at first. -/
theorem znsInit_inv {mem : ℕ → Page (ℕ → Word) ℕ} {slots : ℕ → ℕ → ℤ}
    (h : znsInit g mem slots = some s) : Inv g s fun _ => .empty := by
  obtain ⟨n, hn, rfl⟩ := Option.map_eq_some_iff.1 h
  obtain ⟨hnbanks, hnblks, hnpages, hcell⟩ := cell_nandInit hn
  have hqueue (fcg : ℕ) : Circular.Holds g.nblk (queueInit g (slots fcg))
      ((List.range g.nblk).map Nat.cast) := by
    have hall := @Circular.Holds.pushAll _ _ _ _ (Circular.holds_empty g.nblk_pos (slots fcg))
      ((List.range g.nblk).map Nat.cast) (by simp)
    rw [List.foldl_map, List.nil_append] at hall
    exact hall
  refine ⟨⟨by exact_mod_cast hnbanks, by exact_mod_cast hnblks, by exact_mod_cast hnpages⟩,
    fun z _ => ⟨rfl, rfl, rfl, rfl, fun log b xs hg => ?_, fun i hi => ?_, trivial⟩,
    fun fcg _ => ⟨List.range g.nblk, hqueue fcg, Custody.init List.nodup_range fun o => ?_,
      fun b _ k => hcell _ _ _⟩, fun c hc => absurd hc List.not_mem_nil⟩
  · cases log <;> cases hg
  · exact absurd hi (Nat.not_lt_zero i)
  · unfold owner
    split
    · cases o.2 <;> rfl
    · rfl

namespace Shows

theorem of_empty (h : Shows g s z v) (hst : s.state z = .empty) : v = .empty := by
  have hstate := h.state.symm.trans hst
  cases v with
  | empty => rfl
  | written b xs =>
    change (if xs.length = g.zoneSize then ZoneState.full else .opened) = .empty at hstate
    split at hstate <;> cases hstate
  | merging b old c xs => cases hstate

theorem of_opened (h : Shows g s z v) (hst : s.state z = .opened) :
    ∃ b xs, v = .written b xs ∧ xs.length < g.zoneSize := by
  have hstate := h.state.symm.trans hst
  have hsized := h.sized
  cases v with
  | empty => cases hstate
  | written b xs =>
    change (if xs.length = g.zoneSize then ZoneState.full else .opened) = .opened at hstate
    change xs.length ≤ g.zoneSize at hsized
    refine ⟨b, xs, rfl, lt_of_le_of_ne hsized fun he => ?_⟩
    rw [if_pos he] at hstate
    cases hstate
  | merging b old c xs => cases hstate

theorem of_full (h : Shows g s z v) (hst : s.state z = .full) :
    ∃ b xs, v = .written b xs ∧ xs.length = g.zoneSize := by
  have hstate := h.state.symm.trans hst
  cases v with
  | empty => cases hstate
  | written b xs =>
    refine ⟨b, xs, rfl, ?_⟩
    by_contra he
    change (if xs.length = g.zoneSize then ZoneState.full else .opened) = .full at hstate
    rw [if_neg he] at hstate
    cases hstate
  | merging b old c xs => cases hstate

theorem of_tlOpen (h : Shows g s z v) (hst : s.state z = .tlOpen) :
    ∃ b old c xs, v = .merging b old c xs := by
  have hstate := h.state.symm.trans hst
  cases v with
  | empty => cases hstate
  | written b xs =>
    change (if xs.length = g.zoneSize then ZoneState.full else .opened) = .tlOpen at hstate
    split at hstate <;> cases hstate
  | merging b old c xs => exact ⟨b, old, c, xs, rfl⟩

end Shows

theorem Inv.znsReset_cases (h : Inv g s vs) (hz : g.lbaToZone lba < g.maxZone) :
    (znsReset g s lba).1 = -1 ∧ (znsReset g s lba).2 = s ∨
    (znsReset g s lba).1 = 0 ∧ (∃ b xs, vs (g.lbaToZone lba) = .written b xs ∧
      xs.length = g.zoneSize) ∧
      Inv g (znsReset g s lba).2 (Function.update vs (g.lbaToZone lba) .empty) := by
  by_cases hst : s.state (g.lbaToZone lba) = .full
  · obtain ⟨b, xs, hv, hlen⟩ := (h.shows _ hz).of_full hst
    refine .inr ⟨?_, ⟨b, xs, hv, hlen⟩, (h.reset lba hz hv hlen).1⟩
    unfold Zns.znsReset
    rw [if_neg (not_not.2 hst)]
  · left
    unfold Zns.znsReset
    rw [if_pos hst]
    exact ⟨rfl, rfl⟩

/-- A write to a zone that is not TL-open stores the sectors at the write pointer, or changes
nothing. -/
theorem Inv.znsWrite_cases (h : Inv g s vs) (tmp : ℕ → Word) (hc : Counted g s)
    (hin : InZone g lba data.length) (hst : s.state (g.lbaToZone lba) ≠ .tlOpen) :
    (znsWrite g s tmp lba data).1 = -1 ∧ (znsWrite g s tmp lba data).2 = s ∨
    (znsWrite g s tmp lba data).1 = 0 ∧
      lba = g.slba (g.lbaToZone lba) + (vs (g.lbaToZone lba)).data.length ∧
      ∃ b, Inv g (znsWrite g s tmp lba data).2 (Function.update vs (g.lbaToZone lba)
        (.written b ((vs (g.lbaToZone lba)).data ++ data))) := by
  have hlba := lba_zone (g := g) lba
  obtain ⟨hz, hle⟩ := hin
  generalize hzone : g.lbaToZone lba = z at hst hlba hz
  have hs := h.shows z hz
  unfold Zns.znsWrite
  rw [hzone]
  dsimp only
  cases hstate : s.state z with
  | empty =>
    dsimp only
    have hv := hs.of_empty hstate
    by_cases hno : lba ≠ g.slba z ∨ s.openZoneCnt ≥ g.maxOpen
    · rw [if_pos hno]
      exact .inl ⟨rfl, rfl⟩
    · rw [if_neg hno]
      rw [not_or, not_not, not_le] at hno
      obtain ⟨b, hopen⟩ := h.openZone hc hz hno.2 hv
      have hwp : lba = (Zns.openZone g s z).wp z := by
        rw [(openZone_control s z).2.1, Function.update_self]
        exact hno.1
      have hfill := hopen.fill hz data (by
        rw [Function.update_self]
        change 0 + data.length ≤ g.zoneSize
        omega)
      rw [Function.update_self, Function.update_idem] at hfill
      unfold writeOpen
      rw [if_neg (not_not.2 hwp), writeData_eq hwp, hv]
      exact .inr ⟨rfl, hno.1, b, hfill⟩
  | opened =>
    dsimp only
    obtain ⟨b, xs, hv, hlen⟩ := hs.of_opened hstate
    have hwp := hs.wp
    rw [hv] at hwp ⊢
    change s.wp z = g.slba z + xs.length at hwp
    unfold writeOpen
    by_cases hne : lba = s.wp z
    · have hfill := h.fill hz data (by
        rw [hv]
        change xs.length + data.length ≤ g.zoneSize
        omega)
      rw [hv] at hfill
      rw [if_neg (not_not.2 hne), writeData_eq hne]
      exact .inr ⟨rfl, hne.trans hwp, b, hfill⟩
    · rw [if_pos hne]
      exact .inl ⟨rfl, rfl⟩
  | full => exact .inl ⟨rfl, rfl⟩
  | tlOpen => exact absurd hstate hst

/-- A write that is accepted by a TL-open zone leaves a sector after it that is not copied. -/
def StaysOpen (g : Geometry) (s : Dev) : Op → Prop
  | .write _ lba data =>
    s.state (g.lbaToZone lba) = .tlOpen → lba = s.wp (g.lbaToZone lba) →
    (∀ i < data.length, s.validMap (g.lbaToZone lba) ((lba + i) % g.zoneSize) ≠ 1) →
    ∃ m < g.zoneSize, lba % g.zoneSize + data.length ≤ m ∧ s.validMap (g.lbaToZone lba) m ≠ 1
  | _ => True

/-- A write to a TL-open zone stores the sectors and copies the valid ones after them, or changes
nothing. -/
theorem Inv.znsWrite_tlOpen (h : Inv g s vs) (hz : z < g.maxZone) (hzone : g.lbaToZone lba = z)
    (hst : s.state z = .tlOpen) (hstay : StaysOpen g s (.write tmp lba data))
    (hv : vs z = .merging b old c xs) :
    (znsWrite g s tmp lba data).1 = -1 ∧ (znsWrite g s tmp lba data).2 = s ∨
    (znsWrite g s tmp lba data).1 = 0 ∧ lba = g.slba z + xs.length ∧
      (∀ i < data.length, s.validMap z (xs.length + i) ≠ 1) ∧
      ∃ m < g.zoneSize, xs.length + data.length ≤ m ∧ s.validMap z m ≠ 1 ∧
        (∀ j, xs.length + data.length ≤ j → j < m → s.validMap z j = 1) ∧
        Inv g (znsWrite g s tmp lba data).2 (Function.update vs z (.merging b old c
          (xs ++ data ++ (old.drop (xs.length + data.length)).take
            (m - (xs.length + data.length))))) := by
  have hs := h.shows z hz
  rw [hv] at hs
  have hwp : s.wp z = g.slba z + xs.length := hs.wp
  obtain ⟨hlen, hlt⟩ : old.length = g.zoneSize ∧ xs.length < g.zoneSize := hs.sized
  unfold Zns.znsWrite
  rw [hzone]
  dsimp only
  rw [hst]
  dsimp only
  rcases writeTlOpen_cases s tmp z lba data with he | ⟨hne, hfree, he⟩
  · rw [he]
    exact .inl ⟨rfl, rfl⟩
  have hmod (i : ℕ) (hi : xs.length + i < g.zoneSize) : (lba + i) % g.zoneSize = xs.length + i := by
    rw [hne, hwp, Nat.add_assoc, Geometry.slba_add_mod hi]
  have hstay' : ∃ m < g.zoneSize, lba % g.zoneSize + data.length ≤ m ∧ s.validMap z m ≠ 1 := by
    subst hzone
    exact hstay hst hne hfree
  rw [show lba % g.zoneSize = xs.length from hmod 0 hlt] at hstay'
  obtain ⟨m, hm, ⟨hmle, hm1⟩, hfirst⟩ := exists_first hstay'
  have hfill := h.fill hz data (by
    rw [hv]
    change xs.length + data.length < g.zoneSize
    omega)
  rw [hv] at hfill
  have hvalid : ∀ j, xs.length + data.length ≤ j → j < m → s.validMap z j = 1 := by
    intro j h1 h2
    by_contra hj
    exact hfirst j h2 ⟨h1, hj⟩
  have hend : g.slba z + g.zoneSize - (s.wp z + data.length) =
      g.zoneSize - (xs.length + data.length) := by omega
  have hcopy := hfill.copyOff (n := g.zoneSize - (xs.length + data.length)) (m := m) hz
    (Function.update_self ..) hlen
    (by rw [List.length_append]; omega) hm (by rwa [fill_validMap])
    (fun j h1 h2 => by
      rw [List.length_append] at h1
      rw [fill_validMap]
      exact hvalid j h1 h2) tmp
  rw [Function.update_idem, List.length_append] at hcopy
  rw [he, hend, hs.fbg]
  refine .inr ⟨rfl, hne.trans hwp, fun i hi => ?_, m, hm, hmle, hm1, hvalid, hcopy⟩
  rw [← hmod i (by omega)]
  exact hfree i hi

/-- `zns_izc` copies the listed sectors and clears the source, or changes nothing. -/
theorem Inv.znsIzc_cases (h : Inv g s vs) (tmp : ℕ → Word) (hc : Counted g s)
    {src dest : ℕ} {list : List ℕ} (hsrc : src < g.maxZone) (hdest : dest < g.maxZone)
    (hlen : list.length ≤ g.zoneSize) (hlist : ∀ c ∈ list, c < g.zoneSize) :
    (znsIzc g s tmp src dest list).1 = -1 ∧ (znsIzc g s tmp src dest list).2 = s ∨
    (znsIzc g s tmp src dest list).1 = 0 ∧ src ≠ dest ∧ vs dest = .empty ∧
      ∃ b xs b', vs src = .written b xs ∧ xs.length = g.zoneSize ∧
        Inv g (znsIzc g s tmp src dest list).2 (Function.update (Function.update vs dest
          (.written b' (list.map fun c => xs[c]?.getD blank))) src .empty) ∧
        GroupErased g (znsIzc g s tmp src dest list).2.nand (g.zoneToFcg src) b := by
  unfold Zns.znsIzc
  by_cases hno : s.openZoneCnt = g.maxOpen ∨ s.state src ≠ .full ∨ s.state dest ≠ .empty ∨
      src = dest
  · rw [if_pos hno]
    exact .inl ⟨rfl, rfl⟩
  · rw [if_neg hno]
    simp only [not_or, not_not] at hno
    obtain ⟨hcnt, hfull, hempty, hne⟩ := hno
    obtain ⟨b, xs, hv, hxs⟩ := (h.shows src hsrc).of_full hfull
    have hfbg := (h.shows src hsrc).fbg
    rw [hv] at hfbg
    change s.z2Fbg src = b at hfbg
    have hvd := (h.shows dest hdest).of_empty hempty
    obtain ⟨b', hopen⟩ := h.openZone hc hdest (hc.lt hcnt) hvd
    -- The log entry of the destination was `-1`, as that of every zone without a log group.
    have hlog : { Zns.openZone g s dest with
        z2LogFbg := Function.update (Zns.openZone g s dest).z2LogFbg dest (-1) } =
        Zns.openZone g s dest := by
      have hold := (hopen.shows dest hdest).log
      rw [Function.update_self] at hold
      rw [Function.update_eq_self_iff.2 hold.symm]
    have hcopy := hopen.copySectors hsrc hdest hne
      (by rw [Function.update_of_ne hne]; exact hv) hxs hlist
      (by
        rw [Function.update_self]
        change 0 + list.length ≤ g.zoneSize
        omega) tmp
    rw [Function.update_self, Function.update_idem] at hcopy
    have hzone : g.lbaToZone (src * g.zoneSize) = src :=
      Geometry.slba_add_div (j := 0) g.zoneSize_pos
    obtain ⟨hreset, herased⟩ := hcopy.reset (src * g.zoneSize) (by rwa [hzone])
      (by rw [hzone, Function.update_of_ne hne]; exact hv) hxs
    rw [hzone] at hreset herased
    dsimp only
    rw [hlog, hfbg]
    exact .inr ⟨rfl, hne, hvd, b, xs, b', hv, hxs, hreset, herased⟩

/-- A TL-open that leaves out a sector copies the sectors before the first one left out, or changes
nothing. -/
theorem Inv.znsTlOpen_cases (h : Inv g s vs) (hc : Counted g s) {validArr : ℕ → ℕ}
    (hz : z < g.maxZone) (hp : PartlyValid g s (.tlOpen tmp z validArr)) :
    (znsTlOpen g s tmp z validArr).1 = -1 ∧ (znsTlOpen g s tmp z validArr).2 = s ∨
    (znsTlOpen g s tmp z validArr).1 = 0 ∧
      ∃ b xs c m, vs z = .written b xs ∧ xs.length = g.zoneSize ∧ m < g.zoneSize ∧
        validArr m = 0 ∧ (∀ j < m, validArr j ≠ 0) ∧
        Inv g (znsTlOpen g s tmp z validArr).2
          (Function.update vs z (.merging b xs c (xs.take m))) := by
  unfold Zns.znsTlOpen
  by_cases hno : s.openZoneCnt = g.maxOpen ∨ s.state z ≠ .full
  · rw [if_pos hno]
    exact .inl ⟨rfl, rfl⟩
  · rw [if_neg hno]
    rw [not_or, not_not] at hno
    obtain ⟨b, xs, hv, hxs⟩ := (h.shows z hz).of_full hno.2
    have hfbg := (h.shows z hz).fbg
    rw [hv] at hfbg
    change s.z2Fbg z = b at hfbg
    obtain ⟨m, hm, h0, hfirst⟩ := exists_first (hp hno.1 hno.2)
    obtain ⟨c, hopen⟩ := h.openLog hc hz (hc.lt hno.1) hv hxs validArr
    have hmap : (Zns.openLog g s z validArr).validMap z = validArr := by
      rw [(openLog_control s z validArr).2.2.2, Function.update_self]
    have hcopy := hopen.copyValid (n := g.zoneSize) (i := 0) (m := m) hz (Function.update_self ..)
      hxs ⟨Nat.zero_le _, by omega⟩ hm (by rwa [hmap])
      (fun j _ hj => by rw [hmap]; exact hfirst j hj) tmp
    rw [Function.update_idem] at hcopy
    dsimp only
    rw [hfbg]
    exact .inr ⟨rfl, b, xs, c, m, hv, hxs, hm, h0, hfirst, hcopy⟩

end Zns
