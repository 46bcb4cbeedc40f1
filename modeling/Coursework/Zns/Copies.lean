import Coursework.Zns.Calls

/-! The calls that store sectors: what the views of the zones are after them. -/
namespace Zns
open Nand Paging

variable {g : Geometry} {s : Dev} {vs : ℕ → View} {z b c : ℕ} {xs old : List Word}

theorem Inv.readPage (h : Inv g s vs) (hz : z < g.maxZone) (log : Bool)
    (hg : (vs z).group log = some (b, xs)) {j : ℕ} (hj : j < g.zoneSize)
    (hx : 8 * (j / 8) + 8 ≤ xs.length) (tmp : ℕ → Word) :
    readPage g s (g.zoneToFcg z) b (g.slba z + j) tmp (j % 8) = xs[j]?.getD blank := by
  have hread := @readPage_holds g _ b xs s z j ((h.shows z hz).group log b xs hg).2 hj hx tmp
    (j % 8) (Nat.mod_lt j (by omega))
  rw [Nat.div_add_mod] at hread
  rw [hread]
  rfl

theorem page_le_zoneSize {j : ℕ} (hj : j < g.zoneSize) : 8 * (j / 8) + 8 ≤ g.zoneSize := by
  rw [g.zoneSize_eq] at hj ⊢
  omega

theorem take_succ_getD {j : ℕ} (hj : j < old.length) :
    old.take j ++ [old[j]?.getD blank] = old.take (j + 1) := by
  rw [List.take_add_one, List.getElem?_eq_getElem hj]
  rfl

/-- The loop of `zns_izc`. -/
theorem Inv.copySectors {src dest : ℕ} (h : Inv g s vs) (hsrc : src < g.maxZone)
    (hdest : dest < g.maxZone) (hne : src ≠ dest) (hv : vs src = .written b xs)
    (hlen : xs.length = g.zoneSize) {list : List ℕ} (hlist : ∀ c ∈ list, c < g.zoneSize)
    (hr : (vs dest).Room g list.length) (tmp : ℕ → Word) :
    Inv g (copySectors g src dest (g.zoneToFcg src) b list tmp s)
      (Function.update vs dest ((vs dest).append (list.map fun c => xs[c]?.getD blank))) := by
  induction list generalizing s vs tmp with
  | nil =>
    rw [List.map_nil, View.append_nil, Function.update_eq_self]
    exact h
  | cons c list ih =>
    rw [List.length_cons] at hr
    have hc := hlist c List.mem_cons_self
    have hread := h.readPage hsrc false (by rw [hv]; rfl) hc
      (hlen ▸ page_le_zoneSize hc) tmp
    have hnext := ih (h.put hdest (hr.mono (by omega)) (xs[c]?.getD blank))
      (by rwa [Function.update_of_ne hne])
      (fun c' hc' => hlist c' (List.mem_cons_of_mem _ hc'))
      (by
        rw [Function.update_self]
        exact View.Room.append (by rwa [List.length_singleton, Nat.add_comm]))
      (Zns.readPage g s (g.zoneToFcg src) b (g.slba src + c) tmp)
    rw [Function.update_self, Function.update_idem, View.append_append] at hnext
    rw [Zns.copySectors]
    rw [Geometry.slba] at hread hnext
    rw [hread]
    exact hnext

/-- The loop of `zns_tl_open`, up to the first sector that is not valid. -/
theorem Inv.copyValid (h : Inv g s vs) (hz : z < g.maxZone) {n i m : ℕ}
    (hv : vs z = .merging b old c (old.take i)) (hlen : old.length = g.zoneSize)
    (hm : i ≤ m ∧ m < i + n) (hsize : m < g.zoneSize) (h0 : s.validMap z m = 0)
    (hvalid : ∀ j, i ≤ j → j < m → s.validMap z j ≠ 0) (tmp : ℕ → Word) :
    Inv g (copyValid g z b n i tmp s) (Function.update vs z (.merging b old c (old.take m))) := by
  induction n generalizing i s vs tmp with
  | zero => omega
  | succ n ih =>
    rw [Zns.copyValid]
    by_cases hi : i = m
    · subst hi
      rw [if_pos h0, ← hv, Function.update_eq_self]
      exact h
    · have hroom : (vs z).Room g 1 := by
        rw [hv]
        change (old.take i).length + 1 < g.zoneSize
        rw [List.length_take]
        omega
      have hput := h.put hz hroom (old[i]?.getD blank)
      have hread := h.readPage hz false (by rw [hv]; rfl) (by omega)
        (hlen ▸ page_le_zoneSize (by omega : i < g.zoneSize)) tmp
      have hview : (vs z).append [old[i]?.getD blank] = .merging b old c (old.take (i + 1)) := by
        rw [hv, ← take_succ_getD (by omega)]
        rfl
      rw [hview] at hput
      rw [if_neg (hvalid i le_rfl (by omega))]
      dsimp only
      rw [Geometry.slba] at hread
      rw [hread]
      have hstate := (hput.shows z hz).state
      rw [Function.update_self] at hstate
      rw [if_neg fun hc => by rw [hstate] at hc; cases hc.2]
      have hnext := @ih _ _ hput (i + 1) (Function.update_self ..)
        (by omega) (by rwa [putSector_validMap])
        (fun j h1 h2 => by
          rw [putSector_validMap]
          exact hvalid j (by omega) h2)
        (Zns.readPage g s (g.zoneToFcg z) b (z * g.zoneSize + i) tmp)
      rw [Function.update_idem] at hnext
      exact hnext

/-- The last loop of `zns_write`, up to the first sector that is not valid. -/
theorem Inv.copyOff (h : Inv g s vs) (hz : z < g.maxZone) {n m : ℕ}
    (hv : vs z = .merging b old c xs) (hlen : old.length = g.zoneSize)
    (hm : xs.length ≤ m ∧ m < xs.length + n) (hsize : m < g.zoneSize)
    (h1 : s.validMap z m ≠ 1) (hvalid : ∀ j, xs.length ≤ j → j < m → s.validMap z j = 1)
    (tmp : ℕ → Word) :
    Inv g (copyOff g z b n tmp s) (Function.update vs z
      (.merging b old c (xs ++ (old.drop xs.length).take (m - xs.length)))) := by
  induction n generalizing xs s vs tmp with
  | zero => omega
  | succ n ih =>
    have hwp := (h.shows z hz).wp
    rw [hv] at hwp
    change s.wp z = g.slba z + xs.length at hwp
    have hmod : s.wp z % g.zoneSize = xs.length := by
      rw [hwp, Geometry.slba_add_mod (by omega)]
    rw [Zns.copyOff, hmod]
    by_cases hi : xs.length = m
    · rw [if_neg (by rwa [hi]), hi, Nat.sub_self, List.take_zero, List.append_nil, ← hv,
        Function.update_eq_self]
      exact h
    · have hroom : (vs z).Room g 1 := by
        rw [hv]
        change xs.length + 1 < g.zoneSize
        omega
      have hput := h.put hz hroom (old[xs.length]?.getD blank)
      have hread := h.readPage hz false (by rw [hv]; rfl) (by omega)
        (hlen ▸ page_le_zoneSize (by omega : xs.length < g.zoneSize)) tmp
      have hmod8 : s.wp z % 8 = xs.length % 8 := by rw [hwp, Geometry.add_mod_eight]
      have hview : (vs z).append [old[xs.length]?.getD blank] =
          .merging b old c (xs ++ [old[xs.length]?.getD blank]) := by
        rw [hv]
        rfl
      rw [hview] at hput
      rw [if_pos (hvalid _ le_rfl (by omega))]
      dsimp only
      rw [← hwp, ← hmod8] at hread
      rw [hread]
      have hnext := @ih _ _ (xs ++ [old[xs.length]?.getD blank]) hput (Function.update_self ..)
        (by rw [List.length_append, List.length_singleton]; omega) (by rwa [putSector_validMap])
        (fun j hj1 hj2 => by
          rw [List.length_append, List.length_singleton] at hj1
          rw [putSector_validMap]
          exact hvalid j (by omega) hj2)
        (Zns.readPage g s (g.zoneToFcg z) b (s.wp z) tmp)
      have hdrop : xs ++ (old.drop xs.length).take (m - xs.length) =
          xs ++ [old[xs.length]?.getD blank] ++
            (old.drop (xs.length + 1)).take (m - (xs.length + 1)) := by
        have hget : old.drop xs.length =
            old[xs.length]?.getD blank :: old.drop (xs.length + 1) := by
          rw [List.getElem?_eq_getElem (by omega)]
          exact List.drop_eq_getElem_cons (by omega)
        rw [hget, show m - xs.length = m - (xs.length + 1) + 1 by omega, List.take_succ_cons,
          List.append_assoc]
        rfl
      rw [Function.update_idem, List.length_append, List.length_singleton, ← hdrop] at hnext
      exact hnext

end Zns
