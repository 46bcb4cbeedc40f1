import Coursework.Zns.Groups

/-! Runs without `zns_tl_open`: where the write pointers and the programmed pages are, and what
`zns_izc` copies. -/
namespace Zns
open Nand Paging

variable {g : Geometry} {s : Dev} {vs : ℕ → View} {z b : ℕ} {v : View} {xs : List Word}

/-- Two zones in one channel group, one of them filled and compacted into the other. -/
def pair : Geometry where
  nbank := 1
  nblk := 3
  npage := 1
  deg := 1
  maxOpen := 1
  nbank_pos := Nat.one_pos
  nblk_pos := by decide
  npage_pos := Nat.one_pos
  deg_pos := Nat.one_pos

variable (g) in
/-- A sector below the write pointer of a zone, in the NAND or in the buffer. -/
def sector (s : Dev) (z j : ℕ) : Word :=
  if g.slba z + 8 * (j / 8) + 8 ≤ s.wp z then
    readPage g s (g.zoneToFcg z) (s.z2Fbg z) (g.slba z + j) (fun _ => blank) (j % 8)
  else s.buffer z (j % 8)

variable (g) in
/-- The sectors below the write pointer of a zone. -/
def contents (s : Dev) (z : ℕ) : List Word :=
  (List.range (s.wp z - g.slba z)).map (sector g s z)

theorem Inv.sector_written (h : Inv g s vs) (hz : z < g.maxZone) (hv : vs z = .written b xs)
    {j : ℕ} (hj : j < xs.length) : sector g s z j = xs[j]?.getD blank := by
  have hs := h.shows z hz
  rw [hv] at hs
  have hwp : s.wp z = g.slba z + xs.length := hs.wp
  have hfbg : s.z2Fbg z = b := hs.fbg
  have hle : xs.length ≤ g.zoneSize := hs.sized
  unfold sector
  by_cases hpage : g.slba z + 8 * (j / 8) + 8 ≤ s.wp z
  · rw [if_pos hpage, hfbg]
    exact h.readPage hz false (by rw [hv]; rfl) (by omega) (by omega) _
  · have hbuf := hs.buffer (j % 8) (by
      change j % 8 < xs.length % 8
      omega)
    change xs[8 * (xs.length / 8) + j % 8]? = _ at hbuf
    rw [show 8 * (xs.length / 8) + j % 8 = j by omega] at hbuf
    rw [if_neg hpage, hbuf]
    rfl

end Zns
