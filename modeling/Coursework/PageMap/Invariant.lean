import Coursework.Lib.Compaction
import Coursework.PageMap.Core

/-! The state of one bank as a page log, and the invariant of the page-mapping core. -/
namespace PageMap
open Nand Sector Paging

variable {α : Type}

/-- The row of a bank over the pages of that bank, as a log keyed by logical page. -/
def Row.log (r : Row α) (phys : ℕ → Option (Page Sectors ℕ)) : PageLog ℕ Sectors where
  cell := fun p => (phys p).map fun pg => (pg.spare, pg.data)
  loc := fun l => entry (r.l2p l)
  valid := r.isValid

/-- The invariant of one bank between two calls of the core. -/
structure Row.Inv (g : Geometry) (r : Row α) (phys : ℕ → Option (Page Sectors ℕ)) : Prop where
  space : PageLog.Space g.pagesPerBlk 0 g.blksPerBank r.freePblk r.nextPpn r.gcTriggerPpn
    (r.log phys)
  entry_ge : ∀ l, -1 ≤ r.l2p l
  lpn_lt : ∀ l, r.l2p l ≠ -1 → l < g.nLpnsPb

/-- The NAND has the dimensions of the FTL and the bank exists. -/
structure Fits (g : Geometry) (n : Device Sectors ℕ) (bank : ℕ) : Prop where
  bank_lt : bank < n.nbanks
  nblks : n.nblks = g.blksPerBank
  npages : n.npages = g.pagesPerBlk

theorem Fits.of_local {g : Geometry} {n n' : Device Sectors ℕ} {bank bank' : ℕ}
    (h : Fits g n bank) (hl : Local n n' bank') : Fits g n' bank :=
  ⟨by rw [hl.nbanks]; exact h.bank_lt, by rw [hl.nblks, h.nblks], by rw [hl.npages, h.npages]⟩

/-- The contents of the bank's logical pages. -/
def Bank.content (bank : ℕ) (s : Bank α) (lpn : ℕ) : Option Sectors :=
  (s.toRow.log (s.nand.phys bank)).value lpn

section Log
variable (r : Row α) (phys : ℕ → Option (Page Sectors ℕ))

theorem cell_eq_some {p : ℕ} {k : ℕ} {d : Sectors} :
    (r.log phys).cell p = some (k, d) ↔ phys p = some ⟨d, k⟩ := by
  simp only [Row.log, Option.map_eq_some_iff, Prod.mk.injEq]
  constructor
  · rintro ⟨pg, hp, rfl, rfl⟩
    exact hp
  · intro hp
    exact ⟨_, hp, rfl, rfl⟩

theorem cell_isSome (p : ℕ) : ((r.log phys).cell p).isSome = (phys p).isSome := by
  simp [Row.log]

theorem log_program (l q : ℕ) (d : Sectors) :
    (r.log phys).program l d q = { r with l2p := Function.update r.l2p l (q : ℤ) }.log
      (Function.update phys q (some ⟨d, l⟩)) := by
  unfold PageLog.program Row.log
  congr 1
  · funext p
    by_cases hp : p = q
    · subst hp
      simp
    · simp [hp]
  · funext k
    by_cases hk : k = l
    · subst hk
      simp
    · simp [hk]

theorem log_discard (l : ℕ) : (r.log phys).discard l =
    { r with isValid := if r.l2p l ≠ -1 then Function.update r.isValid (r.l2p l).toNat false
                        else r.isValid }.log phys := by
  unfold PageLog.discard Row.log
  by_cases h : r.l2p l = -1
  · simp [h]
  · simp [entry, h]

theorem log_erase {P b : ℕ} (hP : 0 < P) (r : Row α) : (r.log phys).erase P b =
    { r with isValid := fun p => if b * P ≤ p ∧ p < b * P + P then true else r.isValid p }.log
      (fun q => if q / P = b then none else phys q) := by
  unfold PageLog.erase Row.log
  congr 1
  · funext p
    by_cases hp : p / P = b <;> simp [hp]
  · funext p
    simp only [div_eq_iff_range hP]

end Log

section Victim

theorem scanVictim_spec (cnt : ℕ → ℕ) (N : ℕ) : ∀ (n : ℕ) (acc : ℕ × ℕ), n ≤ N →
    (∀ b, n ≤ b → b < N → cnt b ≤ acc.1) → (n < N → acc.2 < N ∧ cnt acc.2 = acc.1) →
    (n = N → acc.1 = 0) → 0 < N →
    (scanVictim cnt n acc).2 < N ∧ ∀ b < N, cnt b ≤ cnt (scanVictim cnt n acc).2
  | 0, acc, _, hmax, hret, _, hN => by
    obtain ⟨h1, h2⟩ := hret hN
    exact ⟨h1, fun b hb => by rw [scanVictim, h2]; exact hmax b (Nat.zero_le b) hb⟩
  | n + 1, acc, hn, hmax, hret, hzero, hN => by
    rw [scanVictim]
    by_cases hle : acc.1 ≤ cnt n
    · rw [if_pos hle]
      refine scanVictim_spec cnt N n _ (by omega) ?_ (fun _ => ⟨by simp; omega, rfl⟩)
        (by omega) hN
      intro b hb hbN
      rcases Nat.eq_or_lt_of_le hb with rfl | hlt
      · exact le_rfl
      · exact (hmax b hlt hbN).trans hle
    · rw [if_neg hle]
      have hlt : n + 1 < N := by
        rcases Nat.eq_or_lt_of_le hn with he | hlt
        · have := hzero he
          omega
        · exact hlt
      refine scanVictim_spec cnt N n _ (by omega) ?_ (fun _ => hret hlt) (by omega) hN
      intro b hb hbN
      rcases Nat.eq_or_lt_of_le hb with rfl | hlt'
      · omega
      · exact hmax b hlt' hbN

variable {g : Geometry}

theorem Geometry.blks_pos (g : Geometry) : 0 < g.blksPerBank := by
  have := g.spare_room
  rcases Nat.eq_zero_or_pos g.blksPerBank with h | h
  · rw [h] at this
    simp at this
  · exact h

theorem getVictimPblk_spec (g : Geometry) (isValid : ℕ → Bool) :
    getVictimPblk g isValid < g.blksPerBank ∧ ∀ b < g.blksPerBank,
      invalidCnt g isValid b ≤ invalidCnt g isValid (getVictimPblk g isValid) :=
  scanVictim_spec _ _ _ _ le_rfl (fun b h1 h2 => by omega) (fun h => absurd h (lt_irrefl _))
    (fun _ => rfl) g.blks_pos

variable {r : Row α} {phys : ℕ → Option (Page Sectors ℕ)}

/-- When the space is used up, the victim has an invalid page and is not the spare block. -/
theorem Row.Inv.victim (h : r.Inv g phys) (he : r.nextPpn = r.gcTriggerPpn) :
    getVictimPblk g r.isValid < g.blksPerBank ∧ getVictimPblk g r.isValid ≠ r.freePblk ∧
      ∃ i < g.pagesPerBlk,
        r.isValid (getVictimPblk g r.isValid * g.pagesPerBlk + i) = false := by
  obtain ⟨hlt, hmax⟩ := getVictimPblk_spec g r.isValid
  have hkeys : ∀ k p, (r.log phys).loc k = some p → k ∈ Finset.range g.nLpnsPb := by
    intro k p hk
    rw [Finset.mem_range]
    apply h.lpn_lt
    intro hneg
    simp [Row.log, hneg] at hk
  obtain ⟨b, i, -, hb, -, hi, hv⟩ := h.space.exists_invalid he hkeys
    (by simpa using g.spare_room)
  have hpos : 0 < invalidCnt g r.isValid (getVictimPblk g r.isValid) :=
    (clearCount_pos.mpr ⟨i, hi, hv⟩).trans_le (hmax b hb)
  obtain ⟨j, hj, hjv⟩ := clearCount_pos.mp hpos
  refine ⟨hlt, ?_, j, hj, hjv⟩
  intro hfree
  have hw : (r.log phys).cell (getVictimPblk g r.isValid * g.pagesPerBlk + j) = none := by
    rw [← Option.not_isSome_iff_eq_none, h.space.written_iff, div_page hj]
    exact fun hc => hc.2.2.1 hfree
  have := h.space.valid_of_unwritten hw
  change r.isValid _ = true at this
  rw [hjv] at this
  cases this

end Victim

end PageMap
