import Coursework.BufferedFtl.Buffer
import Coursework.BufferedFtl.Victim

/-! The states of the FTL of lab 3 together with what has happened to the blocks of each bank. The
device is touched by page reads and page writes only, in any order. -/
namespace BufferedFtl
open Nand Sector PageMap

/-- What can happen to a block of a bank: its first page is programmed, or it is erased. -/
inductive Event where
  | opened (blk : ℕ)
  | erased (blk : ℕ)
  deriving DecidableEq, Repr

namespace Build

/-- What the `garbage_collection` of a page write does to the blocks, the latest first. -/
def roomEvents (b : Build) (s : Bank Wear) : List Event :=
  if s.nextPpn = s.gcTriggerPpn then
    .erased (b.victimPblk s) ::
      if validPages s (b.victimPblk s) = 0 then [] else [.opened s.freePblk]
  else []

/-- What a page write does to the blocks of its bank, the latest first. -/
def writeEvents (b : Build) (bank : ℕ) (s : Bank Wear) : List Event :=
  let next := (b.makeRoom bank s).nextPpn
  (if next % pagesPerBlk = 0 then [.opened (next / pagesPerBlk)] else []) ++ b.roomEvents s

end Build

/-- The states reached from `ftl_open`, with the events of each bank, the latest first, by page
reads and page writes in which the bank meets `P` when it is written. -/
inductive Reached (b : Build) (P : ℕ → Bank Wear → Prop) : (ℕ → List Event) → Ftl → Prop where
  | opened (mem : ℕ → Page Sectors ℕ) (stack : Page Sectors ℕ) (outside : ℤ → ℤ) :
      Reached b P (fun _ => []) (ftlOpen mem stack outside)
  | other {hist : ℕ → List Event} {s s' : Ftl} (h : Reached b P hist s) (hrow : s'.row = s.row)
      (hnand : s'.nand = s.nand) (hcodes : s'.codes = s.codes) : Reached b P hist s'
  | read {hist : ℕ → List Event} {s : Ftl} (h : Reached b P hist s) {bank halvedLpn : ℕ}
      (hbank : bank < nBanks) (hm : (s.row bank).l2p halvedLpn ≠ -1) (data : Sectors) :
      Reached b P hist { s with
        codes := (s.readPpn geometry bank ((s.row bank).l2p halvedLpn) data).1 :: s.codes }
  | write {hist : ℕ → List Event} {s : Ftl} (h : Reached b P hist s) {bank halvedLpn : ℕ}
      (hbank : bank < nBanks) (hl : halvedLpn < nLpnsPb) (data : Sectors)
      (hp : P bank (s.toBanks.bank bank)) :
      Reached b P
        (Function.update hist bank (b.writeEvents bank (s.toBanks.bank bank) ++ hist bank))
        (b.writeThroughLpn s bank halvedLpn data)

variable {b : Build} {P : ℕ → Bank Wear → Prop} {hist : ℕ → List Event} {s : Ftl} {bank : ℕ}

theorem Reached.mono {Q : ℕ → Bank Wear → Prop} (hPQ : ∀ bank x, P bank x → Q bank x)
    (h : Reached b P hist s) : Reached b Q hist s := by
  induction h with
  | opened mem stack outside => exact .opened mem stack outside
  | other _ hrow hnand hcodes ih => exact ih.other hrow hnand hcodes
  | read _ hbank hm data ih => exact ih.read hbank hm data
  | write _ hbank hl data hp ih => exact ih.write hbank hl data (hPQ _ _ hp)

/-- What a bank keeps between two page writes. -/
structure Bank.Fine (bank : ℕ) (x : Bank Wear) : Prop where
  ok : x.Ok geometry bank
  ages : AgesFit x.toRow

section Steps
variable {x : Bank Wear}

theorem Bank.Fine.collect (h : Bank.Fine bank x) (he : x.nextPpn = x.gcTriggerPpn)
    (hp : Progress b x) : Bank.Fine bank (b.garbageCollection bank x) ∧
      x.Effect bank (b.garbageCollection bank x) ∧
      (b.garbageCollection bank x).nextPpn < (b.garbageCollection bank x).gcTriggerPpn := by
  obtain ⟨hvb, hvf, hinv⟩ := victimPblk_spec h.ok h.ages he hp
  let x₁ : Bank Wear := { x with stats := { x.stats with gcCnt := x.stats.gcCnt + 1 } }
  have hok : x₁.Ok geometry bank := ⟨h.ok.fits, h.ok.inv, h.ok.clean⟩
  have hages : AgesFit x₁.toRow := h.ages
  obtain ⟨h1, h2, -, h4⟩ := collect_spec hooks hok he hvf hvb
  exact ⟨⟨h1, hages.collect he hok.inv.space.free_lt⟩, ⟨h2.isLocal, h2.stack, h2.hostWrite⟩,
    h4 hinv⟩

theorem Bank.Fine.makeRoom (h : Bank.Fine bank x)
    (hp : x.nextPpn = x.gcTriggerPpn → Progress b x) : Bank.Fine bank (b.makeRoom bank x) ∧
      x.Effect bank (b.makeRoom bank x) ∧
      (b.makeRoom bank x).nextPpn < (b.makeRoom bank x).gcTriggerPpn := by
  unfold Build.makeRoom
  split_ifs with he
  · exact h.collect he (hp he)
  · exact ⟨h, ⟨Local.refl _ _, rfl, rfl⟩, lt_of_le_of_ne h.ok.inv.space.next_le he⟩

theorem Bank.Fine.append (h : Bank.Fine bank x) (hlt : x.nextPpn < x.gcTriggerPpn) {lpn : ℕ}
    (hl : lpn < nLpnsPb) (data : Sectors) :
    Bank.Fine bank (appendLpn geometry hooks bank lpn data x) ∧
      x.Effect bank (appendLpn geometry hooks bank lpn data x) := by
  obtain ⟨h1, h2, -⟩ := appendLpn_spec hooks h.ok hlt hl data
  exact ⟨⟨h1, h.ages.appendLpn hlt h.ok.inv.space.trig_le (h.ok.inv.space.gap _ le_rfl hlt)⟩, h2⟩

end Steps

/-- What holds of the device between two calls. -/
structure Fine (s : Ftl) : Prop where
  ok : s.toBanks.Ok geometry nBanks
  ages : ∀ bank < nBanks, AgesFit (s.row bank)

theorem Fine.bank_fine (h : Fine s) (hbank : bank < nBanks) :
    Bank.Fine bank (s.toBanks.bank bank) :=
  ⟨h.ok.bank_ok bank hbank, h.ages bank hbank⟩

theorem fine_ftlOpen (mem : ℕ → Page Sectors ℕ) (stack : Page Sectors ℕ) (outside : ℤ → ℤ) :
    Fine (ftlOpen mem stack outside) := by
  refine ⟨(refines_ftlOpen mem stack outside).ok, fun bank _ => ⟨fun _ _ _ => rfl, ?_⟩⟩
  rintro blk ⟨h1, h2, h3⟩
  change blk < 32 at h1
  change blk ≠ 31 at h2
  change blk * 16 < 0 ∨ 31 * 16 ≤ blk * 16 at h3
  omega

theorem Fine.other {s' : Ftl} (h : Fine s) (hrow : s'.row = s.row) (hnand : s'.nand = s.nand)
    (hcodes : s'.codes = s.codes) : Fine s' := by
  refine ⟨⟨fun bank hbank => ?_⟩, fun bank hbank => ?_⟩
  · obtain ⟨hfits, hinv, hclean⟩ := h.ok.bank_ok bank hbank
    refine ⟨?_, ?_, ?_⟩
    · change Fits geometry s'.nand bank
      rw [hnand]
      exact hfits
    · change (s'.row bank).Inv geometry (s'.nand.phys bank)
      rw [hnand, hrow]
      exact hinv
    · change ∀ c ∈ s'.codes, c = .success
      rw [hcodes]
      exact hclean
  · rw [hrow]
    exact h.ages bank hbank

theorem Fine.read (h : Fine s) (hbank : bank < nBanks) {halvedLpn : ℕ}
    (hm : (s.row bank).l2p halvedLpn ≠ -1) (data : Sectors) : Fine { s with
      codes := (s.readPpn geometry bank ((s.row bank).l2p halvedLpn) data).1 :: s.codes } := by
  have hcodes : ∀ c ∈ [(s.readPpn geometry bank ((s.row bank).l2p halvedLpn) data).1],
      c = .success := by
    intro c hc
    rw [List.mem_singleton.mp hc]
    obtain ⟨_, -, hread⟩ := (h.ok.bank_ok bank hbank).read hm
    exact congrArg Prod.fst (hread data s.stack.spare)
  exact ⟨h.ok.codes hcodes, h.ages⟩

theorem Fine.write (h : Fine s) (hbank : bank < nBanks) {halvedLpn : ℕ}
    (hl : halvedLpn < nLpnsPb) (data : Sectors)
    (hp : (s.row bank).nextPpn = (s.row bank).gcTriggerPpn → Progress b (s.toBanks.bank bank)) :
    Fine (b.writeThroughLpn s bank halvedLpn data) := by
  obtain ⟨h1, h2, h3⟩ := (h.bank_fine hbank).makeRoom hp
  obtain ⟨h4, h5⟩ := h1.append h3 hl data
  refine ⟨Banks.put_ok h.ok h4.ok ⟨h2.isLocal.trans h5.isLocal, h5.stack.trans h2.stack,
    h5.hostWrite.trans h2.hostWrite⟩, fun bank' hbank' => ?_⟩
  change AgesFit (Function.update s.row bank _ bank')
  by_cases he : bank' = bank
  · subst he
    rw [Function.update_self]
    exact h4.ages
  · rw [Function.update_of_ne he]
    exact h.ages bank' hbank'

/-- A bank that is collected when it is written meets the condition for progress. -/
def Sound (b : Build) (x : Bank Wear) : Prop := x.nextPpn = x.gcTriggerPpn → Progress b x

theorem Reached.fine (hP : ∀ bank x, P bank x → Sound b x) (h : Reached b P hist s) : Fine s := by
  induction h with
  | opened mem stack outside => exact fine_ftlOpen mem stack outside
  | other _ hrow hnand hcodes ih => exact ih.other hrow hnand hcodes
  | read _ hbank hm data ih => exact ih.read hbank hm data
  | write _ hbank hl data hp ih => exact ih.write hbank hl data (hP _ _ hp)

end BufferedFtl
