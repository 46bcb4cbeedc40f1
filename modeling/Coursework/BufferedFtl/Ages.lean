import Coursework.BufferedFtl.History

/-! Block ages against the history of the bank: the age of a block is one more than the number of
blocks opened since it was last opened. -/
namespace BufferedFtl
open Nand Sector PageMap

def Event.isOpened : Event → Bool
  | .opened _ => true
  | .erased _ => false

/-- The number of blocks opened in a stretch of the history. -/
def openings (es : List Event) : ℕ := es.countP Event.isOpened

/-- Block `blk` has been opened, then `later` has happened, in which it has been neither opened
nor erased. -/
def LastOpened (hist : List Event) (blk : ℕ) (later : List Event) : Prop :=
  (∃ earlier, hist = later ++ .opened blk :: earlier) ∧ .opened blk ∉ later ∧ .erased blk ∉ later

/-- The age a block is to have. -/
def AgeIs (hist : List Event) (blk : ℕ) (age : ℤ) : Prop :=
  (age = -1 ∧ ∀ later, ¬LastOpened hist blk later) ∨
    ∃ later, LastOpened hist blk later ∧ age = 1 + openings later

section Events
variable {hist : List Event} {blk target : ℕ} {age : ℤ}

theorem AgeIs.nil (blk : ℕ) : AgeIs [] blk (-1) := by
  refine .inl ⟨rfl, ?_⟩
  rintro later ⟨⟨earlier, he⟩, -⟩
  cases later <;> cases he

theorem LastOpened.cons {e : Event} {later : List Event} (h : LastOpened hist blk later)
    (h1 : e ≠ .opened blk) (h2 : e ≠ .erased blk) : LastOpened (e :: hist) blk (e :: later) := by
  obtain ⟨⟨earlier, rfl⟩, h3, h4⟩ := h
  exact ⟨⟨earlier, rfl⟩, List.not_mem_cons_of_ne_of_not_mem h1.symm h3,
    List.not_mem_cons_of_ne_of_not_mem h2.symm h4⟩

theorem LastOpened.tail {e : Event} {later : List Event} (h : LastOpened (e :: hist) blk later)
    (h1 : e ≠ .opened blk) : ∃ later', LastOpened hist blk later' := by
  obtain ⟨⟨earlier, he⟩, h2, h3⟩ := h
  cases later with
  | nil => exact absurd (List.cons.inj he).1 h1
  | cons e' later =>
    obtain ⟨rfl, htail⟩ := List.cons.inj he
    exact ⟨later, ⟨earlier, htail⟩, fun hm => h2 (List.mem_cons_of_mem _ hm),
      fun hm => h3 (List.mem_cons_of_mem _ hm)⟩

theorem LastOpened.unique {later later' : List Event} (h : LastOpened hist blk later)
    (h' : LastOpened hist blk later') : later = later' := by
  have hlen : ∀ {l : List Event}, LastOpened hist blk l →
      hist.idxOf (Event.opened blk) = l.length := by
    rintro l ⟨⟨earlier, rfl⟩, hno, -⟩
    rw [List.idxOf_append_of_notMem hno, List.idxOf_cons_self, Nat.add_zero]
  obtain ⟨⟨earlier, he⟩, -⟩ := id h
  obtain ⟨⟨earlier', he'⟩, -⟩ := id h'
  exact (List.append_inj (he.symm.trans he') ((hlen h).symm.trans (hlen h'))).1

theorem AgeIs.opened_self (hist : List Event) (blk : ℕ) : AgeIs (.opened blk :: hist) blk 1 :=
  .inr ⟨[], ⟨⟨hist, rfl⟩, List.not_mem_nil, List.not_mem_nil⟩, rfl⟩

theorem AgeIs.opened_other (h : AgeIs hist blk age) (hne : target ≠ blk) :
    AgeIs (.opened target :: hist) blk (if age = -1 then -1 else age + 1) := by
  have h1 : Event.opened target ≠ .opened blk := fun he => hne (Event.opened.inj he)
  rcases h with ⟨rfl, hno⟩ | ⟨later, hl, rfl⟩
  · refine .inl ⟨rfl, fun later hl => ?_⟩
    obtain ⟨later', hl'⟩ := hl.tail h1
    exact hno later' hl'
  · refine .inr ⟨.opened target :: later, hl.cons h1 nofun, ?_⟩
    have hcount : openings (.opened target :: later) = openings later + 1 :=
      List.countP_cons_of_pos rfl
    rw [if_neg (by omega), hcount]
    push_cast
    ring

theorem AgeIs.erased_self (hist : List Event) (blk : ℕ) : AgeIs (.erased blk :: hist) blk (-1) := by
  refine .inl ⟨rfl, ?_⟩
  rintro later ⟨⟨earlier, he⟩, -, h3⟩
  cases later with
  | nil => cases (List.cons.inj he).1
  | cons e later => exact h3 ((List.cons.inj he).1 ▸ List.mem_cons_self)

theorem AgeIs.erased_other (h : AgeIs hist blk age) (hne : target ≠ blk) :
    AgeIs (.erased target :: hist) blk age := by
  have h2 : Event.erased target ≠ .erased blk := fun he => hne (Event.erased.inj he)
  rcases h with ⟨rfl, hno⟩ | ⟨later, hl, rfl⟩
  · refine .inl ⟨rfl, fun later hl => ?_⟩
    obtain ⟨later', hl'⟩ := hl.tail nofun
    exact hno later' hl'
  · have hcount : openings (.erased target :: later) = openings later :=
      List.countP_cons_of_neg Bool.false_ne_true
    exact .inr ⟨.erased target :: later, hl.cons nofun h2, by rw [hcount]⟩

theorem openings_lt {blk' : ℕ} {later later' : List Event} (h : LastOpened hist blk later)
    (h' : LastOpened hist blk' later') (hlt : later'.length < later.length) :
    openings later' < openings later := by
  obtain ⟨⟨earlier, he⟩, -⟩ := h
  obtain ⟨⟨earlier', he'⟩, -⟩ := h'
  rw [he'] at he
  have hpre : later' ++ [.opened blk'] <+: later' ++ .opened blk' :: earlier' :=
    ⟨earlier', List.append_assoc _ _ _⟩
  have hpre' : later <+: later' ++ .opened blk' :: earlier' := ⟨.opened blk :: earlier, he.symm⟩
  have hlen : (later' ++ [Event.opened blk']).length ≤ later.length := by
    rw [List.length_append]
    exact hlt
  obtain ⟨mid, hm⟩ := List.prefix_of_prefix_length_le hpre hpre' hlen
  rw [← hm]
  unfold openings
  rw [List.countP_append, List.countP_append, List.countP_singleton]
  simp only [Event.isOpened, if_true]
  omega

end Events

/-- The ages of a bank are what its history makes them. -/
def AgesAgree (hist : List Event) (w : Wear) : Prop :=
  ∀ blk < blksPerBank, AgeIs hist blk (w.age blk)

/-- At a call of `age_update`, no other block has the number of the free block for its age. -/
def Apart (freePblk target : ℕ) (w : Wear) : Prop :=
  ∀ blk < blksPerBank, blk ≠ target → w.age blk ≠ freePblk

/-- Every call of `age_update` in a page write meets `Apart`. -/
def AgesApart (b : Build) (bank : ℕ) (x : Bank Wear) : Prop :=
  (x.nextPpn = x.gcTriggerPpn → validPages x (b.victimPblk x) ≠ 0 →
    Apart x.freePblk x.freePblk x.aux) ∧
  ((b.makeRoom bank x).nextPpn % pagesPerBlk = 0 →
    Apart (b.makeRoom bank x).freePblk ((b.makeRoom bank x).nextPpn / pagesPerBlk)
      (b.makeRoom bank x).aux)

section Steps
variable {b : Build} {bank : ℕ} {x : Bank Wear} {hist : List Event} {w : Wear}

theorem AgesAgree.opened (h : AgesAgree hist w) {freePblk target : ℕ} (ht : target < blksPerBank)
    (hapart : Apart freePblk target w) :
    AgesAgree (.opened target :: hist) (ageUpdate freePblk target w) := by
  intro blk hblk
  rw [ageUpdate_age ht]
  by_cases he : blk = target
  · subst he
    rw [if_pos rfl]
    exact AgeIs.opened_self hist blk
  · rw [if_neg he]
    have hage := (h blk hblk).opened_other (Ne.symm he)
    by_cases h0 : w.age blk = -1
    · rw [if_neg (fun hc => hc.2 (.inl h0)), h0]
      rwa [h0, if_pos rfl] at hage
    · rw [if_pos ⟨hblk, fun hc => hc.elim h0 (hapart blk hblk he)⟩]
      rwa [if_neg h0] at hage

theorem AgesAgree.erased (h : AgesAgree hist w) (target : ℕ) :
    AgesAgree (.erased target :: hist) (hooks.erased target w) := by
  intro blk hblk
  change AgeIs _ blk (Function.update w.age target (-1) blk)
  by_cases he : blk = target
  · subst he
    rw [Function.update_self]
    exact AgeIs.erased_self hist blk
  · rw [Function.update_of_ne he]
    exact (h blk hblk).erased_other (Ne.symm he)

theorem AgesAgree.makeRoom (h : AgesAgree hist x.aux) (hfree : x.freePblk < blksPerBank)
    (hapart : AgesApart b bank x) :
    AgesAgree (b.roomEvents x ++ hist) (b.makeRoom bank x).aux := by
  unfold Build.roomEvents Build.makeRoom
  split_ifs with he h0
  · have haux : (b.garbageCollection bank x).aux = hooks.erased (b.victimPblk x) x.aux := by
      unfold Build.garbageCollection
      rw [collect_aux]
      exact congrArg _ (if_pos h0)
    rw [haux]
    exact h.erased _
  · have haux : (b.garbageCollection bank x).aux = hooks.erased (b.victimPblk x)
        (ageUpdate x.freePblk x.freePblk x.aux) := by
      unfold Build.garbageCollection
      rw [collect_aux]
      exact congrArg _ (if_neg h0)
    rw [haux]
    exact (h.opened hfree (hapart.1 he h0)).erased _
  · exact h

theorem AgesAgree.append (h : AgesAgree hist x.aux) {lpn : ℕ} {data : Sectors}
    (htarget : x.nextPpn / pagesPerBlk < blksPerBank) (hapart : x.nextPpn % pagesPerBlk = 0 →
      Apart x.freePblk (x.nextPpn / pagesPerBlk) x.aux) :
    AgesAgree ((if x.nextPpn % pagesPerBlk = 0 then [.opened (x.nextPpn / pagesPerBlk)] else []) ++
      hist) (appendLpn geometry hooks bank lpn data x).aux := by
  rw [appendLpn_age]
  split_ifs with h0
  · exact h.opened htarget (hapart h0)
  · exact h

end Steps

/-- In every state, the ages of a bank are what its history makes them. -/
theorem Reached.agesAgree {b : Build} {P : ℕ → Bank Wear → Prop} {hist : ℕ → List Event} {s : Ftl}
    (hP : ∀ bank x, P bank x → Sound b x ∧ AgesApart b bank x) (h : Reached b P hist s) :
    ∀ bank < nBanks, AgesAgree (hist bank) (s.row bank).aux := by
  induction h with
  | opened mem stack outside => exact fun bank _ blk _ => AgeIs.nil blk
  | other _ hrow _ _ ih =>
    intro bank hbank
    rw [hrow]
    exact ih bank hbank
  | read _ _ _ _ ih => exact ih
  | @write hist s hs bank halvedLpn hbank hl data hp ih =>
    obtain ⟨hsound, hapart⟩ := hP _ _ hp
    have hfine := (hs.fine fun _ _ hx => (hP _ _ hx).1).bank_fine hbank
    obtain ⟨hroom, -, hlt⟩ := hfine.makeRoom hsound
    intro bank' hbank'
    change AgesAgree (Function.update hist bank _ bank') (Function.update s.row bank _ bank').aux
    by_cases he : bank' = bank
    · subst he
      rw [Function.update_self, Function.update_self]
      have h1 : AgesAgree (b.roomEvents (s.toBanks.bank bank') ++ hist bank')
          (b.makeRoom bank' (s.toBanks.bank bank')).aux :=
        AgesAgree.makeRoom (ih bank' hbank) hfine.ok.inv.space.free_lt hapart
      have htarget : (b.makeRoom bank' (s.toBanks.bank bank')).nextPpn / pagesPerBlk <
          blksPerBank :=
        (Nat.div_lt_iff_lt_mul (by decide)).mpr (hlt.trans_le hroom.ok.inv.space.trig_le)
      have h2 := @AgesAgree.append bank' _ _ h1 halvedLpn data htarget hapart.2
      rw [← List.append_assoc] at h2
      exact h2
    · rw [Function.update_of_ne he, Function.update_of_ne he]
      exact ih bank' hbank'

/-- The blocks without an age are those without a programmed page. -/
theorem Bank.Fine.age_eq_iff {bank : ℕ} {x : Bank Wear} (h : Bank.Fine bank x) {blk : ℕ}
    (hblk : blk < blksPerBank) : x.aux.age blk = -1 ↔
      ∀ i < pagesPerBlk, x.nand.cell bank blk i = none := by
  have hcell : ∀ i < pagesPerBlk, (x.nand.cell bank blk i).isSome ↔ blk ≠ x.freePblk ∧
      (blk * pagesPerBlk + i < x.nextPpn ∨ x.gcTriggerPpn ≤ blk * pagesPerBlk + i) := by
    intro i hi
    have hnp : x.nand.npages = pagesPerBlk := h.ok.fits.npages
    rw [cell_eq_phys (by rw [hnp]; exact hi), hnp, ← PageMap.cell_isSome x.toRow,
      h.ok.inv.space.written_iff]
    change i < 16 at hi
    change blk < 32 at hblk
    change 0 * 16 ≤ blk * 16 + i ∧ blk * 16 + i < 32 * 16 ∧ (blk * 16 + i) / 16 ≠ x.freePblk ∧
      (blk * 16 + i < x.nextPpn ∨ x.gcTriggerPpn ≤ blk * 16 + i) ↔
      blk ≠ x.freePblk ∧ (blk * 16 + i < x.nextPpn ∨ x.gcTriggerPpn ≤ blk * 16 + i)
    have hdiv : (blk * 16 + i) / 16 = blk := by omega
    rw [hdiv]
    exact ⟨fun hc => hc.2.2, fun hc => ⟨by omega, by omega, hc⟩⟩
  rw [← not_iff_not, ← ne_eq, ← h.ages.opened_iff hblk]
  constructor
  · rintro ⟨-, h2, h3⟩ hno
    have h0 := (hcell 0 (by decide)).mpr ⟨h2, h3⟩
    rw [hno 0 (by decide)] at h0
    cases h0
  · intro hsome
    obtain ⟨i, hi⟩ := not_forall.mp hsome
    obtain ⟨hi, hne⟩ := Classical.not_imp.mp hi
    obtain ⟨h2, h3⟩ := (hcell i hi).mp (Option.isSome_iff_ne_none.mpr hne)
    refine ⟨hblk, h2, h3.imp (fun hlt => by omega) fun hle => ?_⟩
    obtain ⟨t, ht⟩ := h.ok.inv.space.aligned
    change x.gcTriggerPpn = 16 * t at ht
    change x.gcTriggerPpn ≤ blk * 16 + i at hle
    change i < 16 at hi
    change x.gcTriggerPpn ≤ blk * 16
    omega

end BufferedFtl
