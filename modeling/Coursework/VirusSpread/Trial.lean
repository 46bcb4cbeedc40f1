import Coursework.Lib.BreadthFirst
import Mathlib.Algebra.Ring.Int.Defs
import Mathlib.Data.Finset.Prod
import Mathlib.Data.Prod.Basic

/-! The spread of the viruses from a set of active ones, one second after the other. -/
namespace VirusSpread
open BreadthFirst

inductive Kind | space | wall | virus
  deriving DecidableEq

def Kind.code : Kind → ℤ
  | .space => 0
  | .wall => 1
  | .virus => 2

abbrev Cell := ℤ × ℤ

/-- The global variables; `field` may also be read outside of the board. -/
structure State where
  field : Cell → ℤ
  originalField : Cell → ℤ
  aidacnt : ℤ
  hikatsuseiVirus : List Cell
  katsuseiVirus : List Cell
  katsuseichuVirus : List Cell
  kotae : ℤ

/-- The field and the queue while the viruses spread, with the number of filled spaces. -/
structure Spread where
  field : Cell → ℤ
  katsuseichuVirus : List Cell
  spreaded : ℤ

/-- The cells of the board, row by row. -/
def cells (N : ℕ) : List Cell :=
  (List.range N).flatMap fun r : ℕ => (List.range N).map fun c : ℕ => ((r : ℤ), (c : ℤ))

def InBound (N : ℕ) (p : Cell) : Prop := ¬(p.1 < 0 ∨ p.2 < 0 ∨ N ≤ p.1 ∨ N ≤ p.2)

instance (N : ℕ) (p : Cell) : Decidable (InBound N p) := inferInstanceAs (Decidable (¬_))

/-- The steps `dr`, `dc`. -/
def directions : List Cell := [(0, 1), (0, -1), (1, 0), (-1, 0)]

def fieldReset (N : ℕ) (s : State) : State :=
  (cells N).foldl
    (fun s p => { s with field := Function.update s.field p (s.originalField p) }) s

def activate (s : Spread) (p : Cell) : Spread :=
  { s with
    field := Function.update s.field p 3
    katsuseichuVirus := s.katsuseichuVirus ++ [p] }

def infect (N : ℕ) (sec : ℤ) (s : Spread) (p : Cell) : Spread :=
  if s.field p = 0 ∧ InBound N p then
    ⟨Function.update s.field p (sec + 3), s.katsuseichuVirus ++ [p], s.spreaded + 1⟩
  else if s.field p = 2 ∧ InBound N p then
    ⟨Function.update s.field p (sec + 3), s.katsuseichuVirus ++ [p], s.spreaded⟩
  else s

def spreadFrom (N : ℕ) (sec : ℤ) (s : Spread) (virus : Cell) : Spread :=
  directions.foldl (fun s d => infect N sec s (virus + d)) s

/-- The inner loop, for the next `cnt` viruses of the queue. -/
def spreadFront (N : ℕ) (sec : ℤ) : ℕ → Spread → Spread
  | 0, s => s
  | cnt + 1, s =>
    match s.katsuseichuVirus with
    | [] => s
    | virus :: rest =>
      spreadFront N sec cnt (spreadFrom N sec { s with katsuseichuVirus := rest } virus)

/-- The outer loop, for at most `fuel` tests of its condition. -/
def spreadLoop (N : ℕ) (aidacnt : ℤ) : ℕ → ℤ → Spread → Option (ℤ × Spread)
  | 0, _, _ => none
  | fuel + 1, sec, s =>
    if s.katsuseichuVirus ≠ [] ∧ s.spreaded ≠ aidacnt then
      spreadLoop N aidacnt fuel (sec + 1)
        (spreadFront N (sec + 1) s.katsuseichuVirus.length s)
    else some (sec, s)

def bakuHatsu (N fuel : ℕ) (s : State) : Option (ℤ × State) :=
  (spreadLoop N s.aidacnt fuel 0
      (s.katsuseiVirus.foldl activate ⟨s.field, s.katsuseichuVirus, 0⟩)).map fun r =>
    (if r.2.spreaded = s.aidacnt then r.1 else -1,
      { s with field := r.2.field, katsuseichuVirus := r.2.katsuseichuVirus })

section Board
variable (N : ℕ) (board : Cell → Kind)

def Space (p : Cell) : Prop := InBound N p ∧ board p = .space

def Open (p : Cell) : Prop := InBound N p ∧ board p ≠ .wall

instance : DecidablePred (Open N board) := fun _ => inferInstanceAs (Decidable (_ ∧ _))

def neighbours (p : Cell) : List Cell := directions.map (p + ·)

/-- The length of a shortest path to a cell from a set. -/
abbrev Distance (S : Set Cell) : ℕ → Cell → Prop := IsDistance neighbours (Open N board) S

def Covers (S : Set Cell) : Prop := ∀ p, Space N board p → ∃ d, Distance N board S d p

/-- The largest distance of a space from the set. -/
structure IsTime (S : Set Cell) (t : ℕ) : Prop where
  covers : Covers N board S
  largest : IsGreatest {d | ∃ p, Space N board p ∧ Distance N board S d p} t ∨
    t = 0 ∧ ¬∃ p, Space N board p

def spaces : Finset Cell := (cells N).toFinset.filter (board · = .space)

def value (mark : Cell → Option ℕ) (p : Cell) : ℤ :=
  match mark p with
  | some d => d + 3
  | none => (board p).code

/-- The field shows the levels of the search on the board and is `mem` outside of it. -/
structure Agrees (mem : Cell → ℤ) (sp : Spread) (s : Search Cell) : Prop where
  queue : sp.katsuseichuVirus = s.queue
  inside : ∀ p, InBound N p → sp.field p = value board s.mark p
  outside : ∀ p, ¬InBound N p → sp.field p = mem p
  spreaded : sp.spreaded = ((spaces N board).filter fun p => (s.mark p).isSome).card

end Board

theorem mem_cells {N : ℕ} {p : Cell} : p ∈ cells N ↔ InBound N p := by
  obtain ⟨r, c⟩ := p
  simp only [cells, InBound, List.mem_flatMap, List.mem_map, List.mem_range, Prod.mk.injEq]
  constructor
  · rintro ⟨i, hi, j, hj, rfl, rfl⟩
    omega
  · intro h
    exact ⟨r.toNat, by omega, c.toNat, by omega, by omega, by omega⟩

theorem length_cells (N : ℕ) : (cells N).length = N * N := by
  simp [cells, List.length_flatMap]

theorem nodup_cells (N : ℕ) : (cells N).Nodup := by
  refine List.nodup_flatMap.2 ⟨fun r _ => ?_, ?_⟩
  · refine List.Nodup.map (fun a b hab => ?_) List.nodup_range
    rw [Prod.mk.injEq] at hab
    exact_mod_cast hab.2
  · refine List.nodup_range.imp ?_
    intro a b hab p ha hb
    rw [List.mem_map] at ha hb
    obtain ⟨i, -, rfl⟩ := ha
    obtain ⟨j, -, hj⟩ := hb
    rw [Prod.mk.injEq] at hj
    exact hab (by exact_mod_cast hj.1.symm)

section Agreement
variable {N : ℕ} {board : Cell → Kind} {mem : Cell → ℤ} {sp : Spread} {s : Search Cell}

theorem mem_spaces {p : Cell} : p ∈ spaces N board ↔ Space N board p := by
  rw [spaces, Finset.mem_filter, List.mem_toFinset, mem_cells, Space]

theorem value_eq_code_iff {mark : Cell → Option ℕ} {p : Cell} (k : Kind) :
    value board mark p = k.code ↔ mark p = none ∧ board p = k := by
  unfold value
  cases mark p with
  | some d => cases k <;> simp [Kind.code] <;> omega
  | none => cases board p <;> cases k <;> simp [Kind.code]

theorem Agrees.mark_isSome (hs : Agrees N board mem sp s) {p : Cell} (hp : InBound N p)
    (h0 : sp.field p ≠ 0) (h2 : sp.field p ≠ 2) : ¬(Open N board p ∧ s.mark p = none) := by
  rw [hs.inside p hp] at h0 h2
  rintro ⟨⟨-, hwall⟩, hnone⟩
  cases hk : board p with
  | space => exact h0 ((value_eq_code_iff .space).2 ⟨hnone, hk⟩)
  | wall => exact hwall hk
  | virus => exact h2 ((value_eq_code_iff .virus).2 ⟨hnone, hk⟩)

theorem filled_update (mark : Cell → Option ℕ) (p : Cell) (n : ℕ) :
    ((spaces N board).filter fun q => (Function.update mark p (some n) q).isSome) =
      if p ∈ spaces N board then insert p ((spaces N board).filter fun q => (mark q).isSome)
      else (spaces N board).filter fun q => (mark q).isSome := by
  ext q
  by_cases hq : q = p
  · subst hq
    split <;> simp [*]
  · have hother : Function.update mark p (some n) q = mark q := Function.update_of_ne hq _ _
    rw [Finset.mem_filter, hother]
    split <;> simp [hq]

theorem Agrees.update (hs : Agrees N board mem sp s) {p : Cell} (hp : InBound N p) (n : ℕ)
    {k : ℤ} (hk : k = if p ∈ spaces N board ∧ s.mark p = none then 1 else 0)
    (hnew : p ∈ spaces N board → s.mark p = none) :
    Agrees N board mem
      ⟨Function.update sp.field p (n + 3), sp.katsuseichuVirus ++ [p], sp.spreaded + k⟩
      ⟨Function.update s.mark p (some n), s.queue ++ [p]⟩ := by
  refine ⟨?_, fun q hq => ?_, fun q hq => ?_, ?_⟩
  · rw [hs.queue]
  · by_cases hqp : q = p
    · simp [hqp, value]
    · have hold := hs.inside q hq
      simpa [hqp, value] using hold
  · have hqp : q ≠ p := fun h => hq (h ▸ hp)
    have hold := hs.outside q hq
    simpa [hqp] using hold
  · rw [filled_update, hs.spreaded, hk]
    by_cases hspace : p ∈ spaces N board
    · have hfresh : p ∉ (spaces N board).filter fun q => (s.mark q).isSome := by
        simp [hnew hspace]
      rw [if_pos hspace, if_pos ⟨hspace, hnew hspace⟩, Finset.card_insert_of_notMem hfresh]
      push_cast
      rfl
    · rw [if_neg hspace, if_neg (fun h => hspace h.1), Int.add_zero]

theorem Agrees.activate (hs : Agrees N board mem sp s) {p : Cell} (hp : InBound N p)
    (hvirus : board p = .virus) : Agrees N board mem (activate sp p) (start s p) := by
  have hspace : p ∉ spaces N board := fun h => by
    have heq := (mem_spaces.1 h).2
    rw [hvirus] at heq
    cases heq
  have h := hs.update hp 0 (if_neg fun h => hspace h.1).symm fun h => absurd h hspace
  rw [Int.add_zero] at h
  exact h

theorem Agrees.infect (hs : Agrees N board mem sp s) (n : ℕ) (p : Cell) :
    Agrees N board mem (infect N n sp p) (offer (Open N board) n s p) := by
  unfold VirusSpread.infect offer
  split
  · next h =>
    obtain ⟨hnone, hkind⟩ := (value_eq_code_iff .space).1 ((hs.inside p h.2).symm.trans h.1)
    have hopen : Open N board p := ⟨h.2, by rw [hkind]; decide⟩
    rw [if_pos ⟨hopen, hnone⟩]
    exact hs.update h.2 n (if_pos ⟨mem_spaces.2 ⟨h.2, hkind⟩, hnone⟩).symm fun _ => hnone
  · next h0 =>
    split
    · next h =>
      obtain ⟨hnone, hkind⟩ := (value_eq_code_iff .virus).1 ((hs.inside p h.2).symm.trans h.1)
      have hopen : Open N board p := ⟨h.2, by rw [hkind]; decide⟩
      have hspace : p ∉ spaces N board := fun h => by
        have heq := (mem_spaces.1 h).2
        rw [hkind] at heq
        cases heq
      have hnew := hs.update h.2 n (if_neg fun h => hspace h.1).symm fun _ => hnone
      rw [Int.add_zero] at hnew
      rw [if_pos ⟨hopen, hnone⟩]
      exact hnew
    · next h2 =>
      rw [if_neg]
      · exact hs
      · intro hfree
        have hp := hfree.1.1
        exact hs.mark_isSome hp (fun h => h0 ⟨h, hp⟩) (fun h => h2 ⟨h, hp⟩) hfree

theorem Agrees.spreadFrom (hs : Agrees N board mem sp s) (n : ℕ) (p : Cell) :
    Agrees N board mem (spreadFrom N n sp p) (expand neighbours (Open N board) n s p) := by
  unfold VirusSpread.spreadFrom expand neighbours
  rw [List.foldl_map]
  generalize directions = ds
  induction ds generalizing sp s with
  | nil => exact hs
  | cons d ds ih => exact ih (hs.infect n (p + d))

theorem Agrees.spreadFront (hs : Agrees N board mem sp s) (n cnt : ℕ) :
    Agrees N board mem (spreadFront N n cnt sp)
      (expandFront neighbours (Open N board) n cnt s) := by
  induction cnt generalizing sp s with
  | zero => exact hs
  | succ cnt ih =>
    unfold VirusSpread.spreadFront expandFront
    rw [hs.queue]
    cases hq : s.queue with
    | nil => exact hs
    | cons p rest =>
      have hrest : Agrees N board mem { sp with katsuseichuVirus := rest } ⟨s.mark, rest⟩ :=
        ⟨rfl, hs.inside, hs.outside, hs.spreaded⟩
      exact ih (hrest.spreadFrom n p)

theorem Agrees.spreaded_eq_iff (hs : Agrees N board mem sp s) :
    sp.spreaded = (spaces N board).card ↔ ∀ p, Space N board p → s.mark p ≠ none := by
  rw [hs.spreaded, Nat.cast_inj, Finset.card_filter_eq_iff]
  refine forall_congr' fun p => ?_
  rw [mem_spaces, Option.isSome_iff_ne_none]

section Loop
variable {S : Set Cell} {n : ℕ}

theorem isTime_of_filled (hall : ∀ p, Space N board p → ∃ d ≤ n, Distance N board S d p)
    (hlate : n = 0 ∨ ∃ p, Space N board p ∧ ¬∃ d < n, Distance N board S d p) :
    IsTime N board S n := by
  refine ⟨fun p hp => ?_, ?_⟩
  · obtain ⟨d, -, hd⟩ := hall p hp
    exact ⟨d, hd⟩
  · have hle : n ∈ upperBounds {d | ∃ p, Space N board p ∧ Distance N board S d p} := by
      rintro d ⟨p, hp, hd⟩
      obtain ⟨d', hle, hd'⟩ := hall p hp
      rwa [isDistance_unique hd hd']
    have hmem : ∀ p, Space N board p → (¬∃ d < n, Distance N board S d p) →
        Distance N board S n p := by
      intro p hp hfar
      obtain ⟨d, hd, hdist⟩ := hall p hp
      obtain rfl | hlt := hd.eq_or_lt
      · exact hdist
      · exact absurd ⟨d, hlt, hdist⟩ hfar
    obtain rfl | ⟨p, hp, hfar⟩ := hlate
    · by_cases hex : ∃ p, Space N board p
      · obtain ⟨p, hp⟩ := hex
        refine .inl ⟨⟨p, hp, hmem p hp ?_⟩, hle⟩
        rintro ⟨d, hd, -⟩
        exact absurd hd (Nat.not_lt_zero d)
      · exact .inr ⟨rfl, hex⟩
    · exact .inl ⟨⟨p, hp, hmem p hp hfar⟩, hle⟩

theorem spreadLoop_spec {fuel : ℕ} (hr : Reached neighbours (Open N board) S n s)
    (hs : Agrees N board mem sp s) (hS : ∀ p ∈ S, InBound N p) (hn : n ≤ N * N)
    (hfuel : N * N < fuel + n)
    (hlate : n = 0 ∨ ∃ p, Space N board p ∧ ¬∃ d < n, Distance N board S d p) :
    ∃ (t : ℕ) (sp' : Spread) (s' : Search Cell),
      spreadLoop N (spaces N board).card fuel n sp = some ((t : ℤ), sp') ∧
        Agrees N board mem sp' s' ∧ t ≤ N * N ∧
        if sp'.spreaded = (spaces N board).card then IsTime N board S t
        else ¬Covers N board S := by
  induction fuel generalizing n sp s with
  | zero => omega
  | succ fuel ih =>
    rw [spreadLoop]
    by_cases hfilled : sp.spreaded = (spaces N board).card
    · have hall : ∀ p, Space N board p → ∃ d ≤ n, Distance N board S d p := by
        intro p hp
        have hsome := hs.spreaded_eq_iff.1 hfilled p hp
        rw [Ne, hr.mark_eq_none, not_not] at hsome
        exact hsome
      rw [if_neg (fun h => h.2 hfilled)]
      refine ⟨n, sp, s, rfl, hs, hn, ?_⟩
      rw [if_pos hfilled]
      exact isTime_of_filled hall hlate
    have hleft : ∃ p, Space N board p ∧ s.mark p = none := by
      rw [hs.spreaded_eq_iff] at hfilled
      simpa only [not_forall, exists_prop, not_not] using hfilled
    obtain ⟨p, hp, hnone⟩ := hleft
    by_cases hq : sp.katsuseichuVirus = []
    · rw [if_neg (fun h => h.1 hq)]
      refine ⟨n, sp, s, rfl, hs, hn, ?_⟩
      rw [if_neg hfilled]
      intro hcovers
      obtain ⟨d, hd⟩ := hcovers p hp
      rw [hr.closed (hs.queue ▸ hq) hd] at hnone
      cases hnone
    · rw [if_pos ⟨hq, hfilled⟩]
      have hlt : n < N * N := by
        obtain ⟨u, hu⟩ := List.exists_mem_of_ne_nil _ hq
        rw [hs.queue, hr.queue] at hu
        have h := hu.lt_card (cells N).toFinset
          (fun v hv => List.mem_toFinset.2 (mem_cells.2 (hS v hv)))
          (fun v hv => List.mem_toFinset.2 (mem_cells.2 hv.1))
        rwa [List.toFinset_card_of_nodup (nodup_cells N), length_cells] at h
      have hnext := hs.spreadFront (n + 1) sp.katsuseichuVirus.length
      rw [hs.queue] at hnext ⊢
      rw [hr.mark_eq_none] at hnone
      refine ih (n := n + 1) hr.level hnext hlt (by omega) (.inr ⟨p, hp, ?_⟩)
      rintro ⟨d, hd, hdist⟩
      exact hnone ⟨d, Nat.lt_succ_iff.1 hd, hdist⟩

end Loop

end Agreement

end VirusSpread
