import Coursework.VirusSpread.Trial
import Mathlib.Data.List.Sublists

/-! The search over the sets of `M` viruses, each of them tried on the board as it was read. -/
namespace VirusSpread
open BreadthFirst

/-- What `DFS` does with `M` active viruses. -/
def trial (N fuel : ℕ) (s : State) : Option State :=
  (bakuHatsu N fuel { s with katsuseichuVirus := [] }).map fun r =>
    fieldReset N (if r.1 ≠ -1 ∧ r.1 < r.2.kotae then { r.2 with kotae := r.1 } else r.2)

def activated (s : State) (now : Cell) : State :=
  { s with katsuseiVirus := s.katsuseiVirus ++ [now] }

def deactivated (s : State) : State := { s with katsuseiVirus := s.katsuseiVirus.dropLast }

/-- A call of `DFS`, where `loop` is its loop. -/
def dfsCall (N M fuel : ℕ) (loop : State → Option State) (s : State) : Option State :=
  if s.katsuseiVirus.length = M then trial N fuel s else loop s

/-- The loop over the viruses from `start` on. -/
def dfsLoop (N M fuel : ℕ) : List Cell → State → Option State
  | [], s => some s
  | now :: rest, s =>
    (dfsCall N M fuel (dfsLoop N M fuel rest) (activated s now)).bind fun s =>
      dfsLoop N M fuel rest (deactivated s)

def dfs (N M fuel start : ℕ) (s : State) : Option State :=
  dfsCall N M fuel (dfsLoop N M fuel (s.hikatsuseiVirus.drop start)) s

/-- Where the calls in a call of `DFS` start their trials. -/
def callTrials (M : ℕ) (loop : State → List State) (s : State) : List State :=
  if s.katsuseiVirus.length = M then [s] else loop s

def loopTrials (N M fuel : ℕ) : List Cell → State → List State
  | [], _ => []
  | now :: rest, s =>
    callTrials M (loopTrials N M fuel rest) (activated s now) ++
      match dfsCall N M fuel (dfsLoop N M fuel rest) (activated s now) with
      | some s => loopTrials N M fuel rest (deactivated s)
      | none => []

def dfsTrials (N M fuel start : ℕ) (s : State) : List State :=
  callTrials M (loopTrials N M fuel (s.hikatsuseiVirus.drop start)) s

def readCell (board : Cell → Kind) (s : State) (p : Cell) : State :=
  let s := { s with
    field := Function.update s.field p (board p).code
    originalField := Function.update s.originalField p (board p).code }
  if s.field p = 2 then { s with hikatsuseiVirus := s.hikatsuseiVirus ++ [p] }
  else if s.field p = 0 then { s with aidacnt := s.aidacnt + 1 }
  else s

/-- The state in which `main` calls `DFS`; `mem` is what there is in memory before. -/
def readBoard (N : ℕ) (board : Cell → Kind) (mem : Cell → ℤ) : State :=
  (cells N).foldl (readCell board) ⟨mem, fun _ => 0, 0, [], [], [], 987654321⟩

/-- What the program prints. -/
def output (N M fuel : ℕ) (board : Cell → Kind) (mem : Cell → ℤ) : Option ℤ :=
  (dfs N M fuel 0 (readBoard N board mem)).map fun s => if s.kotae ≠ 987654321 then s.kotae else -1

def trials (N M fuel : ℕ) (board : Cell → Kind) (mem : Cell → ℤ) : List State :=
  dfsTrials N M fuel 0 (readBoard N board mem)

section Board
variable (N : ℕ) (board : Cell → Kind)

def viruses : List Cell := (cells N).filter (board · = .virus)

/-- An `M`-element set of virus cells. -/
structure Chosen (M : ℕ) (S : Finset Cell) : Prop where
  card : S.card = M
  virus : ∀ p ∈ S, InBound N p ∧ board p = .virus

/-- The states between the trials: the board is as it was read. -/
def ready (mem : Cell → ℤ) (katsusei queue : List Cell) (kotae : ℤ) : State where
  field p := if p ∈ cells N then (board p).code else mem p
  originalField p := if p ∈ cells N then (board p).code else 0
  aidacnt := (spaces N board).card
  hikatsuseiVirus := viruses N board
  katsuseiVirus := katsusei
  katsuseichuVirus := queue
  kotae := kotae

/-- The best answer before and after the trials of some sets. -/
structure Best (sets : List (List Cell)) (k k' : ℤ) : Prop where
  le : k' ≤ k
  tried : ∀ S ∈ sets, Covers N board {p | p ∈ S} →
    ∃ t ≤ N * N, IsTime N board {p | p ∈ S} t ∧ k' ≤ t
  attained : k' = k ∨ ∃ S ∈ sets, ∃ t : ℕ, IsTime N board {p | p ∈ S} t ∧ k' = t

/-- The states in which the trials of some sets start. -/
structure Visits (mem : Cell → ℤ) (states : List State) (sets : List (List Cell)) : Prop where
  sets : states.map (·.katsuseiVirus) = sets
  ready : ∀ s ∈ states, ∃ q k, s = ready N board mem s.katsuseiVirus q k

/-- A part of the search that tries some sets and restores what it changes. -/
def Enumerates (mem : Cell → ℤ) (katsusei : List Cell) (sets : List (List Cell))
    (run : State → Option State) (visits : State → List State) : Prop :=
  ∀ q k, ∃ q' k',
    run (ready N board mem katsusei q k) = some (ready N board mem katsusei q' k') ∧
      Best N board sets k k' ∧ Visits N board mem (visits (ready N board mem katsusei q k)) sets

/-- The ways to complete the active viruses, in the order in which they are tried. -/
def choices (M : ℕ) (katsusei rest : List Cell) : List (List Cell) :=
  (rest.sublistsLen (M - katsusei.length)).reverse.map (katsusei ++ ·)

end Board

section Reading
variable {N : ℕ} {board : Cell → Kind}

theorem readCell_eq (s : State) (q : Cell) :
    readCell board s q =
      { s with
        field := Function.update s.field q (board q).code
        originalField := Function.update s.originalField q (board q).code
        aidacnt := s.aidacnt + if board q = .space then 1 else 0
        hikatsuseiVirus := s.hikatsuseiVirus ++ if board q = .virus then [q] else [] } := by
  unfold readCell
  cases hk : board q <;> simp [Kind.code]

theorem foldl_readCell (s : State) (ps : List Cell) :
    ps.foldl (readCell board) s =
      { s with
        field := fun p => if p ∈ ps then (board p).code else s.field p
        originalField := fun p => if p ∈ ps then (board p).code else s.originalField p
        aidacnt := s.aidacnt + (ps.filter (board · = .space)).length
        hikatsuseiVirus := s.hikatsuseiVirus ++ ps.filter (board · = .virus) } := by
  induction ps generalizing s with
  | nil => simp
  | cons q ps ih =>
    have hmem : ∀ (f : Cell → ℤ) (p : Cell),
        (if p ∈ ps then (board p).code else Function.update f q (board q).code p) =
          if p ∈ q :: ps then (board p).code else f p := by
      intro f p
      by_cases hp : p = q
      · simp [hp]
      · simp [hp]
    have hcnt : (s.aidacnt + if board q = .space then 1 else 0) +
          ((ps.filter (board · = .space)).length : ℤ) =
        s.aidacnt + ((q :: ps).filter (board · = .space)).length := by
      by_cases hq : board q = .space
      · simp [hq]
        omega
      · simp [hq]
    have hlist : (s.hikatsuseiVirus ++ if board q = .virus then [q] else []) ++
          ps.filter (board · = .virus) =
        s.hikatsuseiVirus ++ (q :: ps).filter (board · = .virus) := by
      by_cases hq : board q = .virus
      · simp [hq]
      · simp [hq]
    rw [List.foldl_cons, ih, readCell_eq, ← hcnt, ← hlist]
    simp only [hmem]

theorem foldl_reset (s : State) (ps : List Cell) :
    ps.foldl
        (fun s p => { s with field := Function.update s.field p (s.originalField p) }) s =
      { s with field := fun p => if p ∈ ps then s.originalField p else s.field p } := by
  induction ps generalizing s with
  | nil => simp
  | cons q ps ih =>
    rw [List.foldl_cons, ih]
    congr 1
    funext p
    by_cases hp : p = q
    · simp [hp]
    · simp [hp]

theorem length_filter_space :
    ((cells N).filter (board · = .space)).length = (spaces N board).card := by
  have hset : spaces N board = ((cells N).filter (board · = .space)).toFinset := by
    ext p
    simp [spaces]
  rw [hset, List.toFinset_card_of_nodup ((nodup_cells N).filter _)]

theorem readBoard_eq (mem : Cell → ℤ) :
    readBoard N board mem = ready N board mem [] [] 987654321 := by
  rw [readBoard, foldl_readCell, length_filter_space, Int.zero_add]
  rfl

end Reading

section Trials
variable {N : ℕ} {board : Cell → Kind} {mem : Cell → ℤ}

theorem mem_viruses {p : Cell} : p ∈ viruses N board ↔ InBound N p ∧ board p = .virus := by
  rw [viruses, List.mem_filter, mem_cells, decide_eq_true_iff]

theorem isTime_unique {S : Set Cell} {t t' : ℕ} (h : IsTime N board S t)
    (h' : IsTime N board S t') : t = t' := by
  obtain hmax | ⟨rfl, hnone⟩ := h.largest
  · obtain hmax' | ⟨-, hnone⟩ := h'.largest
    · exact hmax.unique hmax'
    · obtain ⟨p, hp, -⟩ := hmax.1
      exact absurd ⟨p, hp⟩ hnone
  · obtain hmax' | ⟨rfl, -⟩ := h'.largest
    · obtain ⟨p, hp, -⟩ := hmax'.1
      exact absurd ⟨p, hp⟩ hnone
    · rfl

theorem agrees_activate {S : List Cell} (hS : ∀ p ∈ S, p ∈ viruses N board) (sp : Spread)
    (s : Search Cell) (hs : Agrees N board mem sp s) :
    Agrees N board mem (S.foldl activate sp) (S.foldl start s) := by
  induction S generalizing sp s with
  | nil => exact hs
  | cons p S ih =>
    have hp := mem_viruses.1 (hS p List.mem_cons_self)
    exact ih (fun q hq => hS q (List.mem_cons_of_mem p hq)) _ _ (hs.activate hp.1 hp.2)

theorem agrees_ready (S : List Cell) (k : ℤ) :
    Agrees N board mem ⟨(ready N board mem S [] k).field, [], 0⟩ ⟨fun _ => none, []⟩ := by
  refine ⟨rfl, fun p hp => ?_, fun p hp => ?_, ?_⟩
  · exact if_pos (mem_cells.2 hp)
  · exact if_neg (fun h => hp (mem_cells.1 h))
  · simp

theorem fieldReset_eq {sp : Spread} {s : Search Cell} (hs : Agrees N board mem sp s)
    (S : List Cell) (k : ℤ) :
    fieldReset N { ready N board mem S sp.katsuseichuVirus k with field := sp.field } =
      ready N board mem S sp.katsuseichuVirus k := by
  rw [fieldReset, foldl_reset]
  unfold ready
  congr 1
  funext p
  by_cases hp : p ∈ cells N
  · simp [hp]
  · have hout := hs.outside p (fun h => hp (mem_cells.2 h))
    simpa [hp] using hout

/-- A trial finds the time of its set and leaves the board as it was. -/
theorem trial_spec {fuel : ℕ} (hfuel : N * N < fuel) {S : List Cell}
    (hS : ∀ p ∈ S, p ∈ viruses N board) (q : List Cell) (k : ℤ) :
    ∃ q' k', trial N fuel (ready N board mem S q k) = some (ready N board mem S q' k') ∧
      Best N board [S] k k' := by
  have hstart := agrees_activate hS _ _ (@agrees_ready N board mem S k)
  obtain ⟨t, sp, s, heq, hs, ht, hspec⟩ := spreadLoop_spec (reached_start S) hstart
    (fun p hp => (mem_viruses.1 (hS p hp)).1) (Nat.zero_le _) hfuel (.inl rfl)
  obtain ⟨ans, hans⟩ : ∃ ans, ans = if sp.spreaded = (spaces N board).card then (t : ℤ) else -1 :=
    ⟨_, rfl⟩
  have hbaku : bakuHatsu N fuel (ready N board mem S [] k) =
      some (ans, { ready N board mem S sp.katsuseichuVirus k with field := sp.field }) := by
    rw [hans]
    exact congrArg (Option.map _) heq
  have htrial : trial N fuel (ready N board mem S q k) =
      some (ready N board mem S sp.katsuseichuVirus
        (if ans ≠ -1 ∧ ans < k then ans else k)) := by
    have hmap : trial N fuel (ready N board mem S q k) = _ := congrArg (Option.map _) hbaku
    rw [hmap, Option.map_some, Option.some_inj]
    dsimp only
    by_cases hcond : ans ≠ -1 ∧ ans < k
    · rw [if_pos hcond, ← fieldReset_eq hs S ans]
      exact congrArg (fieldReset N) (if_pos hcond)
    · rw [if_neg hcond]
      exact (congrArg (fieldReset N) (if_neg hcond)).trans (fieldReset_eq hs S k)
  refine ⟨_, _, htrial, ?_⟩
  by_cases hfilled : sp.spreaded = (spaces N board).card
  · rw [if_pos hfilled] at hans hspec
    subst hans
    by_cases hlt : (t : ℤ) < k
    · rw [if_pos ⟨by omega, hlt⟩]
      refine ⟨hlt.le, fun S' hS' _ => ?_, .inr ⟨S, List.mem_singleton_self S, t, hspec, rfl⟩⟩
      rw [List.mem_singleton.1 hS']
      exact ⟨t, ht, hspec, le_rfl⟩
    · rw [if_neg (fun h => hlt h.2)]
      refine ⟨le_rfl, fun S' hS' _ => ?_, .inl rfl⟩
      rw [List.mem_singleton.1 hS']
      exact ⟨t, ht, hspec, Int.not_lt.1 hlt⟩
  · rw [if_neg hfilled] at hans hspec
    rw [if_neg (fun h => h.1 hans)]
    refine ⟨le_rfl, fun S' hS' hcovers => ?_, .inl rfl⟩
    rw [List.mem_singleton.1 hS'] at hcovers
    exact absurd hcovers hspec

theorem Best.append {sets sets' : List (List Cell)} {k k' k'' : ℤ} (h : Best N board sets k k')
    (h' : Best N board sets' k' k'') : Best N board (sets ++ sets') k k'' := by
  refine ⟨h'.le.trans h.le, fun S hS hcovers => ?_, ?_⟩
  · obtain hS | hS := List.mem_append.1 hS
    · obtain ⟨t, ht, hdist, hle⟩ := h.tried S hS hcovers
      exact ⟨t, ht, hdist, h'.le.trans hle⟩
    · exact h'.tried S hS hcovers
  · obtain rfl | ⟨S, hS, ht⟩ := h'.attained
    · obtain rfl | ⟨S, hS, ht⟩ := h.attained
      · exact .inl rfl
      · exact .inr ⟨S, List.mem_append_left _ hS, ht⟩
    · exact .inr ⟨S, List.mem_append_right _ hS, ht⟩

section Choices
variable {M : ℕ} {K : List Cell}

theorem choices_full (hK : K.length = M) (rest : List Cell) : choices M K rest = [K] := by
  rw [choices, hK, Nat.sub_self, List.sublistsLen_zero]
  simp

theorem choices_nil (hK : K.length < M) : choices M K [] = [] := by
  obtain ⟨n, hn⟩ : ∃ n, M - K.length = n + 1 := ⟨M - K.length - 1, by omega⟩
  rw [choices, hn, List.sublistsLen_succ_nil]
  rfl

theorem choices_cons (hK : K.length < M) (now : Cell) (rest : List Cell) :
    choices M K (now :: rest) = choices M (K ++ [now]) rest ++ choices M K rest := by
  obtain ⟨n, hn⟩ : ∃ n, M - K.length = n + 1 := ⟨M - K.length - 1, by omega⟩
  have hn' : M - (K ++ [now]).length = n := by
    rw [List.length_append, List.length_singleton]
    omega
  rw [choices, choices, choices, hn, hn', List.sublistsLen_succ_cons, List.reverse_append,
    List.map_append, ← List.map_reverse, List.map_map]
  congr 1
  refine List.map_congr_left fun S _ => ?_
  simp

theorem Visits.append {states states' : List State} {sets sets' : List (List Cell)}
    (h : Visits N board mem states sets) (h' : Visits N board mem states' sets') :
    Visits N board mem (states ++ states') (sets ++ sets') := by
  refine ⟨?_, fun s hs => (List.mem_append.1 hs).elim (h.ready s) (h'.ready s)⟩
  rw [List.map_append, h.sets, h'.sets]

theorem dfsCall_enumerates {fuel : ℕ} (hfuel : N * N < fuel) {rest : List Cell}
    {loop : State → Option State} {visits : State → List State}
    (hK : ∀ p ∈ K, p ∈ viruses N board) (hlen : K.length ≤ M)
    (hloop : K.length < M → Enumerates N board mem K (choices M K rest) loop visits) :
    Enumerates N board mem K (choices M K rest) (dfsCall N M fuel loop) (callTrials M visits) := by
  intro q k
  have hactive : (ready N board mem K q k).katsuseiVirus = K := rfl
  rw [dfsCall, callTrials, hactive]
  obtain hfull | hless := hlen.eq_or_lt
  · obtain ⟨q', k', htrial, hbest⟩ := @trial_spec N board mem _ hfuel _ hK q k
    rw [if_pos hfull, if_pos hfull, choices_full hfull]
    refine ⟨q', k', htrial, hbest, rfl, fun s hs => ⟨q, k, ?_⟩⟩
    rw [List.mem_singleton.1 hs]
    rfl
  · rw [if_neg hless.ne, if_neg hless.ne]
    exact hloop hless q k

theorem dfsLoop_enumerates {fuel : ℕ} (hfuel : N * N < fuel) {rest : List Cell}
    (hrest : ∀ p ∈ rest, p ∈ viruses N board) (hK : ∀ p ∈ K, p ∈ viruses N board)
    (hlen : K.length < M) :
    Enumerates N board mem K (choices M K rest) (dfsLoop N M fuel rest)
      (loopTrials N M fuel rest) := by
  induction rest generalizing K with
  | nil =>
    intro q k
    rw [choices_nil hlen]
    refine ⟨q, k, rfl, ⟨le_rfl, fun S hS => ?_, .inl rfl⟩, rfl, fun s hs => ?_⟩
    · cases hS
    · cases hs
  | cons now rest ih =>
    intro q k
    have htail : ∀ p ∈ rest, p ∈ viruses N board :=
      fun p hp => hrest p (List.mem_cons_of_mem now hp)
    have hK' : ∀ p ∈ K ++ [now], p ∈ viruses N board := by
      intro p hp
      obtain hp | hp := List.mem_append.1 hp
      · exact hK p hp
      · rw [List.mem_singleton.1 hp]
        exact hrest now List.mem_cons_self
    have hlen' : (K ++ [now]).length ≤ M := by
      rw [List.length_append, List.length_singleton]
      exact hlen
    have hactivated : activated (ready N board mem K q k) now =
        ready N board mem (K ++ [now]) q k := rfl
    have hdeactivated : ∀ q k, deactivated (ready N board mem (K ++ [now]) q k) =
        ready N board mem K q k := by
      intro q k
      rw [deactivated, ready, ready, List.dropLast_concat]
    obtain ⟨q₁, k₁, hcall, hbest, hvisits⟩ :=
      dfsCall_enumerates hfuel hK' hlen' (ih htail hK') q k
    obtain ⟨q₂, k₂, hloop, hbest', hvisits'⟩ := ih htail hK hlen q₁ k₁
    rw [dfsLoop, loopTrials, hactivated, hcall, Option.bind_some, hdeactivated,
      choices_cons hlen]
    dsimp only
    rw [hdeactivated]
    exact ⟨q₂, k₂, hloop, hbest.append hbest', hvisits.append hvisits'⟩

end Choices

theorem Best.unique {sets : List (List Cell)} {k k₁ k₂ : ℤ} (h₁ : Best N board sets k k₁)
    (h₂ : Best N board sets k k₂) : k₁ = k₂ := by
  have hle : ∀ {k₁ k₂}, Best N board sets k k₁ → Best N board sets k k₂ → k₁ ≤ k₂ := by
    intro k₁ k₂ h₁ h₂
    obtain rfl | ⟨S, hS, t, ht, rfl⟩ := h₂.attained
    · exact h₁.le
    · obtain ⟨t', -, ht', hle⟩ := h₁.tried S hS ht.covers
      rwa [isTime_unique ht ht']
  exact le_antisymm (hle h₁ h₂) (hle h₂ h₁)

theorem chosen_iff {M : ℕ} {S : Finset Cell} :
    Chosen N board M S ↔ ∃ l ∈ choices M [] (viruses N board), l.toFinset = S := by
  have hmem : ∀ l, l ∈ choices M [] (viruses N board) ↔
      l.Sublist (viruses N board) ∧ l.length = M := by
    intro l
    simp [choices, List.mem_sublistsLen]
  have hnodup : (viruses N board).Nodup := (nodup_cells N).filter _
  constructor
  · intro h
    have hset : ((viruses N board).filter (· ∈ S)).toFinset = S := by
      ext p
      rw [List.mem_toFinset, List.mem_filter, decide_eq_true_iff, mem_viruses]
      exact ⟨And.right, fun hp => ⟨h.virus p hp, hp⟩⟩
    refine ⟨_, (hmem _).2 ⟨List.filter_sublist, ?_⟩, hset⟩
    rw [← List.toFinset_card_of_nodup (hnodup.filter _), hset, h.card]
  · rintro ⟨l, hl, rfl⟩
    obtain ⟨hsub, hlen⟩ := (hmem l).1 hl
    refine ⟨?_, fun p hp => mem_viruses.1 (hsub.subset (List.mem_toFinset.1 hp))⟩
    rw [List.toFinset_card_of_nodup (hnodup.sublist hsub), hlen]

theorem dfs_enumerates {M fuel : ℕ} (hfuel : N * N < fuel) (mem : Cell → ℤ) :
    Enumerates N board mem [] (choices M [] (viruses N board)) (dfs N M fuel 0)
      (dfsTrials N M fuel 0) :=
  dfsCall_enumerates hfuel (fun _ hp => absurd hp List.not_mem_nil) (Nat.zero_le M) fun hlen =>
    dfsLoop_enumerates hfuel (fun _ hp => hp) (fun _ hp => absurd hp List.not_mem_nil) hlen

end Trials

section Output
variable {N M fuel : ℕ} {board : Cell → Kind} {ans : ℤ}

/-- The printed number is the least time of the chosen sets, if there is one. -/
theorem isLeast_of_best (hN : N ≤ 50)
    (hbest : Best N board (choices M [] (viruses N board)) 987654321 ans) :
    (ans = 987654321 ∧ ¬∃ S : Finset Cell, Chosen N board M S ∧ Covers N board S) ∨
      ∃ t : ℕ, ans = t ∧ ans ≠ 987654321 ∧
        IsLeast {t | ∃ S : Finset Cell, Chosen N board M S ∧ IsTime N board S t} t := by
  have hsquare : N * N ≤ 50 * 50 := Nat.mul_le_mul hN hN
  have htried : ∀ S : Finset Cell, Chosen N board M S → Covers N board S →
      ∃ t ≤ N * N, IsTime N board S t ∧ ans ≤ t := by
    intro S hS hcovers
    obtain ⟨l, hl, rfl⟩ := chosen_iff.1 hS
    rw [List.coe_toFinset] at hcovers ⊢
    exact hbest.tried l hl hcovers
  obtain hans | ⟨l, hl, t, ht, hans⟩ := hbest.attained
  · refine .inl ⟨hans, ?_⟩
    rintro ⟨S, hS, hcovers⟩
    obtain ⟨t, ht, -, hle⟩ := htried S hS hcovers
    omega
  · rw [← List.coe_toFinset] at ht
    have hchosen : Chosen N board M l.toFinset := chosen_iff.2 ⟨l, hl, rfl⟩
    obtain ⟨t', hle', ht', -⟩ := htried _ hchosen ht.covers
    obtain rfl := isTime_unique ht ht'
    refine .inr ⟨t, hans, by omega, ⟨_, hchosen, ht⟩, ?_⟩
    rintro u ⟨S, hS, hu⟩
    obtain ⟨u', -, hu', hle⟩ := htried S hS hu.covers
    obtain rfl := isTime_unique hu hu'
    omega

theorem exists_output (hfuel : N * N < fuel) (board : Cell → Kind) :
    ∃ k, Best N board (choices M [] (viruses N board)) 987654321 k ∧
      ∀ mem, output N M fuel board mem = some (if k ≠ 987654321 then k else -1) := by
  have hrun := fun mem => @dfs_enumerates N board M fuel hfuel mem [] 987654321
  obtain ⟨q, k, -, hbest, -⟩ := hrun fun _ => 0
  refine ⟨k, hbest, fun mem => ?_⟩
  obtain ⟨q', k', hdfs, hbest', -⟩ := hrun mem
  rw [output, readBoard_eq, hdfs, hbest.unique hbest']
  rfl

theorem trials_spec (hfuel : N * N < fuel) (board : Cell → Kind) (mem : Cell → ℤ) :
    (∀ s ∈ trials N M fuel board mem, ∀ p, InBound N p → s.field p = (board p).code) ∧
      ∀ S, Chosen N board M S ↔
        ∃ s ∈ trials N M fuel board mem, s.katsuseiVirus.toFinset = S := by
  obtain ⟨q, k, -, -, hvisits⟩ :=
    @dfs_enumerates N board M fuel hfuel mem [] 987654321
  rw [← readBoard_eq] at hvisits
  constructor
  · intro s hs p hp
    obtain ⟨q', k', heq⟩ := hvisits.ready s hs
    rw [heq]
    exact if_pos (mem_cells.2 hp)
  · intro S
    rw [chosen_iff, ← hvisits.sets]
    simp only [List.mem_map, exists_exists_and_eq_and]
    rfl

/-- The program prints the least time in which `M` viruses can fill all the spaces, or -1; what is
in memory outside of the board does not matter, and each set is tried on the board as it is. -/
theorem output_spec (hN : N ≤ 50) (hfuel : N * N < fuel) (board : Cell → Kind) :
    (∃ ans : ℤ, (∀ mem, output N M fuel board mem = some ans) ∧
      ((∃ S : Finset Cell, Chosen N board M S ∧ Covers N board S) → ∃ t : ℕ, ans = t ∧
        IsLeast {t | ∃ S : Finset Cell, Chosen N board M S ∧ IsTime N board S t} t) ∧
      ((¬∃ S : Finset Cell, Chosen N board M S ∧ Covers N board S) → ans = -1) ∧
      ((∃ S : Finset Cell, Chosen N board M S) → (¬∃ p, Space N board p) → ans = 0)) ∧
      ∀ mem,
        (∀ s ∈ trials N M fuel board mem, ∀ p, InBound N p → s.field p = (board p).code) ∧
        ∀ S, Chosen N board M S ↔
          ∃ s ∈ trials N M fuel board mem, s.katsuseiVirus.toFinset = S := by
  refine ⟨?_, trials_spec hfuel board⟩
  obtain ⟨k, hbest, houtput⟩ := exists_output (M := M) hfuel board
  refine ⟨_, houtput, ?_⟩
  obtain ⟨rfl, hnone⟩ | ⟨t, rfl, hne, hleast⟩ := isLeast_of_best hN hbest
  · refine ⟨fun h => absurd h hnone, fun _ => rfl, ?_⟩
    rintro ⟨S, hS⟩ hspace
    exact absurd ⟨S, hS, fun p hp => absurd ⟨p, hp⟩ hspace⟩ hnone
  · obtain ⟨S, hS, ht⟩ := hleast.1
    rw [if_pos hne]
    refine ⟨fun _ => ⟨t, rfl, hleast⟩, fun h => absurd ⟨S, hS, ht.covers⟩ h, fun _ hspace => ?_⟩
    obtain ⟨⟨p, hp, -⟩, -⟩ | ⟨rfl, -⟩ := ht.largest
    · exact absurd ⟨p, hp⟩ hspace
    · rfl

/-- A virus with a space on its right. -/
def strip (p : Cell) : Kind :=
  if p = (0, 0) then .virus else if p = (0, 1) then .space else .wall

theorem output_strip :
    (∃ ans : ℤ, (∀ mem, output 2 1 5 strip mem = some ans) ∧
      ((∃ S : Finset Cell, Chosen 2 strip 1 S ∧ Covers 2 strip S) → ∃ t : ℕ, ans = t ∧
        IsLeast {t | ∃ S : Finset Cell, Chosen 2 strip 1 S ∧ IsTime 2 strip S t} t) ∧
      ((¬∃ S : Finset Cell, Chosen 2 strip 1 S ∧ Covers 2 strip S) → ans = -1) ∧
      ((∃ S : Finset Cell, Chosen 2 strip 1 S) → (¬∃ p, Space 2 strip p) → ans = 0)) ∧
      ∀ mem,
        (∀ s ∈ trials 2 1 5 strip mem, ∀ p, InBound 2 p → s.field p = (strip p).code) ∧
        ∀ S, Chosen 2 strip 1 S ↔
          ∃ s ∈ trials 2 1 5 strip mem, s.katsuseiVirus.toFinset = S :=
  output_spec (by decide) (by decide) strip

example : output 2 1 5 strip (fun _ => 0) = some 1 := by rfl

/-- Without enough viruses, -1 is printed for a board without a space too. -/
theorem output_wall :
    ¬∀ (N M fuel : ℕ) (board : Cell → Kind) (mem : Cell → ℤ), N ≤ 50 → 1 ≤ M → N * N < fuel →
      (¬∃ p, Space N board p) → output N M fuel board mem = some 0 := by
  intro h
  have hspace : ¬∃ p, Space 1 (fun _ => .wall) p := by
    rintro ⟨p, -, hp⟩
    cases hp
  have h0 := h 1 1 2 (fun _ => .wall) (fun _ => 0) (by decide) le_rfl (by decide) hspace
  have h1 : output 1 1 2 (fun _ => .wall) (fun _ => 0) = some (-1) := rfl
  rw [h1] at h0
  cases h0

end Output

end VirusSpread
