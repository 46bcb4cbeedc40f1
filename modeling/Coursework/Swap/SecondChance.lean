import Mathlib.Data.List.TakeWhile
import Coursework.Swap.Clock
import Coursework.Swap.Ownership

/-! What one call of `clock` does: which nodes of the ring it inspects, which it passes over,
and which it returns. -/
namespace Swap
open Program

/-- The nodes of a ring from `head` on along `prev`. -/
def scanOrder : List ℕ → List ℕ
  | [] => []
  | h :: t => h :: t.reverse

/-- The nodes passed over: those before the first one with a clear accessed bit. -/
def passed (s : Kernel) (l : List ℕ) : List ℕ := (scanOrder l).takeWhile fun i => (s.entry i).a

/-- The first node in scan order whose accessed bit is clear, or `head` if all are set. -/
def victim (s : Kernel) (l : List ℕ) : Option ℕ :=
  ((scanOrder l).find? fun i => !(s.entry i).a).or l.head?

/-- The nodes inspected. -/
def inspected (s : Kernel) (l : List ℕ) : List ℕ := passed s l ++ (victim s l).toList

/-- The nodes of the ring name pages with a page table, no two the same page. -/
structure NamesPages (s : Kernel) (l : List ℕ) : Prop where
  mapped : ∀ i ∈ l, (s.walkpgdir (s.names i).1 (s.names i).2).isSome
  inj : ∀ i ∈ l, ∀ j ∈ l, s.names i = s.names j → i = j

/-- `clock` ends after at most one inspection more than the ring has nodes, returns the victim,
clears the accessed bits of the pages it passed over and nothing else, and leaves the ring, read
from its new head, a rotation of what it was. -/
def SecondChance (s : Kernel) (l : List ℕ) : Prop :=
  ∃ i s', clock s = ⟨[], .ok i s'⟩ ∧
    (inspected s l).length ≤ l.length + 1 ∧
    (∀ n, (inspected s l).length ≤ n → clockFrom n s = ⟨[], .ok i s'⟩) ∧
    victim s l = some i ∧
    s' = { s with dirs := s'.dirs, head := s'.head } ∧
    (∀ d v, (s'.walkpgdir d v).isSome = (s.walkpgdir d v).isSome ∧ s'.look d v =
      if ∃ j ∈ passed s l, s.names j = (d, v) then { s.look d v with a := false }
      else s.look d v) ∧
    ∃ l', l ~r l' ∧ RingOf s' l'

/-- The state after the scan has passed over a node. -/
def pass (s : Kernel) (i : ℕ) : Kernel :=
  { s.setPte (s.names i).1 (s.names i).2 { s.entry i with a := false } with
    head := (s.node i).prev }

variable {s : Kernel} {l o : List ℕ} {i j n : ℕ}

section Rounds

theorem clockFrom_zero_addr (hh : s.head = some i) (hv : (s.node i).vaddr = 0) :
    clockFrom (n + 1) s = ⟨[], .error .invalidHead s⟩ := by
  rw [clockFrom, read_bind_apply, hh]
  dsimp only
  rw [if_pos hv]
  rfl

variable (hw : (s.walkpgdir (s.names i).1 (s.names i).2).isSome)
include hw

theorem walk_names : s.walkpgdir (s.node i).pgdir ((s.node i).vaddr / 4096) = some (s.entry i) := by
  obtain ⟨e, he⟩ := Option.isSome_iff_exists.1 hw
  rw [Kernel.entry, Kernel.look_of_walk he]
  exact he

theorem clockFrom_set (hh : s.head = some i) (hv : (s.node i).vaddr ≠ 0)
    (ha : (s.entry i).a = true) : clockFrom (n + 1) s = clockFrom n (pass s i) := by
  rw [clockFrom, read_bind_apply, hh]
  dsimp only
  rw [if_neg hv, walk_names hw]
  dsimp only
  rw [if_pos ha, change_bind_apply]
  rfl

theorem clockFrom_clear (hh : s.head = some i) (hv : (s.node i).vaddr ≠ 0)
    (ha : (s.entry i).a = false) :
    clockFrom (n + 1) s = ⟨[], .ok i { s with head := (s.node i).prev }⟩ := by
  rw [clockFrom, read_bind_apply, hh]
  dsimp only
  rw [if_neg hv, walk_names hw]
  dsimp only
  rw [if_neg (by rw [ha]; decide), change_bind_apply]
  rfl

theorem look_pass (d v : ℕ) : (pass s i).look d v =
    if s.names i = (d, v) then { s.look d v with a := false } else s.look d v := by
  have hset : (pass s i).look d v = (s.setPte (s.names i).1 (s.names i).2
    { s.entry i with a := false }).look d v := rfl
  rw [hset, Kernel.look_setPte hw]
  by_cases hn : s.names i = (d, v)
  · rw [if_pos hn, if_pos ⟨congrArg Prod.fst hn.symm, congrArg Prod.snd hn.symm⟩, Kernel.entry, hn]
  · rw [if_neg hn, if_neg fun hc => hn (Prod.ext hc.1.symm hc.2.symm)]

end Rounds

section Scan

/-- The state after the scan has passed over the nodes of a list. -/
def passAll (s : Kernel) (o : List ℕ) : Kernel := o.foldl pass s

theorem isSome_walk_pass (s : Kernel) (i d v : ℕ) :
    ((pass s i).walkpgdir d v).isSome = (s.walkpgdir d v).isSome :=
  Kernel.isSome_walkpgdir_setPte

theorem passAll_only (o : List ℕ) : ∀ s : Kernel,
    passAll s o = { s with dirs := (passAll s o).dirs, head := (passAll s o).head } := by
  induction o with
  | nil => exact fun s => rfl
  | cons i o ih => exact fun s => ih (pass s i)

theorem isSome_walk_passAll (o : List ℕ) (d v : ℕ) : ∀ s : Kernel,
    ((passAll s o).walkpgdir d v).isSome = (s.walkpgdir d v).isSome := by
  induction o with
  | nil => exact fun s => rfl
  | cons i o ih => exact fun s => (ih (pass s i)).trans (isSome_walk_pass s i d v)

theorem look_passAll (d v : ℕ) (o : List ℕ) : ∀ {s : Kernel},
    (∀ i ∈ o, (s.walkpgdir (s.names i).1 (s.names i).2).isSome) → (passAll s o).look d v =
      if ∃ j ∈ o, s.names j = (d, v) then { s.look d v with a := false } else s.look d v := by
  induction o with
  | nil =>
    intro s _
    rw [if_neg (by simp)]
    rfl
  | cons i o ih =>
    intro s hw
    have hi := hw i List.mem_cons_self
    have hnames : ∀ j, (pass s i).names j = s.names j := fun _ => rfl
    have hnext : (passAll s (i :: o)).look d v = (passAll (pass s i) o).look d v := rfl
    rw [hnext, ih (s := pass s i) (fun j hj => by
      rw [isSome_walk_pass]
      exact hw j (List.mem_cons_of_mem _ hj)), look_pass hi]
    simp only [hnames]
    by_cases h1 : s.names i = (d, v)
    · have hself : ∃ j ∈ i :: o, s.names j = (d, v) := ⟨i, List.mem_cons_self, h1⟩
      rw [if_pos h1, if_pos hself]
      split_ifs
      · rfl
      · rfl
    · rw [if_neg h1]
      exact if_congr (by simp [h1]) rfl rfl

/-- The scan of `clock` along a list of nodes whose accessed bits are set. -/
theorem clockFrom_passAll (o : List ℕ) (x n : ℕ) : ∀ {s : Kernel},
    (o ++ [x]).IsChain (fun a b => (s.node a).prev = some b) → s.head = (o ++ [x]).head? →
    (∀ i ∈ o, (s.node i).vaddr ≠ 0 ∧ (s.walkpgdir (s.names i).1 (s.names i).2).isSome ∧
      (s.entry i).a = true) → o.Pairwise (fun i j => s.names i ≠ s.names j) →
    clockFrom (o.length + n) s = clockFrom n (passAll s o) ∧ (passAll s o).head = some x := by
  induction o with
  | nil =>
    intro s _ hh _ _
    rw [List.length_nil, Nat.zero_add]
    exact ⟨rfl, hh⟩
  | cons i o ih =>
    intro s hchain hh hall hpair
    obtain ⟨hv, hw, ha⟩ := hall i List.mem_cons_self
    obtain ⟨hfirst, hrest⟩ := List.pairwise_cons.1 hpair
    have hchain' : (o ++ [x]).IsChain (fun a b => (s.node a).prev = some b) := hchain.tail
    have hhead : (pass s i).head = (o ++ [x]).head? := by
      change (s.node i).prev = _
      rw [List.cons_append] at hchain
      cases hc : o ++ [x] with
      | nil => exact absurd hc (by simp)
      | cons b t =>
        rw [hc] at hchain
        exact (List.isChain_cons_cons.1 hchain).1
    have hrest' := ih (s := pass s i) hchain' hhead (fun j hj => by
      obtain ⟨hv', hw', ha'⟩ := hall j (List.mem_cons_of_mem _ hj)
      refine ⟨hv', ?_, ?_⟩
      · rw [isSome_walk_pass]
        exact hw'
      · have hlook : (pass s i).entry j = s.entry j := by
          change (pass s i).look (s.names j).1 (s.names j).2 = _
          rw [look_pass hw, if_neg (hfirst j hj)]
          rfl
        rw [hlook]
        exact ha') hrest
    refine ⟨?_, hrest'.2⟩
    rw [List.length_cons, Nat.add_right_comm, clockFrom_set hw hh hv ha]
    exact hrest'.1

end Scan

section Ring

theorem perm_scanOrder (l : List ℕ) : (scanOrder l).Perm l := by
  cases l with
  | nil => exact List.Perm.refl _
  | cons h t => exact (List.reverse_perm t).cons h

theorem mem_of_mem_passed (hj : j ∈ passed s l) : j ∈ l :=
  (perm_scanOrder l).mem_iff.1 (List.takeWhile_subset _ hj)

theorem accessed_of_mem_passed (hj : j ∈ passed s l) : (s.entry j).a = true :=
  List.all_eq_true.1 List.all_takeWhile j hj

theorem RingOf.prevChain (hr : RingOf s l) :
    (scanOrder l ++ l.head?.toList).IsChain fun a b => (s.node a).prev = some b := by
  cases l with
  | nil => exact List.isChain_nil
  | cons h t =>
    have hlinked := hr.linked
    rw [Ring.linked_cons, ← List.isChain_reverse] at hlinked
    have hrev : (h :: (t ++ [h])).reverse = h :: t.reverse ++ [h] := by simp
    rw [hrev] at hlinked
    exact hlinked.imp fun _ _ hl => hl.2

/-- The nodes inspected are passed over but for the last one. -/
theorem RingOf.exists_victim (hr : RingOf s l) (hl : l ≠ []) :
    ∃ x rest, victim s l = some x ∧ x ∈ l ∧
      scanOrder l ++ l.head?.toList = passed s l ++ x :: rest ∧
      ((s.entry x).a = false ∨ x ∈ passed s l) := by
  have hsplit : passed s l ++ (scanOrder l).dropWhile (fun i => (s.entry i).a) = scanOrder l :=
    List.takeWhile_append_dropWhile
  have hfind : (scanOrder l).find? (fun i => !(s.entry i).a) =
      ((scanOrder l).dropWhile fun i => (s.entry i).a).head? :=
    List.find?_not_eq_head?_dropWhile _ _
  obtain ⟨h, t, rfl⟩ := List.exists_cons_of_ne_nil hl
  unfold victim
  rw [hfind]
  cases hrest : (scanOrder (h :: t)).dropWhile fun i => (s.entry i).a with
  | nil =>
    -- all bits are set, and the scan comes back to `head`
    rw [hrest, List.append_nil] at hsplit
    refine ⟨h, [], rfl, List.mem_cons_self, by rw [hsplit]; rfl, .inr ?_⟩
    rw [hsplit]
    exact List.mem_cons_self
  | cons x rest =>
    have hmem : x ∈ scanOrder (h :: t) :=
      List.dropWhile_subset (fun i => (s.entry i).a) (hrest ▸ List.mem_cons_self)
    have hx : (s.entry x).a = false := by
      have hnot := List.head?_dropWhile_not (fun i => (s.entry i).a) (scanOrder (h :: t))
      rw [hrest] at hnot
      simpa using hnot
    refine ⟨x, rest ++ [h], rfl, (perm_scanOrder _).mem_iff.1 hmem, ?_, .inl hx⟩
    rw [hrest] at hsplit
    rw [← List.cons_append, ← List.append_assoc, hsplit]
    rfl

/-- The scan along the first nodes of the ring, if their accessed bits are set. -/
theorem RingOf.scan (hr : RingOf s l) (hu : NamesPages s l) {x : ℕ} {rest : List ℕ}
    (hsplit : scanOrder l ++ l.head?.toList = o ++ x :: rest) (hsub : o <+: passed s l)
    (hv : ∀ i ∈ o, (s.node i).vaddr ≠ 0) (n : ℕ) :
    clockFrom (o.length + n) s = clockFrom n (passAll s o) ∧ (passAll s o).head = some x := by
  have hprefix : o ++ [x] <+: scanOrder l ++ l.head?.toList := by
    rw [hsplit]
    exact ⟨rest, by simp⟩
  have hnodup : o.Nodup :=
    ((perm_scanOrder l).nodup_iff.2 hr.nodup).sublist
      (hsub.sublist.trans (List.takeWhile_sublist _))
  have hmem : ∀ i ∈ o, i ∈ passed s l := fun i hi => hsub.subset hi
  have hchain := List.IsChain.prefix hr.prevChain hprefix
  refine clockFrom_passAll o x n hchain ?_ (fun i hi => ?_) ?_
  · have hhead : s.head = (scanOrder l ++ l.head?.toList).head? := by
      rw [hr.head]
      cases l with
      | nil => rfl
      | cons h t => rfl
    rw [hhead, hsplit]
    cases o with
    | nil => rfl
    | cons i o => rfl
  · exact ⟨hv i hi, hu.mapped i (mem_of_mem_passed (hmem i hi)),
      accessed_of_mem_passed (hmem i hi)⟩
  · refine hnodup.pairwise_of_forall_ne fun i hi j hj hne he => hne ?_
    exact hu.inj i (mem_of_mem_passed (hmem i hi)) j (mem_of_mem_passed (hmem j hj)) he

end Ring

section Result

theorem RingOf.nodes_congr {s' : Kernel} {h : ℕ} (hr : RingOf s l)
    (hs : s' = { s with dirs := s'.dirs, head := s'.head }) (hh : s'.head = some h) (hmem : h ∈ l) :
    ∃ l', l ~r l' ∧ RingOf s' l' := by
  obtain ⟨l₁, l₂, rfl⟩ := List.append_of_mem hmem
  have hrot : (l₁ ++ h :: l₂) ~r (h :: (l₂ ++ l₁)) := Ring.isRotated_cons_of_append
  have hlen := hrot.perm.length_eq
  refine ⟨_, hrot, ?_⟩
  rw [hs]
  refine ⟨hr.numLru.trans hlen, ?_, hh, hrot.nodup_iff.1 hr.nodup,
    fun i hi => hr.lt i (hrot.mem_iff.2 hi), hr.linked.rotate hrot,
    fun i hi => hr.zero i (mt hrot.mem_iff.1 hi)⟩
  rcases hr.numFree with hnf | ⟨hnil, -⟩
  · exact .inl (hlen ▸ hnf)
  · exact absurd hnil (by simp)

/-- If no inspected node is at address 0, `clock` is a second-chance scan. -/
theorem RingOf.secondChance (hr : RingOf s l) (hl : l ≠ []) (hu : NamesPages s l)
    (hv : ∀ i ∈ inspected s l, (s.node i).vaddr ≠ 0) : SecondChance s l := by
  obtain ⟨x, rest, hx, hxl, hsplit, hbit⟩ := hr.exists_victim hl
  have hins : inspected s l = passed s l ++ [x] := by rw [inspected, hx]; rfl
  have hlen : (passed s l).length ≤ l.length := by
    rw [← (perm_scanOrder l).length_eq]
    exact (List.takeWhile_sublist _).length_le
  rw [hins] at hv
  have hvx : (s.node x).vaddr ≠ 0 := hv x (by simp)
  have hscan (n : ℕ) := hr.scan hu hsplit (List.prefix_refl _)
    (fun i hi => hv i (List.mem_append_left _ hi)) n
  have honly := passAll_only (passed s l) s
  have hnode : (passAll s (passed s l)).node = s.node := by rw [honly]
  have hlook (d v : ℕ) := look_passAll d v (passed s l)
    fun i hi => hu.mapped i (mem_of_mem_passed hi)
  -- when the victim is reached its bit is clear, at the latest by the first time round
  have hclear : ((passAll s (passed s l)).entry x).a = false := by
    rw [Kernel.entry, Kernel.names, hnode]
    change ((passAll s (passed s l)).look (s.names x).1 (s.names x).2).a = false
    rw [hlook]
    split_ifs with hc
    · rfl
    · rcases hbit with hbit | hbit
      · exact hbit
      · exact absurd ⟨x, hbit, rfl⟩ hc
  have hw : ((passAll s (passed s l)).walkpgdir ((passAll s (passed s l)).names x).1
      ((passAll s (passed s l)).names x).2).isSome := by
    rw [Kernel.names, hnode, isSome_walk_passAll]
    exact hu.mapped x hxl
  have hresult (n : ℕ) (hn : (passed s l).length + 1 ≤ n) : clockFrom n s =
      ⟨[], .ok x { passAll s (passed s l) with head := (s.node x).prev }⟩ := by
    obtain ⟨k, rfl⟩ : ∃ k, n = (passed s l).length + (k + 1) :=
      ⟨n - (passed s l).length - 1, by omega⟩
    obtain ⟨hrun, hhead⟩ := hscan (k + 1)
    have hprev : ((passAll s (passed s l)).node x).prev = (s.node x).prev := by rw [hnode]
    rw [hrun, clockFrom_clear hw hhead (by rwa [hnode]) hclear, hprev]
  have hinslen : (inspected s l).length = (passed s l).length + 1 := by rw [hins]; simp
  refine ⟨x, _, ?_, by omega, fun n hn => hresult n (by omega), hx, ?_,
    fun d v => ⟨?_, hlook d v⟩, ?_⟩
  · rw [clock, read_bind_apply]
    exact hresult _ (by rw [hr.numLru]; omega)
  · rw [honly]
  · exact isSome_walk_passAll (passed s l) d v s
  · obtain ⟨z, hz, -, hprev⟩ := hr.linked.exists_prev hxl
    refine hr.nodes_congr ?_ hprev hz
    rw [honly]

/-- An inspected node at address 0 stops the kernel. -/
theorem RingOf.clock_panics (hr : RingOf s l) (hl : l ≠ []) (hu : NamesPages s l)
    (hv : ∃ i ∈ inspected s l, (s.node i).vaddr = 0) :
    ∃ s', clock s = ⟨[], .error .invalidHead s'⟩ := by
  obtain ⟨x, rest, hx, hxl, hsplit, -⟩ := hr.exists_victim hl
  have hins : inspected s l = passed s l ++ [x] := by rw [inspected, hx]; rfl
  have hlen : (passed s l).length ≤ l.length := by
    rw [← (perm_scanOrder l).length_eq]
    exact (List.takeWhile_sublist _).length_le
  -- the first such node
  obtain ⟨o, z, rest', hfirst, ho, hz⟩ : ∃ o z rest', inspected s l = o ++ z :: rest' ∧
      (∀ i ∈ o, (s.node i).vaddr ≠ 0) ∧ (s.node z).vaddr = 0 := by
    obtain ⟨i, hi, hi0⟩ := hv
    obtain ⟨z, hz⟩ := Option.isSome_iff_exists.1
      (List.find?_isSome.2 ⟨i, hi, decide_eq_true hi0⟩ : ((inspected s l).find?
        fun i => decide ((s.node i).vaddr = 0)).isSome)
    obtain ⟨hz0, o, rest', hsplit', ho⟩ := List.find?_eq_some_iff_append.1 hz
    exact ⟨o, z, rest', hsplit', fun i hi => by simpa using ho i hi, of_decide_eq_true hz0⟩
  have hsub : o <+: passed s l := by
    rw [hins] at hfirst
    have hpre : o <+: passed s l ++ [x] := ⟨z :: rest', hfirst.symm⟩
    refine List.prefix_of_prefix_length_le hpre (List.prefix_append _ _) ?_
    have := congrArg List.length hfirst
    simp at this
    omega
  have hlen' := hsub.length_le
  obtain ⟨k, hk⟩ : ∃ k, s.numLru + 1 = o.length + (k + 1) :=
    ⟨s.numLru - o.length, by rw [hr.numLru]; omega⟩
  have hwhole : scanOrder l ++ l.head?.toList = o ++ z :: (rest' ++ rest) := by
    rw [hsplit, ← List.cons_append, ← List.append_assoc o, ← hfirst, hins]
    simp
  obtain ⟨hrun, hhead⟩ := hr.scan hu hwhole hsub ho (k + 1)
  have honly := passAll_only o s
  refine ⟨passAll s o, ?_⟩
  rw [clock, read_bind_apply, hk, hrun, clockFrom_zero_addr hhead]
  rw [honly]
  exact hz

/-- `clock` is a second-chance scan exactly if no node that it inspects is at address 0. -/
theorem clock_secondChance_iff (hr : RingOf s l) (hl : l ≠ []) (hu : NamesPages s l) :
    SecondChance s l ↔ ∀ i ∈ inspected s l, (s.node i).vaddr ≠ 0 := by
  refine ⟨fun h i hi hv => ?_, hr.secondChance hl hu⟩
  obtain ⟨s', hpanic⟩ := hr.clock_panics hl hu ⟨i, hi, hv⟩
  obtain ⟨x, s'', hok, -⟩ := h
  rw [hpanic] at hok
  cases hok

/-- The ring after `lru_append` of addresses 0 and 4096 of one directory; `a` is the accessed bit
of the second page. -/
def twoNodes (a : Bool) : Kernel :=
  { booted 0 with
    dirs := fun d => if d = 600 then
        some ⟨fun _ => some 601, fun v => ⟨602 + v, true, true, true, v == 1 && a, false⟩⟩
      else none
    node := fun i => if i = 0 then ⟨some 1, some 1, 600, 0⟩
      else if i = 1 then ⟨some 0, some 0, 600, 4096⟩ else Page.zero
    head := some 1
    numFree := 1534
    numLru := 2 }

theorem ringOf_twoNodes (a : Bool) : RingOf (twoNodes a) [1, 0] where
  numLru := rfl
  numFree := .inl rfl
  head := rfl
  nodup := by decide
  lt := by decide
  linked := by
    rw [Ring.linked_cons]
    simp [Ring.Link, twoNodes]
  zero i hi := by
    simp only [List.mem_cons, List.not_mem_nil, or_false, not_or] at hi
    simp [twoNodes, hi.1, hi.2]

theorem namesPages_twoNodes (a : Bool) : NamesPages (twoNodes a) [1, 0] where
  mapped := by simp [Kernel.names, Kernel.walkpgdir, twoNodes]
  inj := by simp [Kernel.names, twoNodes]

/-- The page at address 4096 is the victim before the scan comes to address 0. -/
theorem clock_secondChance_twoNodes : SecondChance (twoNodes false) [1, 0] :=
  (clock_secondChance_iff (ringOf_twoNodes false) (by decide) (namesPages_twoNodes false)).2
    (by decide)

/-- Once the page at address 4096 has been accessed, the scan meets the one at address 0. -/
theorem clock_panics_twoNodes :
    ¬ ∀ s l, RingOf s l → l ≠ [] → NamesPages s l → SecondChance s l := by
  intro h
  obtain ⟨i, s', hclock, -⟩ := h (twoNodes true) [1, 0] (ringOf_twoNodes true) (by decide)
    (namesPages_twoNodes true)
  have hend := congrArg Outcome.result hclock
  have hpanic : (clock (twoNodes true)).result = .error .invalidHead _ := rfl
  rw [hpanic] at hend
  cases hend

end Result
end Swap
