import Coursework.Malloc.Blocks
import Coursework.Lib.Machine

/-! Programs that allocate, free and write: the allocator implements a store of blocks that do
not overlap and keep what is written into them. -/
namespace Malloc
open Tiling Ring Transitions

/-- A process, with the headers of the blocks that it has got from `malloc` and not yet freed. -/
structure Process where
  heap : Heap
  live : List ℕ

inductive Op where
  | malloc (nbytes : ℕ) (grants : Bool)
  | free (ap : ℕ)
  | store (u x y : ℕ)

def Heap.store (s : Heap) (u x y : ℕ) : Heap :=
  { s with ptr := Function.update s.ptr u x, size := Function.update s.size u y }

/-- The result of the call and the process after it. -/
def exec (base : ℕ) (p : Process) : Op → Option (ℕ × Process)
  | .malloc nbytes grants => (malloc base grants nbytes p.heap).map fun r =>
      (r.1, ⟨r.2, if r.1 = 0 then p.live else (r.1 - 1) :: p.live⟩)
  | .free ap => (free ap p.heap).map fun s => (0, ⟨s, p.live.erase (ap - 1)⟩)
  | .store u x y => some (0, { p with heap := p.heap.store u x y })

/-- A program frees only what it has got, writes only into its blocks, and asks for no more than
`sbrk` can take as an `int`. -/
def Allowed (p : Process) : Op → Prop
  | .malloc nbytes _ => nbytes + 16 ≤ 2147483648
  | .free ap => ∃ a ∈ p.live, ap = a + 1
  | .store u _ _ => ∃ a ∈ p.live, a < u ∧ u < a + p.heap.size a

/-- A step is labelled with the call and its result. -/
def Step (base : ℕ) (p : Process) (l : Op × ℕ) (p' : Process) : Prop :=
  Allowed p l.1 ∧ exec base p l.1 = some (l.2, p')

/-- Blocks, with their addresses and sizes, and the words in memory. -/
structure Store where
  live : List (ℕ × ℕ)
  words : ℕ → ℕ × ℕ

/-- The words of the block in both stores. -/
def Store.Agree (t t' : Store) (b : ℕ × ℕ) : Prop :=
  ∀ u, b.1 ≤ u → u < b.1 + b.2 → t'.words u = t.words u

/-- `malloc` returns null or a new block with room for `nbytes` bytes after its header. -/
inductive Store.Step (t : Store) : Op × ℕ → Store → Prop
  | refused {nbytes t'} (hlive : t'.live = t.live) (hkeep : ∀ b ∈ t.live, t.Agree t' b) :
    Store.Step t (.malloc nbytes false, 0) t'
  | handed {nbytes grants a n t'} (hroom : nbytes ≤ 8 * (n - 1))
    (hnew : ∀ b ∈ t.live, b.1 + b.2 ≤ a ∨ a + n ≤ b.1) (hlive : t'.live = (a, n) :: t.live)
    (hkeep : ∀ b ∈ t.live, t.Agree t' b) : Store.Step t (.malloc nbytes grants, a + 1) t'
  | freed {a n t'} (ha : (a, n) ∈ t.live) (hlive : t'.live = t.live.erase (a, n))
    (hkeep : ∀ b ∈ t'.live, t.Agree t' b) : Store.Step t (.free (a + 1), 0) t'
  | stored {u x y} (hu : ∃ b ∈ t.live, b.1 < u ∧ u < b.1 + b.2) :
    Store.Step t (.store u x y, 0) { t with words := Function.update t.words u (x, y) }

/-- The store that a process sees. -/
def Process.view (p : Process) : Store :=
  ⟨p.live.map fun a => (a, p.heap.size a), fun u => (p.heap.ptr u, p.heap.size u)⟩

/-- Between two calls. Before the first `malloc` the list is not yet set up. -/
def Good (base lo : ℕ) (p : Process) : Prop :=
  (p.heap.freep = 0 → p.live = []) ∧
    ∃ ts, Repr base lo (start base p.heap) ts ∧ (starts true lo ts).Perm p.live

variable {base lo : ℕ} {p p' : Process} {ts : List Tile} {l : Op × ℕ}

theorem start_eq {s : Heap} (h : s.freep ≠ 0) : start base s = s := if_neg h

theorem Good.repr (h : Good base lo p) {a : ℕ} (ha : a ∈ p.live) :
    p.heap.freep ≠ 0 ∧ ∃ ts, Repr base lo p.heap ts ∧ (starts true lo ts).Perm p.live := by
  have hne : p.heap.freep ≠ 0 := by
    intro h0
    rw [h.1 h0] at ha
    cases ha
  have h2 := h.2
  rw [start_eq hne] at h2
  exact ⟨hne, h2⟩

theorem Repr.freep_ne {s : Heap} (h : Repr base lo s ts) : s.freep ≠ 0 :=
  (h.mem_nodes h.freep).1.ne'

theorem good_start (hb : 0 < base) (hlo : base < lo) {s : Heap} (hf : s.freep = 0)
    (hs : s.brk = lo) : Good base lo ⟨s, []⟩ := by
  have he : start base s = { (s.setPtr base base).setSize base 0 with freep := base } := if_pos hf
  refine ⟨fun _ => rfl, [], ?_, .nil⟩
  change Repr base lo (start base s) []
  rw [he]
  exact ⟨hb, hlo, hs, List.mem_cons_self, ⟨setPtr_ptr_self _ _ _, trivial⟩,
    setSize_size_self _ _ _, trivial, ⟨fun _ ht => (List.not_mem_nil ht).elim, List.isChain_nil⟩⟩

theorem units_pos (nbytes : ℕ) : 0 < units nbytes := Nat.succ_pos _

theorem le_units {nbytes : ℕ} (h : nbytes + 16 ≤ 2147483648) : nbytes ≤ 8 * (units nbytes - 1) := by
  unfold units
  omega

theorem units_lt {nbytes : ℕ} (h : nbytes + 16 ≤ 2147483648) : 8 * units nbytes < 2147483648 := by
  unfold units
  omega

theorem Repr.live_nodup {s : Heap} (h : Repr base lo s ts) : (starts true lo ts).Nodup :=
  (starts_pairwise h.merged.pos).imp fun hlt => hlt.ne

theorem Repr.live_apart {s : Heap} (h : Repr base lo s ts) {a b : ℕ}
    (ha : a ∈ starts true lo ts) (hb : b ∈ starts true lo ts) (hne : b ≠ a) :
    b + s.size b ≤ a ∨ a + s.size a ≤ b := by
  rcases Nat.lt_or_gt_of_ne hne with hlt | hlt
  · exact .inl (h.sized.disjoint hb ha hlt)
  · exact .inr (h.sized.disjoint ha hb hlt)

theorem Kept.view {s s' : Heap} {l : List ℕ} (l' : List ℕ) (h : ∀ b ∈ l, Kept s s' b)
    (hpos : ∀ b ∈ l, 0 < s.size b) :
    (Process.view ⟨s', l⟩).live = (Process.view ⟨s, l⟩).live ∧
      ∀ b ∈ (Process.view ⟨s, l⟩).live, (Process.view ⟨s, l'⟩).Agree (Process.view ⟨s', l'⟩) b := by
  constructor
  · refine List.map_congr_left fun b hb => ?_
    have := hpos b hb
    rw [(h b hb b le_rfl (by omega)).2]
  · intro b hb u hbu hub
    obtain ⟨a, ha, rfl⟩ := List.mem_map.1 hb
    obtain ⟨hx, hy⟩ := h a ha u hbu hub
    exact Prod.ext hx hy

theorem Good.malloc (h : Good base lo p) {nbytes : ℕ} (grants : Bool)
    (hn : nbytes + 16 ≤ 2147483648) :
    ∃ r p', exec base p (.malloc nbytes grants) = some (r, p') ∧ Good base lo p' ∧
      p.view.Step (.malloc nbytes grants, r) p'.view := by
  obtain ⟨ts, hr, hperm⟩ := h.2
  have hst : ∀ b ∈ p.live, start base p.heap = p.heap := fun b hb => start_eq (h.repr hb).1
  have hpos : ∀ b ∈ p.live, 0 < p.heap.size b := fun b hb => by
    rw [← hst b hb]
    exact hr.size_pos (hperm.mem_iff.2 hb)
  rcases search_spec grants hr (units_pos nbytes) (units_lt hn) le_rfl with
    ⟨a, s', ts', hsearch, hh⟩ | ⟨hsearch, rfl, -⟩
  · have hkept : ∀ b ∈ p.live, Kept p.heap s' b := fun b hb => by
      have hk := hh.kept b (hperm.mem_iff.2 hb)
      rwa [hst b hb] at hk
    have hperm' : (starts true lo ts').Perm (a :: p.live) := hh.live.trans (hperm.cons a)
    have hnd := hperm'.nodup_iff.1 hh.repr.live_nodup
    obtain ⟨hlive, hagree⟩ := Kept.view p.live hkept hpos
    have hexec : exec base p (.malloc nbytes grants) = some (a + 1, ⟨s', a :: p.live⟩) := by
      change (search _ _ _ _ _ _).map _ = _
      rw [hsearch]
      rfl
    refine ⟨_, _, hexec, ⟨fun h0 => absurd h0 hh.repr.freep_ne, ts', ?_, hperm'⟩,
      .handed (n := units nbytes) (le_units hn) (fun b hb => ?_) ?_ hagree⟩
    · change Repr base lo (start base s') ts'
      rw [start_eq hh.repr.freep_ne]
      exact hh.repr
    · obtain ⟨c, hc, rfl⟩ := List.mem_map.1 hb
      have hsize : s'.size c = p.heap.size c :=
        (hkept c hc c le_rfl (by have := hpos c hc; omega)).2
      have hca : c ≠ a := by
        rintro rfl
        exact (List.nodup_cons.1 hnd).1 hc
      have hap := hh.repr.live_apart (hperm'.mem_iff.2 List.mem_cons_self)
        (hperm'.mem_iff.2 (List.mem_cons_of_mem a hc)) hca
      rwa [hsize, hh.size] at hap
    · change (a, s'.size a) :: (Process.view ⟨s', p.live⟩).live = _
      rw [hh.size, hlive]
  · have hkept : ∀ b ∈ p.live, Kept p.heap (start base p.heap) b := fun b hb => by
      rw [hst b hb]
      exact fun _ _ _ => ⟨rfl, rfl⟩
    obtain ⟨hlive, hagree⟩ := Kept.view p.live hkept hpos
    have hexec : exec base p (.malloc nbytes false) = some (0, ⟨start base p.heap, p.live⟩) := by
      change (search _ _ _ _ _ _).map _ = _
      rw [hsearch]
      rfl
    refine ⟨_, _, hexec, ⟨fun h0 => absurd h0 hr.freep_ne, ts, ?_, hperm⟩, .refused hlive hagree⟩
    change Repr base lo (start base (start base p.heap)) ts
    rw [start_eq hr.freep_ne]
    exact hr

theorem Good.free (h : Good base lo p) {a : ℕ} (ha : a ∈ p.live) :
    ∃ r p', exec base p (.free (a + 1)) = some (r, p') ∧ Good base lo p' ∧
      p.view.Step (.free (a + 1), r) p'.view := by
  obtain ⟨-, ts, hr, hperm⟩ := h.repr ha
  have hnd := hr.live_nodup
  obtain ⟨ts₁, ⟨n, live⟩, ts₂, rfl, hlive, rfl⟩ := mem_starts.1 (hperm.mem_iff.2 ha)
  obtain rfl : live = true := hlive
  obtain ⟨s', ts', hfree, hr', -, hst, -, hkept⟩ := free_spec hr
  have hnd' := hperm.nodup_iff.1 hnd
  have herase : (starts true lo ts').Perm (p.live.erase (lo + total ts₁)) := by
    have he := hperm.erase (lo + total ts₁)
    rw [starts_append, starts_self] at he hnd
    have hnot : lo + total ts₁ ∉ starts true lo ts₁ := fun hm =>
      (List.nodup_append.1 hnd).2.2 _ hm _ List.mem_cons_self rfl
    rw [List.erase_append_right _ hnot, List.erase_cons_head] at he
    rw [hst]
    exact he
  have hkept' : ∀ b ∈ p.live.erase (lo + total ts₁), Kept p.heap s' b := fun b hb =>
    hkept b (hperm.mem_iff.2 (List.mem_of_mem_erase hb)) (hnd'.mem_erase_iff.1 hb).1
  have hpos : ∀ b ∈ p.live.erase (lo + total ts₁), 0 < p.heap.size b := fun b hb =>
    hr.size_pos (hperm.mem_iff.2 (List.mem_of_mem_erase hb))
  obtain ⟨hview, hagree⟩ := Kept.view (p.live.erase (lo + total ts₁)) hkept' hpos
  have hexec : exec base p (.free (lo + total ts₁ + 1)) =
      some (0, ⟨s', p.live.erase (lo + total ts₁)⟩) := by
    change (Malloc.free _ _).map _ = _
    rw [hfree]
    rfl
  have hinj : Function.Injective fun b => (b, p.heap.size b) := fun _ _ he => (Prod.mk.inj he).1
  refine ⟨_, _, hexec, ⟨fun h0 => absurd h0 hr'.freep_ne, ts', ?_, herase⟩,
    .freed (n := p.heap.size (lo + total ts₁)) (List.mem_map.2 ⟨_, ha, rfl⟩) ?_ ?_⟩
  · change Repr base lo (start base s') ts'
    rw [start_eq hr'.freep_ne]
    exact hr'
  · rw [hview]
    exact List.map_erase hinj _
  · intro b hb
    rw [hview] at hb
    exact hagree b hb

theorem Good.store (h : Good base lo p) {u x y : ℕ}
    (ha : ∃ a ∈ p.live, a < u ∧ u < a + p.heap.size a) :
    ∃ r p', exec base p (.store u x y) = some (r, p') ∧ Good base lo p' ∧
      p.view.Step (.store u x y, r) p'.view := by
  obtain ⟨a, ha, hau, hua⟩ := ha
  obtain ⟨hne, ts, hr, hperm⟩ := h.repr ha
  have hmem := hperm.mem_iff.2 ha
  have hnode := hr.not_mem_nodes hmem ⟨hau.le, hua⟩
  have hstart : ∀ live, ∀ {b}, b ∈ starts live lo ts → b ≠ u := by
    intro live b hb
    cases live with
    | false =>
      rintro rfl
      exact hnode (List.mem_cons_of_mem _ hb)
    | true =>
      rintro rfl
      rcases hr.live_apart hmem hb hau.ne' with hap | hap
      · omega
      · omega
  have hsize : ∀ b ≠ u, (p.heap.store u x y).size b = p.heap.size b := fun b hb =>
    Function.update_of_ne hb ..
  refine ⟨0, { p with heap := p.heap.store u x y }, rfl, ⟨fun h0 => absurd h0 hne, ts, ?_, hperm⟩,
    ?_⟩
  · change Repr base lo (start base (p.heap.store u x y)) ts
    rw [start_eq (s := p.heap.store u x y) hne]
    refine ⟨hr.base_pos, hr.base_lt, hr.brk, hr.freep, hr.circle.congr fun b hb => ?_,
      (hsize base fun he => hnode (he ▸ List.mem_cons_self)).trans hr.base_size,
      hr.sized.congr_starts fun live b hb => hsize b (hstart live hb), hr.merged⟩
    refine Function.update_of_ne ?_ ..
    rintro rfl
    exact hnode hb
  · have hview : Process.view { p with heap := p.heap.store u x y } =
        { p.view with words := Function.update p.view.words u (x, y) } := by
      unfold Process.view
      congr 1
      · refine List.map_congr_left fun b hb => ?_
        rw [hsize b (hstart true (hperm.mem_iff.2 hb))]
      · funext v
        by_cases hv : v = u
        · rw [hv, Function.update_self]
          exact Prod.ext (Function.update_self ..) (Function.update_self ..)
        · rw [Function.update_of_ne hv]
          exact Prod.ext (Function.update_of_ne hv ..) (Function.update_of_ne hv ..)
    rw [hview]
    exact .stored ⟨(a, p.heap.size a), List.mem_map.2 ⟨a, ha, rfl⟩, hau, hua⟩

theorem Good.step (h : Good base lo p) {op : Op} (hop : Allowed p op) :
    ∃ r p', exec base p op = some (r, p') ∧ Good base lo p' ∧ p.view.Step (op, r) p'.view := by
  cases op with
  | malloc nbytes grants => exact h.malloc grants hop
  | free ap =>
    obtain ⟨a, ha, rfl⟩ := hop
    exact h.free ha
  | store u x y => exact h.store hop

section Runs
variable {s : Heap} {ls : List (Op × ℕ)}

theorem Good.run (h : Good base lo p) (hrun : Run (Step base) p ls p') :
    Good base lo p' ∧ Run Store.Step p.view ls p'.view := by
  have hsim : ∀ q t l q', Good base lo q ∧ t = q.view → True → Step base q l q' →
      ∃ t', Store.Step t l t' ∧ Good base lo q' ∧ t' = q'.view := by
    rintro q t l q' ⟨hq, rfl⟩ - hs
    obtain ⟨r, q'', he, hgood, hstep⟩ := hq.step hs.1
    have he' := Option.some.inj (he.symm.trans hs.2)
    obtain ⟨rfl, rfl⟩ := Prod.mk.inj he'
    exact ⟨_, hstep, hgood, rfl⟩
  obtain ⟨_, ht, hp, rfl⟩ := hrun.simulation (P := fun _ => True) hsim ⟨h, rfl⟩ fun _ _ => trivial
  exact ⟨hp, ht⟩

/-- The allocator refines the store. -/
theorem malloc_refines (hb : 0 < base) (hlo : base < lo) (hf : s.freep = 0) (hs : s.brk = lo)
    (hrun : Run (Step base) ⟨s, []⟩ ls p) : Run Store.Step (Process.view ⟨s, []⟩) ls p.view :=
  ((good_start hb hlo hf hs).run hrun).2

theorem malloc_refines_once : ∃ r p,
    Run Store.Step (Process.view ⟨⟨fun _ => 0, fun _ => 0, 0, 10⟩, []⟩)
      [(.malloc 8 true, r)] p := by
  have hgood : Good 1 10 ⟨⟨fun _ => 0, fun _ => 0, 0, 10⟩, []⟩ :=
    good_start (by decide) (by decide) rfl rfl
  have hop : 8 + 16 ≤ 2147483648 := by decide
  obtain ⟨r, p, he, -⟩ := hgood.malloc true hop
  exact ⟨r, p.view, malloc_refines (by decide : 0 < 1) (by decide : 1 < 10) rfl rfl
    (Run.nil.snoc ⟨hop, he⟩)⟩

/-- A program that gets one block and frees it again. -/
theorem run_mallocFree : ∃ ls p, Run (Step 1) ⟨⟨fun _ => 0, fun _ => 0, 0, 10⟩, []⟩ ls p ∧
    ls.length = 2 ∧ p.live = [] := by
  have hgood : Good 1 10 ⟨⟨fun _ => 0, fun _ => 0, 0, 10⟩, []⟩ :=
    good_start (by decide) (by decide) rfl rfl
  have hop : 8 + 16 ≤ 2147483648 := by decide
  obtain ⟨r, p, he, hp, hstep⟩ := hgood.malloc true hop
  cases hstep with
  | @handed _ _ a n _ _ _ hlive _ =>
    obtain ⟨b, hb, hab⟩ := List.map_eq_singleton_iff.1 hlive
    obtain rfl : b = a := (Prod.mk.inj hab).1
    change p.view.live = [(b, n)] at hlive
    have hbp : b ∈ p.live := hb ▸ List.mem_cons_self
    obtain ⟨r', p', he', -, hstep'⟩ := hp.free hbp
    have hfree : Allowed p (.free (b + 1)) := ⟨b, hbp, rfl⟩
    have hfirst : Step 1 _ (.malloc 8 true, b + 1) p := ⟨hop, he⟩
    have hlast : Step 1 p (.free (b + 1), r') p' := ⟨hfree, he'⟩
    refine ⟨_, _, (Run.nil.snoc hfirst).snoc hlast, rfl, ?_⟩
    cases hstep' with
    | freed ha hlive' _ =>
      rw [hlive, List.mem_singleton] at ha
      rw [hlive, ha, List.erase_cons_head] at hlive'
      exact List.map_eq_nil_iff.1 hlive'

/-- The loops of `malloc` and `free` end, whatever the program did before. -/
theorem calls_return (hb : 0 < base) (hlo : base < lo) (hf : s.freep = 0) (hs : s.brk = lo)
    (hrun : Run (Step base) ⟨s, []⟩ ls p) {op : Op} (hop : Allowed p op) :
    ∃ r p', exec base p op = some (r, p') := by
  obtain ⟨r, p', he, -⟩ := ((good_start hb hlo hf hs).run hrun).1.step hop
  exact ⟨r, p', he⟩

theorem calls_return_mallocFree : ∃ ls p r p',
    Run (Step 1) ⟨⟨fun _ => 0, fun _ => 0, 0, 10⟩, []⟩ ls p ∧ ls.length = 2 ∧
      exec 1 p (.malloc 8 true) = some (r, p') := by
  obtain ⟨ls, p, hrun, hlen, -⟩ := run_mallocFree
  have hop : Allowed p (.malloc 8 true) := (by decide : 8 + 16 ≤ 2147483648)
  obtain ⟨r, p', he⟩ :=
    calls_return (by decide : 0 < 1) (by decide : 1 < 10) rfl rfl hrun hop
  exact ⟨ls, p, r, p', hrun, hlen, he⟩

/-- The sum in `nunits` wraps: a program that asks for almost 4 GiB gets a header and no byte. -/
theorem malloc_wraps (hb : 0 < base) (hlo : base < lo) (hf : s.freep = 0) (hs : s.brk = lo)
    (hrun : Run (Step base) ⟨s, []⟩ ls p) {nbytes : ℕ} (hlow : 4294967289 ≤ nbytes)
    (hhigh : nbytes < 4294967296) :
    ∃ a p', exec base p (.malloc nbytes true) = some (a + 1, p') ∧ p'.heap.size a = 1 := by
  obtain ⟨-, ts, hr, -⟩ := ((good_start hb hlo hf hs).run hrun).1
  have hunits : units nbytes = 1 := by
    unfold units
    omega
  rcases search_spec true hr (units_pos nbytes) (by omega) le_rfl with
    ⟨a, s', ts', hsearch, hh⟩ | ⟨-, hno, -⟩
  · refine ⟨a, ⟨s', a :: p.live⟩, ?_, hh.size.trans hunits⟩
    change (search _ _ _ _ _ _).map _ = _
    rw [hsearch]
    rfl
  · cases hno

theorem malloc_wraps_mallocFree : ∃ ls p a p',
    Run (Step 1) ⟨⟨fun _ => 0, fun _ => 0, 0, 10⟩, []⟩ ls p ∧ ls.length = 2 ∧
      exec 1 p (.malloc 4294967295 true) = some (a + 1, p') ∧ p'.heap.size a = 1 := by
  obtain ⟨ls, p, hrun, hlen, -⟩ := run_mallocFree
  obtain ⟨a, p', he, hsize⟩ := malloc_wraps (by decide : 0 < 1) (by decide : 1 < 10) rfl rfl hrun
    (by decide : 4294967289 ≤ 4294967295) (by decide)
  exact ⟨ls, p, a, p', hrun, hlen, he, hsize⟩

/-- Once everything is freed, all the memory that the kernel granted is one free block. -/
theorem all_freed (hb : 0 < base) (hlo : base < lo) (hf : s.freep = 0) (hs : s.brk = lo)
    (hrun : Run (Step base) ⟨s, []⟩ ls p) (hl : p.live = []) :
    p.heap.brk = lo ∨
      p.heap.ptr base = lo ∧ p.heap.ptr lo = base ∧ p.heap.brk = lo + p.heap.size lo := by
  obtain ⟨-, ts, hr, hperm⟩ := ((good_start hb hlo hf hs).run hrun).1
  rw [hl, List.perm_nil] at hperm
  rcases hr.merged.eq_single hperm with rfl | ⟨n, rfl⟩
  · left
    have hbrk : (start base p.heap).brk = p.heap.brk := by
      unfold start
      split <;> rfl
    rw [← hbrk]
    exact hr.brk
  · right
    have hcircle := hr.circle
    rw [nodes, starts_self, starts] at hcircle
    obtain ⟨hptr, hlo', -⟩ := hcircle
    rw [List.headD_cons] at hptr
    have hne : p.heap.freep ≠ 0 := by
      intro h0
      have he : start base p.heap =
          { (p.heap.setPtr base base).setSize base 0 with freep := base } := if_pos h0
      rw [he] at hptr
      exact hlo.ne ((setPtr_ptr_self p.heap base base).symm.trans hptr)
    rw [start_eq hne] at hptr hlo' hr
    refine ⟨hptr, hlo', hr.brk.trans ?_⟩
    rw [hr.sized.1]
    rfl

theorem all_freed_once : ∃ ls p, Run (Step 1) ⟨⟨fun _ => 0, fun _ => 0, 0, 10⟩, []⟩ ls p ∧
    ls.length = 2 ∧ (p.heap.brk = 10 ∨
      p.heap.ptr 1 = 10 ∧ p.heap.ptr 10 = 1 ∧ p.heap.brk = 10 + p.heap.size 10) := by
  obtain ⟨ls, p, hrun, hlen, hlive⟩ := run_mallocFree
  exact ⟨ls, p, hrun, hlen, all_freed (by decide) (by decide) rfl rfl hrun hlive⟩

end Runs

end Malloc
