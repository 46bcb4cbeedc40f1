import Coursework.Mmap.Fill
import Coursework.Mmap.Regions

/-! Regions read page by page on demand, and regions read when they are created. -/
namespace Mmap

/-- The byte at a mapped user address. -/
def Sys.byteAt (s : Sys) (va : ℕ) : Option ℕ :=
  (s.proc.page (vpn va)).map fun e => s.mem e.1 (va % pgSize)

/-- An access to a user address: on a page that is not present the fault handler runs, and
the access is repeated. -/
def touch (s : Sys) (x : ℕ × Bool) : Option Sys :=
  if (s.proc.page (vpn x.1)).isSome then some s
  else
    match pageFaultHandler s x.1 x.2 with
    | some (0, s') => if (s'.proc.page (vpn x.1)).isSome then some s' else none
    | _ => none

def touchAll : List (ℕ × Bool) → Sys → Option Sys
  | [], s => some s
  | x :: xs, s => do
    let s ← touch s x
    touchAll xs s

theorem Holding.byteAt {s : Sys} {va : ℕ} {w : ℕ → ℕ} (h : Holding s (vpn va) w)
    (hp : s.proc.page (vpn va) ≠ none) : s.byteAt va = some (w (va % pgSize)) := by
  obtain ⟨⟨frame, d⟩, he⟩ := Option.ne_none_iff_exists'.1 hp
  have hlt : va % pgSize < pgSize := Nat.mod_lt _ (by decide)
  simp only [Sys.byteAt, he, Option.map_some, (h frame d he).2 _ hlt]

theorem holding_of_absent {s : Sys} {v : ℕ} (h : s.proc.page v = none) (w : ℕ → ℕ) :
    Holding s v w := by
  intro frame d hp
  rw [h] at hp
  simp at hp

section Eager

/-- A read at `off` delivers what one at `x` should: they agree, or both are past what the
file delivers. -/
def Stands (s : Sys) (f off x : ℕ) : Prop :=
  off = x ∨ (got s f off = 0 ∧ ∀ i, seen s f (off + i) = 0 ∧ seen s f (x + i) = 0)

theorem Stands.seen {s : Sys} {f off x : ℕ} (h : Stands s f off x) (i : ℕ) :
    seen s f (off + i) = seen s f (x + i) := by
  obtain rfl | ⟨-, h⟩ := h
  · rfl
  · rw [(h i).1, (h i).2]

/-- One page further on. -/
theorem Stands.next {s : Sys} {f off x : ℕ} (h : Stands s f off x) :
    Stands s f (off + got s f off) (x + pgSize) := by
  obtain rfl | ⟨h0, h⟩ := h
  · by_cases hfull : got s f off = pgSize
    · left
      rw [hfull]
    · right
      have hlt := lt_of_le_of_ne (got_le s f off) hfull
      by_cases hr : (s.file f).readable = true ∧ off ≤ (s.inode (s.file f).ip).size
      · have e : got s f off = min pgSize ((s.inode (s.file f).ip).size - off) := if_pos hr
        have hend : off + got s f off = (s.inode (s.file f).ip).size := by omega
        rw [hend]
        refine ⟨by simp [got], fun i => ⟨by simp [Mmap.seen, fileByte], ?_⟩⟩
        have hpast : ¬ off + pgSize + i < (s.inode (s.file f).ip).size := by omega
        simp [Mmap.seen, fileByte, hpast]
      · have e : got s f off = 0 := if_neg hr
        rw [e, Nat.add_zero]
        have zero : ∀ y, off ≤ y → Mmap.seen s f y = 0 := by
          intro y hy
          by_cases hread : (s.file f).readable = true
          · have hpast : ¬ y < (s.inode (s.file f).ip).size := by
              intro hy'
              exact hr ⟨hread, by omega⟩
            simp [Mmap.seen, fileByte, hpast]
          · simp [Mmap.seen, hread]
        exact ⟨e, fun i => ⟨zero _ (by omega), zero _ (by omega)⟩⟩
  · right
    rw [h0, Nat.add_zero]
    exact ⟨h0, fun i => ⟨(h i).1, by rw [Nat.add_assoc]; exact (h _).2⟩⟩

theorem off_add_got {s : Sys} {f off : ℕ} (hr : Regular s f) (h : off < 4294967296) :
    off + got s f off < 4294967296 := by
  have hmax := hr.size
  have hsize : maxFileBytes = 71680 := rfl
  unfold got
  split_ifs <;> omega

variable {fd : ℤ} {flags f : ℕ}

/-- The pages of `mmap_eager` hold consecutive windows of the file. -/
theorem eagerPages_spec (hfd : fd ≠ -1) {vs : List ℕ} (hvs : vs.Nodup) {s s' : Sys}
    (hr : Regular s f) (hnd : s.freelist.Nodup) (hoff : (s.file f).off < 4294967296) {x : ℕ}
    (hx : Stands s f (s.file f).off x) (habs : ∀ v ∈ vs, s.proc.page v = none)
    (h : eagerPages fd flags (some f) vs s = some (true, s')) :
    (∀ v ∉ vs, ∀ w, Holding s v w → Holding s' v w) ∧
      ∀ k (hk : k < vs.length), Holding s' vs[k] fun i => seen s f (x + k * pgSize + i) := by
  induction vs generalizing s x with
  | nil =>
    simp only [eagerPages, Option.some.injEq, Prod.mk.injEq, true_and] at h
    subst h
    exact ⟨fun _ _ _ hw => hw, fun k hk => absurd hk (Nat.not_lt_zero k)⟩
  | cons v vs ih =>
    obtain ⟨hv, hvs⟩ := List.nodup_cons.1 hvs
    simp only [eagerPages] at h
    cases hk : kalloc s with
    | mk m s₁ =>
      cases m with
      | none => simp [hk] at h
      | some m =>
        simp only [hk] at h
        obtain ⟨s₂, h2, h⟩ := Option.bind_eq_some_iff.1 h
        obtain ⟨⟨r, s₃⟩, h3, h⟩ := Option.bind_eq_some_iff.1 h
        have hvpn : vpn (v * pgSize) = v := Nat.mul_div_cancel v (by decide)
        have hfill := filled hr hfd hoff hnd hk h2 h3
        rw [hvpn] at hfill
        have hoff₃ : (s₃.file f).off < 4294967296 := by
          rw [hfill.off]
          exact off_add_got hr hoff
        have hx₃ : Stands s₃ f (s₃.file f).off (x + pgSize) := by
          have := hx.next
          rw [hfill.off]
          simpa only [Stands, hfill.files.seen, hfill.files.got] using this
        have habs₃ : ∀ u ∈ vs, s₃.proc.page u = none := by
          intro u hu
          rw [hfill.pages u (by rintro rfl; exact hv hu)]
          exact habs u (List.mem_cons_of_mem v hu)
        obtain ⟨hothers, hpages⟩ := ih hvs (hfill.files.regular hr)
          (hnd.sublist hfill.free.sublist) hoff₃ hx₃ habs₃ h
        constructor
        · intro u hu w hw
          rw [List.mem_cons, not_or] at hu
          exact hothers u hu.2 w (hfill.others u hu.1 w hw)
        · intro k hk
          cases k with
          | zero =>
            have hfirst := hothers v hv _ (hfill.page (habs v List.mem_cons_self))
            simpa only [List.getElem_cons_zero, Nat.zero_mul, Nat.add_zero, hx.seen] using hfirst
          | succ k =>
            have hnext := hpages k (Nat.lt_of_succ_lt_succ hk)
            rw [hfill.files.seen] at hnext
            have e : ∀ i, x + pgSize + k * pgSize + i = x + (k + 1) * pgSize + i := by
              intro i
              rw [Nat.add_mul, Nat.one_mul]
              omega
            simpa only [List.getElem_cons_succ, e] using hnext

variable {s s' : Sys} {length : ℤ} {offset a : ℕ}

theorem mmapEager_off (h : mmapEager s fd offset length flags (some f) = some (some a, s')) :
    (s'.file f).off = (s.file f).off := by
  simp only [mmapEager] at h
  cases hv : getValidMmarr s.proc with
  | none => simp [hv] at h
  | some i =>
    simp only [hv, Sys.fileOff, Sys.setFileOff, Option.bind_eq_bind, Option.bind_some] at h
    split_ifs at h
    obtain ⟨⟨ok, s₂⟩, -, h⟩ := Option.bind_eq_some_iff.1 h
    simp only at h
    split_ifs at h
    · simp only [Option.some.injEq, Prod.mk.injEq] at h
      obtain ⟨-, rfl⟩ := h
      simp [Sys.setProc, Sys.setFile]
    · simp at h

/-- A mapped byte of an eager region, counted from the start of its first page. -/
theorem mmapEager_byte (hr : Regular s f) (hfd : fd ≠ -1) (hoff : offset < 4294967296)
    (hnd : s.freelist.Nodup) (hroom : s.proc.sz + s.proc.mmSz + margin + length ≤ kernBase)
    (hfresh : ∀ x, a ≤ x → (x : ℤ) < a + length → s.proc.page (vpn x) = none)
    (h : mmapEager s fd offset length flags (some f) = some (some a, s')) {p : ℕ}
    (hp : (p : ℤ) < length) (hfull : s'.proc.page (vpn (a + p)) ≠ none) :
    s'.byteAt (a + p) = some (seen s f (offset + a % pgSize + p)) := by
  have ek : kernBase = 2147483648 := rfl
  simp only [mmapEager] at h
  cases hv : getValidMmarr s.proc with
  | none => simp [hv] at h
  | some i =>
    simp only [hv, Sys.fileOff, Sys.setFileOff, Option.bind_eq_bind, Option.bind_some] at h
    split_ifs at h
    obtain ⟨⟨ok, s₂⟩, h2, h⟩ := Option.bind_eq_some_iff.1 h
    simp only at h
    split_ifs at h with hok
    · subst hok
      simp only [Option.some.injEq, Prod.mk.injEq] at h
      obtain ⟨ha, rfl⟩ := h
      have hsum : s.proc.mapStart = s.proc.sz + s.proc.mmSz + margin :=
        uint_small (x := s.proc.sz + s.proc.mmSz + margin) (by omega)
      have hstop : uint (s.proc.sz + s.proc.mmSz + margin + length) = a + length.toNat := by
        have := uint_of_lt (x := s.proc.sz + s.proc.mmSz + margin + length) (by omega) (by omega)
        omega
      rw [ha, hstop] at h2
      have hsf : SameFiles f s (s.setFile f { s.file f with off := offset }) :=
        ⟨rfl, fun g hg => Function.update_of_ne hg _ _, by simp [Sys.setFile]⟩
      have hoff₁ : ((s.setFile f { s.file f with off := offset }).file f).off = offset := by
        simp [Sys.setFile]
      have hget : ∀ k (hk : k < (pageRange (pgRoundDown a) (a + length.toNat)).length),
          (pageRange (pgRoundDown a) (a + length.toNat))[k] = a / 4096 + k := by
        intro k hk
        simp only [pageRange, List.getElem_map, List.getElem_range]
        show (a - a % 4096) / 4096 + k = _
        omega
      have hlen : (pageRange (pgRoundDown a) (a + length.toNat)).length =
          (a + length.toNat - (a - a % 4096) + 4095) / 4096 := by
        simp only [pageRange, List.length_map, List.length_range]
        rfl
      have hvs : (pageRange (pgRoundDown a) (a + length.toNat)).Nodup :=
        List.nodup_range.map fun i j hij => Nat.add_left_cancel hij
      have habs : ∀ v ∈ pageRange (pgRoundDown a) (a + length.toNat),
          (s.setFile f { s.file f with off := offset }).proc.page v = none := by
        intro v hv
        obtain ⟨k, hk, rfl⟩ := List.getElem_of_mem hv
        rw [hget k hk]
        rw [hlen] at hk
        by_cases hk0 : k = 0
        · have := hfresh a le_rfl (by omega)
          rw [hk0]
          exact this
        · have hv' : vpn (a - a % 4096 + k * 4096) = a / 4096 + k := by
            show (a - a % 4096 + k * 4096) / 4096 = _
            omega
          rw [← hv']
          exact hfresh _ (by omega) (by omega)
      have hspec := (eagerPages_spec hfd hvs (hsf.regular hr) hnd (by rw [hoff₁]; exact hoff)
        (x := offset) (Or.inl hoff₁) habs h2).2 ((a + p) / 4096 - a / 4096)
        (by rw [hlen]; omega)
      rw [hget, hsf.seen] at hspec
      have hvpn : vpn (a + p) = a / 4096 + ((a + p) / 4096 - a / 4096) := by
        show (a + p) / 4096 = _
        omega
      rw [← hvpn] at hspec
      have hhold : Holding ((s₂.setFile f { s₂.file f with off := (s.file f).off }).setProc
          ((s₂.setFile f { s₂.file f with off := (s.file f).off }).proc.record i fd offset length
            flags (some f))) (vpn (a + p))
          fun j => seen s f (offset + ((a + p) / 4096 - a / 4096) * pgSize + j) := hspec
      rw [hhold.byteAt hfull]
      have e : offset + ((a + p) / 4096 - a / 4096) * pgSize + (a + p) % pgSize =
          offset + a % pgSize + p := by
        show offset + ((a + p) / 4096 - a / 4096) * 4096 + (a + p) % 4096 = offset + a % 4096 + p
        omega
      rw [e]
    · simp at h

end Eager

section Lazy

variable {f : ℕ}

/-- The state of a lazy region of `[a, b)` in slot `i` while its pages are touched: each page
that is present holds the window of the file at the start of the mapping. -/
structure LazyInv (s₀ s : Sys) (f offset a b : ℕ) : Prop where
  files : SameFiles f s₀ s
  nodup : s.freelist.Nodup
  found : ∀ x, a ≤ x → x < b → ∀ i, faultRegion s.proc x = some i →
    (s.proc.mmArr i).fd ≠ -1 ∧ (s.proc.mmArr i).f = some f ∧ (s.proc.mmArr i).offset = offset
  window : ∀ x, a ≤ x → x < b → Holding s (vpn x) fun j => seen s₀ f (offset + j)
  off : (∀ x, a ≤ x → x < b → s.proc.page (vpn x) = none) ∧ (s.file f).off = (s₀.file f).off ∨
    (s.file f).off = offset + got s₀ f offset

/-- An access leaves the pages that are present, and makes its own page present. -/
theorem LazyInv.touch {s₀ s s' : Sys} {offset a b : ℕ} (h : LazyInv s₀ s f offset a b)
    (hr : Regular s₀ f) (hoff : offset < 4294967296) {x : ℕ × Bool} (hx : a ≤ x.1 ∧ x.1 < b)
    (ht : Mmap.touch s x = some s') :
    LazyInv s₀ s' f offset a b ∧ s'.proc.page (vpn x.1) ≠ none ∧
      (∀ v, s.proc.page v ≠ none → s'.proc.page v ≠ none) ∧
      (s.proc.page (vpn x.1) = none → (s'.file f).off = offset + got s₀ f offset) := by
  unfold Mmap.touch at ht
  by_cases hp : (s.proc.page (vpn x.1)).isSome = true
  · rw [if_pos hp] at ht
    obtain rfl := Option.some.inj ht
    have hne := Option.isSome_iff_ne_none.1 hp
    exact ⟨h, hne, fun _ hv => hv, fun hnone => absurd hnone hne⟩
  · rw [if_neg hp] at ht
    have hnone : s.proc.page (vpn x.1) = none := by simpa using hp
    cases hpf : pageFaultHandler s x.1 x.2 with
    | none => simp [hpf] at ht
    | some rs =>
      obtain ⟨r, t⟩ := rs
      have hr0 : r = 0 ∧ s' = t ∧ t.proc.page (vpn x.1) ≠ none := by
        rw [hpf] at ht
        split at ht
        · next t' he =>
          simp only [Option.some.injEq, Prod.mk.injEq] at he
          obtain ⟨rfl, rfl⟩ := he
          split_ifs at ht with hs
          exact ⟨rfl, (Option.some.inj ht).symm, Option.isSome_iff_ne_none.1 hs⟩
        · simp at ht
      obtain ⟨rfl, rfl, hnow⟩ := hr0
      simp only [pageFaultHandler] at hpf
      split_ifs at hpf
      · simp at hpf
      · cases hfr : faultRegion s.proc x.1 with
        | none => simp [hfr] at hpf
        | some i =>
          obtain ⟨hfd, hf, hof⟩ := h.found x.1 hx.1 hx.2 i hfr
          simp only [hfr, hf, hof] at hpf
          split_ifs at hpf
          · simp at hpf
          · simp only [Sys.setFileOff, Option.bind_eq_bind, Option.bind_some] at hpf
            cases hk : kalloc (s.setFile f { s.file f with off := offset }) with
            | mk m s₁ =>
              cases m with
              | none => simp [hk] at hpf
              | some m =>
                simp only [hk] at hpf
                obtain ⟨s₂, h2, hpf⟩ := Option.bind_eq_some_iff.1 hpf
                obtain ⟨⟨q, s₃⟩, h3, hpf⟩ := Option.bind_eq_some_iff.1 hpf
                simp only [Option.some.injEq, Prod.mk.injEq, true_and] at hpf
                subst hpf
                have hset : SameFiles f s (s.setFile f { s.file f with off := offset }) :=
                  ⟨rfl, fun g hg => Function.update_of_ne hg _ _, by simp [Sys.setFile]⟩
                have hsf := h.files.trans hset
                have ho : ((s.setFile f { s.file f with off := offset }).file f).off = offset := by
                  simp [Sys.setFile]
                have hfill := filled (hsf.regular hr) hfd (by rw [ho]; exact hoff)
                  (s := s.setFile f { s.file f with off := offset }) h.nodup hk h2 h3
                have hvpn : vpn (pgRoundDown x.1) = vpn x.1 := by
                  show (x.1 - x.1 % 4096) / 4096 = x.1 / 4096
                  omega
                have hnew := hfill.off
                rw [hvpn] at hfill
                rw [ho, hsf.got] at hnew
                refine ⟨⟨hsf.trans hfill.files, h.nodup.sublist hfill.free.sublist, ?_, ?_,
                  Or.inr hnew⟩, hnow, ?_, fun _ => hnew⟩
                · intro y hy1 hy2 j hj
                  have harr : s₃.proc.mmArr = s.proc.mmArr := hfill.quiet.mmArr
                  have hj' : faultRegion s.proc y = some j := by
                    simpa only [faultRegion, harr] using hj
                  rw [harr]
                  exact h.found y hy1 hy2 j hj'
                · intro y hy1 hy2
                  by_cases e : vpn y = vpn x.1
                  · rw [e]
                    have := hfill.page hnone
                    rwa [ho, hsf.seen] at this
                  · exact hfill.others _ e _ (h.window y hy1 hy2)
                · intro v hv
                  by_cases e : v = vpn x.1
                  · rw [e]
                    exact hnow
                  · rw [hfill.pages v e]
                    exact hv

theorem LazyInv.touchAll {s₀ : Sys} {offset a b : ℕ} (hr : Regular s₀ f)
    (hoff : offset < 4294967296) {xs : List (ℕ × Bool)} {s s' : Sys}
    (h : LazyInv s₀ s f offset a b) (hxs : ∀ x ∈ xs, a ≤ x.1 ∧ x.1 < b)
    (ht : Mmap.touchAll xs s = some s') :
    LazyInv s₀ s' f offset a b ∧ (∀ x ∈ xs, s'.proc.page (vpn x.1) ≠ none) ∧
      (∀ v, s.proc.page v ≠ none → s'.proc.page v ≠ none) := by
  induction xs generalizing s with
  | nil =>
    simp only [Mmap.touchAll, Option.some.injEq] at ht
    subst ht
    exact ⟨h, fun x hx => absurd hx List.not_mem_nil, fun _ hv => hv⟩
  | cons x xs ih =>
    obtain ⟨s₁, h1, ht⟩ := Option.bind_eq_some_iff.1 ht
    obtain ⟨hinv, hnow, hkeep, -⟩ := h.touch hr hoff (hxs x List.mem_cons_self) h1
    obtain ⟨hinv', hall, hkeep'⟩ :=
      ih hinv (fun y hy => hxs y (List.mem_cons_of_mem x hy)) ht
    refine ⟨hinv', ?_, fun v hv => hkeep' v (hkeep v hv)⟩
    intro y hy
    obtain rfl | hy := List.mem_cons.1 hy
    · exact hkeep' _ hnow
    · exact hall y hy

end Lazy

/-- Some access falls on the page of the address. -/
def Touched (xs : List (ℕ × Bool)) (va : ℕ) : Prop := ∃ x ∈ xs, vpn x.1 = vpn va

/-- The same arguments given to both kinds of `mmap` in one state, on an unused range below
the kernel; the eager call had memory for every page, and the accesses to the lazy region
went through. -/
structure Setting (s sE sL sT : Sys) (fd length : ℤ) (offset flags f a : ℕ)
    (xs : List (ℕ × Bool)) : Prop where
  regular : Regular s f
  backed : fd ≠ -1
  inRange : offset < 4294967296
  nodup : s.freelist.Nodup
  room : s.proc.sz + s.proc.mmSz + margin + length ≤ kernBase
  fresh : ∀ x, a ≤ x → (x : ℤ) < a + length → s.proc.page (vpn x) = none ∧ ¬ s.proc.Holds x
  eager : mmapEager s fd offset length flags (some f) = some (some a, sE)
  full : ∀ x, a ≤ x → (x : ℤ) < a + length → sE.proc.page (vpn x) ≠ none
  onDemand : mmapLazy s fd offset length flags (some f) = (some a, sL)
  inside : ∀ x ∈ xs, a ≤ x.1 ∧ (x.1 : ℤ) < a + length
  touched : touchAll xs sL = some sT

/-- Both regions show the bytes of the file from the mapping's offset on, zero past its end,
and the offset of the open file is as before. -/
structure Same (s sE sT : Sys) (length : ℤ) (offset f a : ℕ) (xs : List (ℕ × Bool)) : Prop where
  eager : ∀ p : ℕ, (p : ℤ) < length → sE.byteAt (a + p) = some (fileByte s f (offset + p))
  onDemand : ∀ p : ℕ, (p : ℤ) < length → Touched xs (a + p) →
    sT.byteAt (a + p) = some (fileByte s f (offset + p))
  eagerOff : (sE.file f).off = (s.file f).off
  lazyOff : (sT.file f).off = (s.file f).off

/-- When they do. The eager pages start at the page boundary at or below the region, every
lazy page is the window at the mapping's offset, and a fault leaves the offset of the file
behind that window. -/
structure Coincides (s : Sys) (length : ℤ) (offset f a : ℕ) (xs : List (ℕ × Bool)) : Prop where
  eager : ∀ p : ℕ, (p : ℤ) < length →
    seen s f (offset + a % pgSize + p) = fileByte s f (offset + p)
  onDemand : ∀ p : ℕ, (p : ℤ) < length → Touched xs (a + p) →
    seen s f (offset + (a + p) % pgSize) = fileByte s f (offset + p)
  off : xs = [] ∨ (s.file f).off = offset + got s f offset

section Compare

variable {s sE sL sT : Sys} {fd length : ℤ} {offset flags f a : ℕ} {xs : List (ℕ × Bool)}

theorem Setting.lazyInv (h : Setting s sE sL sT fd length offset flags f a xs) :
    LazyInv s sL f offset a (a + length.toNat) := by
  obtain ⟨ha, i, hv, rfl⟩ := mmapLazy_eq_some h.onDemand
  have absent : ∀ x, a ≤ x → x < a + length.toNat → s.proc.page (vpn x) = none :=
    fun x h1 h2 => (h.fresh x h1 (by omega)).1
  refine ⟨SameFiles.of_eq rfl rfl, h.nodup, ?_, ?_, Or.inl ⟨absent, rfl⟩⟩
  · intro x h1 h2 j hj
    have hj' := List.find?_some hj
    simp only [decide_eq_true_eq] at hj'
    by_cases e : j = i
    · subst e
      simp only [Sys.setProc, Proc.record, Function.update_self]
      exact ⟨h.backed, trivial, trivial⟩
    · -- another slot would have held the address before the call
      have hlt : j < nRegion := List.mem_range.1 (List.mem_of_find?_eq_some hj)
      simp only [Sys.setProc, Proc.record, Function.update_of_ne e] at hj'
      exact absurd ⟨j, hlt, hj'⟩ (h.fresh x h1 (by omega)).2
  · intro x h1 h2
    exact holding_of_absent (absent x h1 h2) _

theorem Setting.lazyByte (h : Setting s sE sL sT fd length offset flags f a xs) {p : ℕ}
    (hp : (p : ℤ) < length) (ht : Touched xs (a + p)) :
    sT.byteAt (a + p) = some (seen s f (offset + (a + p) % pgSize)) := by
  obtain ⟨hinv, hall, -⟩ := h.lazyInv.touchAll h.regular h.inRange
    (fun x hx => ⟨(h.inside x hx).1, by have := (h.inside x hx).2; omega⟩) h.touched
  obtain ⟨x, hx, hvpn⟩ := ht
  have hpres := hall x hx
  rw [hvpn] at hpres
  exact (hinv.window (a + p) (by omega) (by omega)).byteAt hpres

theorem Setting.lazyOff (h : Setting s sE sL sT fd length offset flags f a xs) :
    (sT.file f).off = (s.file f).off ↔ xs = [] ∨ (s.file f).off = offset + got s f offset := by
  obtain ⟨hinv, hall, -⟩ := h.lazyInv.touchAll h.regular h.inRange
    (fun x hx => ⟨(h.inside x hx).1, by have := (h.inside x hx).2; omega⟩) h.touched
  have hoff : xs = [] ∨ (sT.file f).off = offset + got s f offset := by
    cases xs with
    | nil => exact Or.inl rfl
    | cons x xs =>
      right
      obtain ⟨habs, -⟩ | hoff := hinv.off
      · have hx := h.inside x List.mem_cons_self
        exact absurd (habs x.1 hx.1 (by omega)) (hall x List.mem_cons_self)
      · exact hoff
  obtain rfl | hoff := hoff
  · obtain ⟨-, i, -, hs⟩ := mmapLazy_eq_some h.onDemand
    have e : sL = sT := Option.some.inj h.touched
    rw [← e, hs]
    exact ⟨fun _ => Or.inl rfl, fun _ => rfl⟩
  · constructor
    · intro he
      right
      rw [← he]
      exact hoff
    · rintro (rfl | he)
      · obtain ⟨-, i, -, hs⟩ := mmapLazy_eq_some h.onDemand
        have e : sL = sT := Option.some.inj h.touched
        rw [← e, hs]
        rfl
      · rw [hoff, he]

/-- Lazy and eager regions show the file, and leave its offset alone, exactly when the
windows they read coincide with it. -/
theorem lazy_eq_eager (h : Setting s sE sL sT fd length offset flags f a xs) :
    Same s sE sT length offset f a xs ↔ Coincides s length offset f a xs := by
  have eager : ∀ p : ℕ, (p : ℤ) < length →
      sE.byteAt (a + p) = some (seen s f (offset + a % pgSize + p)) := fun p hp =>
    mmapEager_byte h.regular h.backed h.inRange h.nodup h.room (fun x h1 h2 => (h.fresh x h1 h2).1)
      h.eager hp (h.full _ (by omega) (by push_cast; omega))
  constructor
  · intro hs
    refine ⟨fun p hp => ?_, fun p hp ht => ?_, h.lazyOff.1 hs.lazyOff⟩
    · exact Option.some.inj ((eager p hp).symm.trans (hs.eager p hp))
    · exact Option.some.inj ((h.lazyByte hp ht).symm.trans (hs.onDemand p hp ht))
  · intro hc
    refine ⟨fun p hp => ?_, fun p hp ht => ?_, mmapEager_off h.eager, h.lazyOff.2 hc.off⟩
    · rw [eager p hp, hc.eager p hp]
    · rw [h.lazyByte hp ht, hc.onDemand p hp ht]

end Compare

/-- A process with a file of `size` bytes, 1 in its first page and 2 in the next, open at
offset `off`. -/
def fileSys (size off : ℕ) : Sys :=
  { fivePages with
    freelist := [400, 401, 402, 403]
    file := fun _ => ⟨.inode, 1, true, true, 0, off⟩
    inode := fun _ => ⟨false, size, fun x => x / 4096 + 1⟩
    proc := { fivePages.proc with ofile := fun fd => if fd = 3 then some 0 else none } }

theorem eq_of_fst {α σ : Type} {o : Option (α × σ)} {r : α} (d : σ)
    (h : o.map Prod.fst = some r) : o = some (r, (o.map Prod.snd).getD d) := by
  cases o with
  | none => simp at h
  | some p =>
    obtain rfl := Option.some.inj h
    rfl

theorem fileSys_fresh (size off x : ℕ) (h : 0x1005000 ≤ x) :
    (fileSys size off).proc.page (vpn x) = none ∧ ¬ (fileSys size off).proc.Holds x := by
  constructor
  · have hv : ¬ vpn x < 5 := by
      show ¬ x / 4096 < 5
      omega
    simp [Proc.page, fileSys, fivePages, hv, Pte.zero]
  · rintro ⟨i, -, hi, -⟩
    exact hi rfl

/-- The state after the eager call that maps `length` bytes of the file from its start. -/
def eagerState (size off : ℕ) (length : ℤ) : Sys :=
  ((mmapEager (fileSys size off) 3 0 length 3 (some 0)).map Prod.snd).getD (fileSys size off)

def lazyState (size off : ℕ) (length : ℤ) : Sys :=
  (mmapLazy (fileSys size off) 3 0 length 3 (some 0)).2

/-- The second page of a lazy region shows the first page of the file. -/
theorem lazy_differs :
    ¬ ∀ (s sE sL sT : Sys) (fd length : ℤ) (offset flags f a : ℕ) (xs : List (ℕ × Bool)),
      Setting s sE sL sT fd length offset flags f a xs → Same s sE sT length offset f a xs := by
  intro hall
  obtain ⟨sT, hT⟩ := Option.isSome_iff_exists.1
    (show (touchAll [(0x1006000, false)] (lazyState 8192 0 8192)).isSome by decide +kernel)
  have hset : Setting (fileSys 8192 0) (eagerState 8192 0 8192) (lazyState 8192 0 8192) sT 3 8192
      0 3 0 0x1005000 [(0x1006000, false)] := by
    refine ⟨⟨rfl, rfl, by decide⟩, by decide, by decide, by decide, by decide, ?_, ?_, ?_, rfl,
      ?_, hT⟩
    · exact fun x hx _ => fileSys_fresh 8192 0 x hx
    · exact eq_of_fst _ (by decide +kernel)
    · intro x h1 h2
      have hv : vpn x = 0x1005 ∨ vpn x = 0x1006 := by
        show x / 4096 = 0x1005 ∨ x / 4096 = 0x1006
        omega
      rw [← Option.isSome_iff_ne_none]
      obtain hv | hv := hv <;> rw [hv] <;> decide +kernel
    · intro x hx
      rw [List.mem_singleton.1 hx]
      decide
  have hsame := (hall _ _ _ _ _ _ _ _ _ _ _ hset).onDemand 4096 (by decide)
    ⟨_, List.mem_singleton_self _, rfl⟩
  rw [hset.lazyByte (by decide) ⟨_, List.mem_singleton_self _, rfl⟩] at hsame
  revert hsame
  decide

/-- A region of one page, with the file read up to the end of that page before. -/
theorem lazy_eq_eager_onePage :
    ∃ sT, Setting (fileSys 4096 4096) (eagerState 4096 4096 4096) (lazyState 4096 4096 4096) sT
        3 4096 0 3 0 0x1005000 [(0x1005000, false)] ∧
      Same (fileSys 4096 4096) (eagerState 4096 4096 4096) sT 4096 0 0 0x1005000
        [(0x1005000, false)] := by
  obtain ⟨sT, hT⟩ := Option.isSome_iff_exists.1
    (show (touchAll [(0x1005000, false)] (lazyState 4096 4096 4096)).isSome by decide +kernel)
  have hset : Setting (fileSys 4096 4096) (eagerState 4096 4096 4096)
      (lazyState 4096 4096 4096) sT 3 4096 0 3 0 0x1005000 [(0x1005000, false)] := by
    refine ⟨⟨rfl, rfl, by decide⟩, by decide, by decide, by decide, by decide, ?_, ?_, ?_, rfl,
      ?_, hT⟩
    · exact fun x hx _ => fileSys_fresh 4096 4096 x hx
    · exact eq_of_fst _ (by decide +kernel)
    · intro x h1 h2
      have hv : vpn x = 0x1005 := by
        show x / 4096 = 0x1005
        omega
      rw [← Option.isSome_iff_ne_none, hv]
      decide +kernel
    · intro x hx
      rw [List.mem_singleton.1 hx]
      decide
  refine ⟨sT, hset, (lazy_eq_eager hset).2 ⟨?_, ?_, Or.inr (by decide)⟩⟩
  · intro p _
    show seen _ _ (0 + 0 + p) = _
    simp [seen, fileSys]
  · intro p hp _
    have hp' : p < 4096 := by omega
    have e : (0x1005000 + p) % pgSize = p := by
      show (0x1005000 + p) % 4096 = p
      omega
    rw [e]
    simp [seen, fileSys]

end Mmap
