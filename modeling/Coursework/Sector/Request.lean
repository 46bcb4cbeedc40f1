import Mathlib.Data.Fin.Basic
import Mathlib.Logic.Function.Basic

/-! Sector requests. Every FTL of the labs cuts a request into pages with the same
arithmetic: an unaligned head, full pages, an unaligned tail. -/
namespace Sector

/-- A 32-bit sector, as the `int` the FTL code handles it as. -/
abbrev Word := ℤ

/-- `0xFFFFFFFF` in a C `int`: what a sector that was never written reads as. -/
def blank : Word := -1

/-- The `SECTORS_PER_PAGE` (8) sectors of a page, e.g. the local `int data[8]`. -/
abbrev Sectors := Fin 8 → Word

/-- `data[k]`. -/
def Sectors.get (data : Sectors) (k : ℕ) : Word := data (Fin.ofNat 8 k)

/-- `for (i = 0; i < n; i++) data[off + i] = src[i]`. -/
def Sectors.patch (data : Sectors) (off n : ℕ) (src : ℕ → Word) : Sectors := fun k =>
  if off ≤ k.val ∧ k.val < off + n then src (k.val - off) else data k

/-- `for (i = 0; i < n; i++) cur[i] = src[i]`, where `cur` points `cur` words into `buf`. -/
def store (buf : ℕ → Word) (cur n : ℕ) (src : ℕ → Word) : ℕ → Word := fun j =>
  if cur ≤ j ∧ j < cur + n then src (j - cur) else buf j

theorem store_rest {buf : ℕ → Word} {cur n : ℕ} (src : ℕ → Word) {j : ℕ} (hj : cur + n ≤ j) :
    store buf cur n src j = buf j := if_neg (by omega)

theorem patch_congr {data data' : Sectors} {off n : ℕ} (src : ℕ → Word)
    (h : ∀ k : Fin 8, ¬(off ≤ k.val ∧ k.val < off + n) → data k = data' k) :
    data.patch off n src = data'.patch off n src := by
  funext k
  unfold Sectors.patch
  split_ifs with hk
  · rfl
  · exact h k hk

/-- Writing `nsect` sectors from `buf` to a flat array of sectors at `lba`. -/
def writeFlat (flat : ℕ → Word) (lba nsect : ℕ) (buf : ℕ → Word) : ℕ → Word := fun a =>
  if lba ≤ a ∧ a < lba + nsect then buf (a - lba) else flat a

theorem writeFlat_zero (flat : ℕ → Word) (lba : ℕ) (buf : ℕ → Word) :
    writeFlat flat lba 0 buf = flat := by
  funext a
  exact if_neg (by omega)

/-- The sectors of page `lpn` of a flat array. -/
def page (flat : ℕ → Word) (lpn : ℕ) : Sectors := fun k => flat (8 * lpn + k.val)

theorem get_page (flat : ℕ → Word) (a : ℕ) : (page flat (a / 8)).get (a % 8) = flat a := by
  simp only [page, Sectors.get, Fin.ofNat]
  congr 1
  omega

theorem page_get {flat : ℕ → Word} {lpn : ℕ} {data : Sectors}
    (h : ∀ a, a / 8 = lpn → flat a = data.get (a % 8)) : page flat lpn = data := by
  funext k
  have hk := k.isLt
  rw [page, h _ (by omega)]
  simp only [Sectors.get]
  congr 1
  ext
  simp only [Fin.ofNat]
  omega

/-- A request for `nsect` sectors from `lba` on. -/
structure Request where
  lba : ℕ
  nsect : ℕ

namespace Request
variable (r : Request)

def firstLbaOffset : ℕ := r.lba % 8
def firstPageFirstLba : ℕ := r.lba - r.firstLbaOffset
def lastLba : ℕ := r.lba + r.nsect - 1
def lastLbaOffset : ℕ := r.lastLba % 8
def lastPageFirstLba : ℕ := r.lastLba - r.lastLbaOffset

/-- `send_kazu`, the number of pages the request touches. -/
def sendKazu : ℕ := 1 + (r.lastPageFirstLba - r.firstPageFirstLba) / 8

/-- The page with index `pp` of the request. -/
def lpn (pp : ℕ) : ℕ := pp + r.firstPageFirstLba / 8

/-- Where the sectors of page `pp` of the request start in that page. -/
def start (pp : ℕ) : ℕ := if pp = 0 then r.firstLbaOffset else 0

/-- How many sectors of page `pp` belong to the request (`sector_kazu`). -/
def count (pp : ℕ) : ℕ :=
  if r.sendKazu = 1 then r.nsect
  else if pp = 0 then 8 - r.firstLbaOffset
  else if pp = r.sendKazu - 1 then r.lastLbaOffset + 1
  else 8

/-- How many sectors of the request lie in its first `pp` pages. -/
def pos (pp : ℕ) : ℕ := min (8 * pp - r.firstLbaOffset) r.nsect

@[simp] theorem pos_zero : r.pos 0 = 0 := by simp [pos]

variable {r}

theorem sendKazu_pos : 0 < r.sendKazu := by
  unfold sendKazu
  omega

theorem sendKazu_eq : r.sendKazu = 1 + ((r.lba + r.nsect - 1) / 8 - r.lba / 8) := by
  unfold sendKazu lastPageFirstLba firstPageFirstLba lastLbaOffset firstLbaOffset lastLba
  omega

theorem lpn_eq (pp : ℕ) : r.lpn pp = pp + r.lba / 8 := by
  unfold lpn firstPageFirstLba firstLbaOffset
  omega

theorem lastPage_div (h : 0 < r.nsect) :
    r.lastPageFirstLba / 8 = r.firstPageFirstLba / 8 + (r.sendKazu - 1) := by
  rw [sendKazu_eq]
  unfold lastPageFirstLba firstPageFirstLba lastLbaOffset firstLbaOffset lastLba
  omega

theorem sendKazu_eq_one (h : 0 < r.nsect) :
    r.sendKazu = 1 ↔ r.lba / 8 = (r.lba + r.nsect - 1) / 8 := by
  rw [sendKazu_eq]
  omega

theorem lpn_last (h : 0 < r.nsect) {pp : ℕ} (hpp : pp + 1 = r.sendKazu) :
    r.lpn pp = (r.lba + r.nsect - 1) / 8 := by
  rw [sendKazu_eq] at hpp
  rw [lpn_eq]
  omega

theorem lpn_lt (h : 0 < r.nsect) {pp N : ℕ} (hpp : pp < r.sendKazu)
    (hin : r.lba + r.nsect ≤ N * 8) : r.lpn pp < N := by
  rw [sendKazu_eq] at hpp
  rw [lpn_eq]
  omega

theorem start_zero : r.start 0 = r.firstLbaOffset := rfl

theorem start_of_ne {pp : ℕ} (h : pp ≠ 0) : r.start pp = 0 := if_neg h

theorem count_single (h : r.sendKazu = 1) (pp : ℕ) : r.count pp = r.nsect := if_pos h

theorem count_first (h : r.sendKazu ≠ 1) : r.count 0 = 8 - r.firstLbaOffset := by
  simp [count, h]

theorem count_last (h : r.sendKazu ≠ 1) : r.count (r.sendKazu - 1) = r.lastLbaOffset + 1 := by
  have := r.sendKazu_pos
  simp only [count, h, ↓reduceIte, ite_eq_right_iff]
  omega

theorem count_middle {pp : ℕ} (h : r.sendKazu ≠ 1) (h0 : pp ≠ 0) (hlast : pp ≠ r.sendKazu - 1) :
    r.count pp = 8 := by
  simp [count, h, h0, hlast]

/-- The part of page `pp` that a request over several pages covers: the page is the first,
the last or one between. -/
theorem page_cases (h : r.sendKazu ≠ 1) (pp : ℕ) :
    (pp = 0 ∧ r.start pp = r.firstLbaOffset ∧ r.count pp = 8 - r.firstLbaOffset) ∨
    (pp ≠ 0 ∧ pp = r.sendKazu - 1 ∧ r.start pp = 0 ∧ r.count pp = r.lastLbaOffset + 1) ∨
    (pp ≠ 0 ∧ pp ≠ r.sendKazu - 1 ∧ r.start pp = 0 ∧ r.count pp = 8) := by
  by_cases h0 : pp = 0
  · subst h0
    exact .inl ⟨rfl, start_zero, count_first h⟩
  · by_cases hlast : pp = r.sendKazu - 1
    · refine .inr (.inl ⟨h0, hlast, start_of_ne h0, ?_⟩)
      rw [hlast]
      exact count_last h
    · exact .inr (.inr ⟨h0, hlast, start_of_ne h0, count_middle h h0 hlast⟩)

theorem single_offsets (hn : 0 < r.nsect) (h : r.sendKazu = 1) :
    r.lastLbaOffset + 1 = r.firstLbaOffset + r.nsect := by
  rw [sendKazu_eq] at h
  unfold lastLbaOffset firstLbaOffset lastLba
  omega

theorem pad_first {off n : ℕ} (hoff : off = r.firstLbaOffset) (hn : n = 8 - r.firstLbaOffset)
    (data : Sectors) (k : Fin 8) (hk : ¬(off ≤ k.val ∧ k.val < off + n)) :
    data.patch 0 r.firstLbaOffset (fun _ => blank) k = blank := by
  have := k.isLt
  exact if_pos (by omega)

theorem pad_last {off n : ℕ} (hoff : off = 0) (hn : n = r.lastLbaOffset + 1) (data : Sectors)
    (k : Fin 8) (hk : ¬(off ≤ k.val ∧ k.val < off + n)) :
    data.patch (r.lastLbaOffset + 1) (7 - r.lastLbaOffset) (fun _ => blank) k = blank := by
  have := k.isLt
  exact if_pos (by omega)

theorem pad_single (hn : 0 < r.nsect) (hone : r.sendKazu = 1) (data : Sectors) (k : Fin 8)
    (hk : ¬(r.start 0 ≤ k.val ∧ k.val < r.start 0 + r.count 0)) :
    (data.patch 0 r.firstLbaOffset fun _ => blank).patch (r.lastLbaOffset + 1)
      (7 - r.lastLbaOffset) (fun _ => blank) k = blank := by
  have hoff := single_offsets hn hone
  rw [start_zero, count_single hone] at hk
  have := k.isLt
  simp only [Sectors.patch]
  by_cases hk' : r.lastLbaOffset + 1 ≤ k.val
  · rw [if_pos (by omega)]
  · rw [if_neg (by omega), if_pos (by omega)]

theorem mem_middle {off n : ℕ} (hoff : off = 0) (hn : n = 8) (k : Fin 8) :
    off ≤ k.val ∧ k.val < off + n := by
  have := k.isLt
  omega

theorem pos_sendKazu (h : 0 < r.nsect) : r.pos r.sendKazu = r.nsect := by
  rw [sendKazu_eq, pos, firstLbaOffset]
  omega

theorem count_eq (h : 0 < r.nsect) {pp : ℕ} (hpp : pp < r.sendKazu) :
    r.count pp = min (8 * (pp + 1) - r.firstLbaOffset) r.nsect - r.pos pp := by
  rw [sendKazu_eq] at hpp
  rw [pos, count, sendKazu_eq, lastLbaOffset, lastLba, firstLbaOffset]
  split_ifs <;> omega

theorem start_add_count_le (h : 0 < r.nsect) {pp : ℕ} (hpp : pp < r.sendKazu) :
    r.start pp + r.count pp ≤ 8 := by
  rw [count_eq h hpp, start, pos, firstLbaOffset]
  split_ifs <;> omega

theorem pos_succ (h : 0 < r.nsect) {pp : ℕ} (hpp : pp < r.sendKazu) :
    r.pos (pp + 1) = r.pos pp + r.count pp := by
  rw [count_eq h hpp, pos, pos, firstLbaOffset]
  omega

theorem locate {pp j : ℕ} (h1 : r.pos pp ≤ j) (h2 : j < r.pos (pp + 1)) :
    (r.lba + j) / 8 = r.lpn pp ∧ (r.lba + j) % 8 = r.start pp + (j - r.pos pp) := by
  rw [lpn_eq, start]
  simp only [pos, firstLbaOffset] at h1 h2 ⊢
  split_ifs <;> omega

/-- An address of page `pp` of the request belongs to it exactly between `start` and
`start + count`. -/
theorem mem_iff (h : 0 < r.nsect) {pp a : ℕ} (hpp : pp < r.sendKazu) (ha : a / 8 = r.lpn pp) :
    (r.lba ≤ a ∧ a < r.lba + r.pos (pp + 1)) ↔
      r.start pp ≤ a % 8 ∧ a % 8 < r.start pp + r.count pp := by
  rw [lpn_eq] at ha
  rw [count_eq h hpp, start]
  simp only [pos, firstLbaOffset]
  split_ifs <;> omega

/-- Outside page `pp` the part of the request in its first `pp + 1` pages is the part in
its first `pp` pages. -/
theorem mem_other {pp a : ℕ} (ha : a / 8 ≠ r.lpn pp) :
    (r.lba ≤ a ∧ a < r.lba + r.pos (pp + 1)) ↔ (r.lba ≤ a ∧ a < r.lba + r.pos pp) := by
  rw [lpn_eq] at ha
  simp only [pos, firstLbaOffset]
  omega

/-- One page of a read: if the first `pp` pages were filled in from a flat array, they
still are after the sectors of page `pp` are stored behind them. -/
theorem store_step (h : 0 < r.nsect) {pp : ℕ} (hpp : pp < r.sendKazu) {flat buf : ℕ → Word}
    (hbuf : ∀ j < r.pos pp, buf j = flat (r.lba + j)) :
    ∀ j < r.pos (pp + 1), store buf (r.pos pp) (r.count pp)
      (fun i => (page flat (r.lpn pp)).get (r.start pp + i)) j = flat (r.lba + j) := by
  intro j hj
  unfold store
  by_cases h1 : r.pos pp ≤ j
  · rw [if_pos ⟨h1, by rw [← pos_succ h hpp]; exact hj⟩]
    obtain ⟨hq, hr⟩ := locate h1 hj
    simp only [← hr, ← hq, get_page]
  · rw [if_neg (fun hc => h1 hc.1)]
    exact hbuf j (by omega)

/-- One page of a write: patching page `pp` extends the written part of the request. -/
theorem writeFlat_step (h : 0 < r.nsect) {pp : ℕ} (hpp : pp < r.sendKazu)
    (flat buf : ℕ → Word) :
    writeFlat flat r.lba (r.pos (pp + 1)) buf = fun a =>
      if a / 8 = r.lpn pp then
        ((page (writeFlat flat r.lba (r.pos pp) buf) (r.lpn pp)).patch (r.start pp) (r.count pp)
          (fun i => buf (r.pos pp + i))).get (a % 8)
      else writeFlat flat r.lba (r.pos pp) buf a := by
  funext a
  by_cases ha : a / 8 = r.lpn pp
  · rw [if_pos ha]
    have hk : (Fin.ofNat 8 (a % 8)).val = a % 8 := by
      simp only [Fin.ofNat]
      omega
    simp only [Sectors.get, Sectors.patch, hk]
    by_cases hm : r.start pp ≤ a % 8 ∧ a % 8 < r.start pp + r.count pp
    · rw [if_pos hm]
      have hm' := (mem_iff h hpp ha).mpr hm
      unfold writeFlat
      rw [if_pos hm']
      congr 1
      have h1 : r.pos pp ≤ a - r.lba := by
        unfold lpn firstPageFirstLba firstLbaOffset at ha
        unfold pos firstLbaOffset
        omega
      have h2 := (locate h1 (by omega)).2
      rw [Nat.add_sub_cancel' hm'.1] at h2
      omega
    · rw [if_neg hm]
      have hm' := mt (mem_iff h hpp ha).mp hm
      have hpage : page (writeFlat flat r.lba (r.pos pp) buf) (r.lpn pp) (Fin.ofNat 8 (a % 8)) =
          writeFlat flat r.lba (r.pos pp) buf a := by
        rw [← ha]
        exact get_page _ a
      rw [hpage]
      have hsucc := pos_succ h hpp
      simp only [writeFlat]
      rw [if_neg hm', if_neg (by omega)]
  · rw [if_neg ha]
    unfold writeFlat
    exact if_congr (mem_other ha) rfl rfl

/-- The first `pp` pages of the request have been stored in the caller's buffer; the rest of
it is as it was. -/
structure Filled (r : Request) (flat buf₀ : ℕ → Word) (pp : ℕ) (buf : ℕ → Word) (cur : ℕ) :
    Prop where
  cur : cur = r.pos pp
  done : ∀ j < r.pos pp, buf j = flat (r.lba + j)
  rest : ∀ j, r.pos pp ≤ j → buf j = buf₀ j

theorem Filled.start (r : Request) (flat buf₀ : ℕ → Word) : Filled r flat buf₀ 0 buf₀ 0 :=
  ⟨(pos_zero r).symm, fun j hj => by simp at hj, fun _ _ => rfl⟩

theorem Filled.store {flat buf₀ buf : ℕ → Word} {cur pp : ℕ} (h : Filled r flat buf₀ pp buf cur)
    (hn : 0 < r.nsect) (hpp : pp < r.sendKazu) :
    Filled r flat buf₀ (pp + 1) (store buf cur (r.count pp)
      fun i => (page flat (r.lpn pp)).get (r.start pp + i)) (cur + r.count pp) := by
  have hpos := pos_succ hn hpp
  refine ⟨by rw [hpos, h.cur], ?_, ?_⟩
  · rw [h.cur]
    exact store_step hn hpp h.done
  · intro j hj
    rw [hpos] at hj
    rw [h.cur, store_rest _ hj]
    exact h.rest j (by omega)

end Request

end Sector
