import Coursework.Nand.Contract

/-! The first NAND simulator (`HW1/nand.c`): each page carries its own flags, and the contract
of its calls is the one of `Nand.Chip`. -/
namespace Nand.Flags

variable {δ σ : Type}

/-- `struct Page`; the two fields are `_meta[WRITTEN]` and `_meta[BE_WRITTEN]`. -/
structure Cell (δ σ : Type) where
  data : δ
  spare : σ
  written : ℕ
  beWritten : ℕ

/-- `Nand_Flash` with the dimensions `NBANK`, `NBLOCK` and `NPAGE`. -/
structure Flash (δ σ : Type) where
  nbank : ℕ
  nblock : ℕ
  npage : ℕ
  page : ℕ → ℕ → ℕ → Cell δ σ

namespace Flash

/-- The block address check made by every call. -/
def Block (n : Flash δ σ) (bank blk : ℤ) : Prop :=
  (0 ≤ bank ∧ bank < n.nbank) ∧ 0 ≤ blk ∧ blk < n.nblock

/-- The page address check of `nand_write` and `nand_read`. -/
def Valid (n : Flash δ σ) (bank blk page : ℤ) : Prop :=
  n.Block bank blk ∧ 0 ≤ page ∧ page < n.npage

instance (n : Flash δ σ) (bank blk : ℤ) : Decidable (n.Block bank blk) := by
  unfold Block
  infer_instance

instance (n : Flash δ σ) (bank blk page : ℤ) : Decidable (n.Valid bank blk page) := by
  unfold Valid
  infer_instance

def setPage (n : Flash δ σ) (bank blk page : ℕ) (v : Cell δ σ) : Flash δ σ :=
  { n with page := fun b k p =>
      if b = bank ∧ k = blk ∧ p = page then v else n.page b k p }

end Flash

theorem Flash.setPage_other (n : Flash δ σ) {bank blk b k : ℕ} (page : ℕ) (v : Cell δ σ)
    (h : ¬ (b = bank ∧ k = blk)) : (n.setPage bank blk page v).page b k = n.page b k :=
  funext fun _ => if_neg fun hc => h ⟨hc.1, hc.2.1⟩

def maxNbank : ℤ := 64
def maxNblock : ℤ := 64
def maxNpage : ℤ := 64

/-- `nand_init`; `flash` is what the static array holds before the call, and `none` is
`NAND_ERR_INVALID`. -/
def nandInit [Zero δ] [Zero σ] (flash : ℕ → ℕ → ℕ → Cell δ σ) (nbanks nblks npages : ℤ) :
    Option (Flash δ σ) :=
  if nbanks < 0 ∨ nbanks > maxNbank then none
  else if nblks < 0 ∨ nblks > maxNblock then none
  else if npages < 0 ∨ npages > maxNpage then none
  else some
    { nbank := nbanks.toNat
      nblock := nblks.toNat
      npage := npages.toNat
      page := fun bank blk page =>
        if bank < nbanks.toNat ∧ blk < nblks.toNat ∧ page < npages.toNat then
          ⟨0, 0, 0, if page = 0 then 1 else 0⟩
        else flash bank blk page }

def nandWrite (n : Flash δ σ) (bank blk page : ℤ) (data : δ) (spare : σ) :
    Flash δ σ × Code :=
  if n.Valid bank blk page then
    let bank := bank.toNat
    let blk := blk.toNat
    let page := page.toNat
    if (n.page bank blk page).written = 1 then (n, .errOverwrite)
    else if (n.page bank blk page).beWritten ≠ 1 then (n, .errPosition)
    else
      let n' := n.setPage bank blk page ⟨data, spare, 1, 0⟩
      if page + 1 < n.npage then
        (n'.setPage bank blk (page + 1) { n'.page bank blk (page + 1) with beWritten := 1 },
          .success)
      else (n', .success)
  else (n, .errInvalid)

/-- `nand_read`; `data` and `spare` are what the two buffers hold before the call. -/
def nandRead (n : Flash δ σ) (bank blk page : ℤ) (data : δ) (spare : σ) : Code × Page δ σ :=
  if n.Valid bank blk page then
    let tmp := n.page bank.toNat blk.toNat page.toNat
    if tmp.written ≠ 1 then (.errEmpty, ⟨data, spare⟩)
    else (.success, ⟨tmp.data, tmp.spare⟩)
  else (.errInvalid, ⟨data, spare⟩)

/-- The first loop of `nand_erase`: some block of the bank has its first page written. -/
def tobeErased (n : Flash δ σ) (bank : ℕ) : Bool :=
  (List.range n.nblock).any fun blk => (n.page bank blk 0).written != 0

/-- A page after the second loop of `nand_erase` has passed its block. -/
def Cell.erased [Zero δ] [Zero σ] (npage page : ℕ) (v : Cell δ σ) : Cell δ σ :=
  let v' := if page < npage then ⟨0, 0, 0, 0⟩ else v
  if page = 0 then { v' with beWritten := 1 } else v'

/-- The second loop of `nand_erase`. It goes over every block of the bank: its `blk` hides the
argument of that name. -/
def eraseBlocks [Zero δ] [Zero σ] (n : Flash δ σ) (bank : ℕ) : Flash δ σ :=
  { n with page := fun b k p =>
      if b = bank ∧ k < n.nblock then (n.page b k p).erased n.npage p else n.page b k p }

def nandErase [Zero δ] [Zero σ] (n : Flash δ σ) (bank blk : ℤ) : Flash δ σ × Code :=
  if n.Block bank blk then
    if tobeErased n bank.toNat then (eraseBlocks n bank.toNat, .success) else (n, .errEmpty)
  else (n, .errInvalid)

/-- The state, the code and, for a read, the buffers after a call. -/
def Flash.call [Zero δ] [Zero σ] (n : Flash δ σ) :
    Call δ σ → Flash δ σ × Code × Option (Page δ σ)
  | .write bank blk page data spare =>
    ((nandWrite n bank blk page data spare).1, (nandWrite n bank blk page data spare).2, none)
  | .read bank blk page data spare =>
    (n, (nandRead n bank blk page data spare).1, some (nandRead n bank blk page data spare).2)
  | .erase bank blk => ((nandErase n bank blk).1, (nandErase n bank blk).2, none)

theorem tobeErased_iff (n : Flash δ σ) (bank : ℕ) :
    tobeErased n bank = true ↔ ∃ blk < n.nblock, (n.page bank blk 0).written ≠ 0 := by
  simp [tobeErased]

/-- The pages of one block hold a page list, with the flags that go with its length. -/
structure Holds (page : ℕ → Cell δ σ) (npage : ℕ) (pages : List (Page δ σ)) : Prop where
  length_le : pages.length ≤ npage
  written : ∀ p < npage, (page p).written = if p < pages.length then 1 else 0
  beWritten : ∀ p < npage, (page p).beWritten = if p = pages.length then 1 else 0
  stored : ∀ p pg, pages[p]? = some pg → (page p).data = pg.data ∧ (page p).spare = pg.spare

/-- The blocks hold the page lists. -/
structure Lists (n : Flash δ σ) (c : Chip δ σ) : Prop where
  nbank : n.nbank = c.nbanks
  nblock : n.nblock = c.nblks
  npage : n.npage = c.npages
  holds : ∀ bank blk, bank < n.nbank → blk < n.nblock →
    Holds (n.page bank blk) n.npage (c.block bank blk)

namespace Holds

variable {page : ℕ → Cell δ σ} {npage : ℕ} {pages : List (Page δ σ)}

theorem eq_nil_iff (h : Holds page npage pages) (hp : 0 < npage) :
    pages = [] ↔ (page 0).written = 0 := by
  rw [h.written 0 hp, ← List.length_eq_zero_iff]
  split <;> omega

theorem cleared (page : ℕ → Cell δ σ) (npage : ℕ)
    (h : ∀ p < npage, (page p).written = 0 ∧ (page p).beWritten = if p = 0 then 1 else 0) :
    Holds page npage [] where
  length_le := Nat.zero_le _
  written p hp := (h p hp).1
  beWritten p hp := (h p hp).2
  stored p pg he := by simp at he

/-- What the stores of `nand_write` make of a block. -/
theorem snoc (h : Holds page npage pages) {page' : ℕ → Cell δ σ} (data : δ) (spare : σ)
    (hlt : pages.length < npage) (hself : page' pages.length = ⟨data, spare, 1, 0⟩)
    (hnext : ∀ p < npage, p = pages.length + 1 → page' p = { page p with beWritten := 1 })
    (hother : ∀ p, p ≠ pages.length → p ≠ pages.length + 1 → page' p = page p) :
    Holds page' npage (pages ++ [⟨data, spare⟩]) := by
  have hlen : (pages ++ [(⟨data, spare⟩ : Page δ σ)]).length = pages.length + 1 := by simp
  refine ⟨by omega, fun p hp => ?_, fun p hp => ?_, fun p pg he => ?_⟩
  · rw [hlen]
    by_cases hs : p = pages.length
    · rw [hs, hself, if_pos (by omega)]
    · by_cases hn : p = pages.length + 1
      · rw [hnext p hp hn]
        change (page p).written = _
        rw [h.written p hp, if_neg (by omega), if_neg (by omega)]
      · rw [hother p hs hn, h.written p hp]
        split <;> split <;> omega
  · rw [hlen]
    by_cases hs : p = pages.length
    · rw [hs, hself, if_neg (by omega)]
    · by_cases hn : p = pages.length + 1
      · rw [hnext p hp hn, if_pos hn]
      · rw [hother p hs hn, h.beWritten p hp, if_neg hs, if_neg hn]
  · have hp : p < pages.length + 1 := by
      rw [← hlen]
      exact (List.getElem?_eq_some_iff.1 he).1
    by_cases hs : p = pages.length
    · rw [hs, List.getElem?_concat_length] at he
      cases Option.some.inj he
      rw [hs, hself]
      exact ⟨rfl, rfl⟩
    · rw [List.getElem?_append_left (by omega)] at he
      rw [hother p hs (by omega)]
      exact h.stored p pg he

end Holds

theorem holds_eraseBlocks [Zero δ] [Zero σ] (n : Flash δ σ) {bank blk : ℕ}
    (hk : blk < n.nblock) : Holds ((eraseBlocks n bank).page bank blk) n.npage [] := by
  refine Holds.cleared _ _ fun p hp => ?_
  simp only [eraseBlocks, hk, and_self, if_true, Cell.erased, hp]
  split <;> simp_all

theorem eraseBlocks_page [Zero δ] [Zero σ] (n : Flash δ σ) {bank b : ℕ} (hb : b ≠ bank)
    (blk : ℕ) : (eraseBlocks n bank).page b blk = n.page b blk :=
  funext fun _ => if_neg fun hc => hb hc.1

namespace Lists

variable {n : Flash δ σ} {c : Chip δ σ}

theorem init [Zero δ] [Zero σ] {flash : ℕ → ℕ → ℕ → Cell δ σ} {nbanks nblks npages : ℤ}
    (h : nandInit flash nbanks nblks npages = some n) :
    Lists n (Chip.empty n.nbank n.nblock n.npage) := by
  unfold nandInit at h
  split_ifs at h
  obtain rfl := Option.some.inj h
  refine ⟨rfl, rfl, rfl, fun bank blk hb hk => Holds.cleared _ _ fun p hp => ?_⟩
  dsimp only at hb hk hp ⊢
  rw [if_pos ⟨hb, hk, hp⟩]
  exact ⟨rfl, rfl⟩

theorem block_iff (h : Lists n c) (bank blk : ℤ) :
    n.Block bank blk ↔ (0 ≤ bank ∧ bank < c.nbanks) ∧ 0 ≤ blk ∧ blk < c.nblks := by
  rw [Flash.Block, h.nbank, h.nblock]

theorem valid_iff (h : Lists n c) (bank blk page : ℤ) :
    n.Valid bank blk page ↔ c.Valid bank blk page := by
  rw [Flash.Valid, h.block_iff, h.npage, Chip.Valid, and_assoc]

theorem setBlock (h : Lists n c) {n' : Flash δ σ} {bank blk : ℕ} {pages : List (Page δ σ)}
    (hbank : n'.nbank = n.nbank) (hblock : n'.nblock = n.nblock) (hpage : n'.npage = n.npage)
    (hself : Holds (n'.page bank blk) n.npage pages)
    (hother : ∀ b k, b < n.nbank → k < n.nblock → ¬ (b = bank ∧ k = blk) →
      Holds (n'.page b k) n.npage (c.block b k)) :
    Lists n' (c.setBlock bank blk pages) := by
  refine ⟨hbank.trans h.nbank, hblock.trans h.nblock, hpage.trans h.npage, fun b k hb hk => ?_⟩
  rw [hpage]
  rw [hbank] at hb
  rw [hblock] at hk
  by_cases hb' : b = bank
  · subst hb'
    by_cases hk' : k = blk
    · subst hk'
      simpa [Chip.setBlock] using hself
    · simpa [Chip.setBlock, hk'] using hother b k hb hk fun hc => hk' hc.2
  · simpa [Chip.setBlock, hb'] using hother b k hb hk fun hc => hb' hc.1

theorem write (h : Lists n c) (bank blk page : ℤ) (data : δ) (spare : σ) :
    Lists (nandWrite n bank blk page data spare).1 (c.write bank blk page data spare).1 ∧
      (nandWrite n bank blk page data spare).2 = (c.write bank blk page data spare).2 := by
  unfold nandWrite Chip.write
  by_cases hv : n.Valid bank blk page
  · rw [if_pos hv, if_pos ((h.valid_iff ..).1 hv)]
    obtain ⟨⟨hb, hk⟩, hp⟩ := hv
    have hold := h.holds bank.toNat blk.toNat (by omega) (by omega)
    have hw := hold.written page.toNat (by omega)
    have hbe := hold.beWritten page.toNat (by omega)
    dsimp only
    by_cases hlt : page.toNat < (c.block bank.toNat blk.toNat).length
    · rw [if_pos (by rw [hw, if_pos hlt]), if_pos hlt]
      exact ⟨h, rfl⟩
    · rw [if_neg (by rw [hw, if_neg hlt]; omega), if_neg hlt]
      by_cases heq : page.toNat = (c.block bank.toNat blk.toNat).length
      · rw [if_neg (by rw [hbe, if_pos heq]; omega), if_pos heq]
        by_cases hn : page.toNat + 1 < n.npage
        · rw [if_pos hn]
          refine ⟨h.setBlock rfl rfl rfl (hold.snoc data spare (by omega) ?_ ?_ ?_) ?_, rfl⟩
          · simp [Flash.setPage, ← heq]
          · intro p _ hp'
            simp [Flash.setPage, hp', ← heq]
          · intro p hp' hp''
            simp [Flash.setPage, heq, hp', hp'']
          · intro b k hb' hk' hne
            rw [Flash.setPage_other _ _ _ hne, Flash.setPage_other _ _ _ hne]
            exact h.holds b k hb' hk'
        · rw [if_neg hn]
          refine ⟨h.setBlock rfl rfl rfl (hold.snoc data spare (by omega) ?_ ?_ ?_) ?_, rfl⟩
          · simp [Flash.setPage, ← heq]
          · intro p hp' hp''
            omega
          · intro p hp' hp''
            simp [Flash.setPage, heq, hp']
          · intro b k hb' hk' hne
            rw [Flash.setPage_other _ _ _ hne]
            exact h.holds b k hb' hk'
      · rw [if_pos (by rw [hbe, if_neg heq]; omega), if_neg heq]
        exact ⟨h, rfl⟩
  · rw [if_neg hv, if_neg (fun hc => hv ((h.valid_iff ..).2 hc))]
    exact ⟨h, rfl⟩

theorem read (h : Lists n c) (bank blk page : ℤ) (data : δ) (spare : σ) :
    nandRead n bank blk page data spare = c.read bank blk page data spare := by
  unfold nandRead Chip.read
  by_cases hv : n.Valid bank blk page
  · rw [if_pos hv, if_pos ((h.valid_iff ..).1 hv)]
    obtain ⟨⟨hb, hk⟩, hp⟩ := hv
    have hold := h.holds bank.toNat blk.toNat (by omega) (by omega)
    have hw := hold.written page.toNat (by omega)
    dsimp only
    cases hpg : (c.block bank.toNat blk.toNat)[page.toNat]? with
    | none =>
      rw [if_pos]
      rw [hw, if_neg (by have := List.getElem?_eq_none_iff.1 hpg; omega)]
      omega
    | some pg =>
      obtain ⟨hd, hs⟩ := hold.stored page.toNat pg hpg
      rw [if_neg, hd, hs]
      rw [hw, if_pos (List.getElem?_eq_some_iff.1 hpg).1]
      omega
  · rw [if_neg hv, if_neg (fun hc => hv ((h.valid_iff ..).2 hc))]

end Lists

/-- The first page of every other block of the bank is unwritten, which is what keeps an erase
to its own block. Without pages the block itself counts too. -/
def Flash.Alone (n : Flash δ σ) : Call δ σ → Prop
  | .erase bank blk => n.Block bank blk → ∀ b < n.nblock, (b ≠ blk.toNat ∨ n.npage = 0) →
      (n.page bank.toNat b 0).written = 0
  | _ => True

instance (n : Flash δ σ) (op : Call δ σ) : Decidable (n.Alone op) :=
  match op with
  | .erase bank blk => inferInstanceAs (Decidable (n.Block bank blk →
      ∀ b < n.nblock, (b ≠ blk.toNat ∨ n.npage = 0) → (n.page bank.toNat b 0).written = 0))
  | .read .. => isTrue trivial
  | .write .. => isTrue trivial

/-- The call returns what the contract says, and the blocks hold the page lists after it. -/
def Conforms [Zero δ] [Zero σ] (n : Flash δ σ) (c : Chip δ σ) (op : Call δ σ) : Prop :=
  (n.call op).2 = (c.call op).2 ∧ Lists (n.call op).1 (c.call op).1

/-- Every call of a sequence conforms. -/
def Meets [Zero δ] [Zero σ] (n : Flash δ σ) (c : Chip δ σ) : List (Call δ σ) → Prop
  | [] => True
  | op :: ops => Conforms n c op ∧ Meets (n.call op).1 (c.call op).1 ops

namespace Lists

variable [Zero δ] [Zero σ] {n : Flash δ σ} {c : Chip δ σ}

/-- An erase with every other block of the bank empty. -/
theorem erase (h : Lists n c) {bank blk : ℤ} (ha : n.Alone (.erase bank blk)) :
    Conforms n c (.erase bank blk) := by
  change ((nandErase n bank blk).2, none) = ((c.erase bank blk).2, none) ∧
    Lists (nandErase n bank blk).1 (c.erase bank blk).1
  unfold nandErase Chip.erase
  by_cases hv : n.Block bank blk
  · rw [if_pos hv, if_pos ((h.block_iff ..).1 hv)]
    have halone := ha hv
    obtain ⟨hb, hk⟩ := hv
    have hold := h.holds bank.toNat blk.toNat (by omega) (by omega)
    by_cases hw : (n.page bank.toNat blk.toNat 0).written = 0
    · -- No block of the bank has its first page written.
      have hnone : ¬ tobeErased n bank.toNat = true := by
        rw [tobeErased_iff]
        rintro ⟨b, hb', hne⟩
        by_cases hself : b = blk.toNat
        · exact hne (hself ▸ hw)
        · exact hne (halone b hb' (.inl hself))
      have hnil : c.block bank.toNat blk.toNat = [] := by
        rcases Nat.eq_zero_or_pos n.npage with hz | hp
        · exact List.length_eq_zero_iff.1 (by have := hold.length_le; omega)
        · exact (hold.eq_nil_iff hp).2 hw
      rw [if_neg hnone, if_pos hnil]
      exact ⟨rfl, h⟩
    · have hp : 0 < n.npage := by
        refine Nat.pos_of_ne_zero fun hz => hw ?_
        exact halone blk.toNat (by omega) (.inr hz)
      have hsome : tobeErased n bank.toNat = true :=
        (tobeErased_iff n _).2 ⟨blk.toNat, by omega, hw⟩
      have hne : c.block bank.toNat blk.toNat ≠ [] := fun he => hw ((hold.eq_nil_iff hp).1 he)
      rw [if_pos hsome, if_neg hne]
      refine ⟨rfl, h.setBlock rfl rfl rfl ?_ fun b k hb' hk' hbk => ?_⟩
      · exact holds_eraseBlocks n (by omega)
      · by_cases hbank : b = bank.toNat
        · subst hbank
          have hnil : c.block bank.toNat k = [] :=
            ((h.holds bank.toNat k hb' hk').eq_nil_iff hp).2
              (halone k hk' (.inl fun hkk => hbk ⟨rfl, hkk⟩))
          rw [hnil]
          exact holds_eraseBlocks n hk'
        · rw [eraseBlocks_page n hbank]
          exact h.holds b k hb' hk'
  · rw [if_neg hv, if_neg (fun hc => hv ((h.block_iff ..).2 hc))]
    exact ⟨rfl, h⟩

/-- An erase next to a written block changes that block, or finds it where its own block is
empty. -/
theorem alone_of_erase (h : Lists n c) {bank blk : ℤ} (hc : Conforms n c (.erase bank blk)) :
    n.Alone (.erase bank blk) := by
  intro hv b hb' hcase
  by_contra hw
  obtain ⟨hcode, hl⟩ := hc
  have hsome : tobeErased n bank.toNat = true := (tobeErased_iff n _).2 ⟨b, hb', hw⟩
  have hn : nandErase n bank blk = (eraseBlocks n bank.toNat, .success) := by
    rw [nandErase, if_pos hv, if_pos hsome]
  change ((nandErase n bank blk).2, none) = ((c.erase bank blk).2, none) at hcode
  change Lists (nandErase n bank blk).1 (c.erase bank blk).1 at hl
  rw [hn, Chip.erase, if_pos ((h.block_iff ..).1 hv)] at hcode hl
  obtain ⟨hb, hk⟩ := hv
  by_cases hnil : c.block bank.toNat blk.toNat = []
  · rw [if_pos hnil] at hcode
    cases congrArg Prod.fst hcode
  · rw [if_neg hnil] at hl
    have hold := h.holds bank.toNat blk.toNat (by omega) (by omega)
    have hp : 0 < n.npage := (List.length_pos_iff.2 hnil).trans_le hold.length_le
    have hne : b ≠ blk.toNat := hcase.resolve_right (by omega)
    -- The neighbour keeps its list in the contract but has lost it in the array.
    have hkept := (hl.holds bank.toNat b (by change _ < n.nbank; omega) hb').eq_nil_iff hp
    have hlost := (@holds_eraseBlocks _ _ _ _ n bank.toNat _ hb').written 0 hp
    have hblock : (c.setBlock bank.toNat blk.toNat []).block bank.toNat b =
        c.block bank.toNat b := by simp [Chip.setBlock, hne]
    dsimp only at hkept
    rw [hblock] at hkept
    have hb0 := (h.holds bank.toNat b (by omega) hb').eq_nil_iff hp
    exact hw (hb0.1 (hkept.2 hlost))

theorem conforms_iff (h : Lists n c) (op : Call δ σ) : Conforms n c op ↔ n.Alone op := by
  cases op with
  | write bank blk page data spare =>
    obtain ⟨hl, hcode⟩ := h.write bank blk page data spare
    exact iff_of_true ⟨by rw [Flash.call, Chip.call, hcode], hl⟩ trivial
  | read bank blk page data spare =>
    exact iff_of_true ⟨by rw [Flash.call, Chip.call, h.read], h⟩ trivial
  | erase bank blk => exact ⟨h.alone_of_erase, h.erase⟩

/-- The calls of a sequence conform if and only if each erase among them has its bank to
itself. -/
theorem meets_iff (h : Lists n c) (ops : List (Call δ σ)) :
    Meets n c ops ↔ Machine.Along (fun n op => (Flash.call n op).1) Flash.Alone n ops := by
  induction ops generalizing n c with
  | nil => exact Iff.rfl
  | cons op ops ih =>
    refine ⟨fun hm => ⟨(h.conforms_iff op).1 hm.1, (ih hm.1.2).1 hm.2⟩, fun ha => ?_⟩
    have hc := (h.conforms_iff op).2 ha.1
    exact ⟨hc, (ih hc.2).2 ha.2⟩

end Lists

/-- From `nand_init`, the calls of any sequence return what the contract says and keep every
block a list of pages if and only if each erase is made while all other blocks of its bank are
empty. -/
theorem flags_contract [Zero δ] [Zero σ] {flash : ℕ → ℕ → ℕ → Cell δ σ}
    {nbanks nblks npages : ℤ} {n : Flash δ σ}
    (h : nandInit flash nbanks nblks npages = some n) (ops : List (Call δ σ)) :
    Meets n (Chip.empty n.nbank n.nblock n.npage) ops ↔
      Machine.Along (fun n op => (Flash.call n op).1) Flash.Alone n ops :=
  (Lists.init h).meets_iff ops

/-- Two blocks, one of them written and erased. -/
theorem flags_contract_oneBlock : ∃ n : Flash ℕ ℕ,
    nandInit (fun _ _ _ => ⟨0, 0, 0, 0⟩) 1 2 1 = some n ∧
      Meets n (Chip.empty n.nbank n.nblock n.npage)
        [.write 0 0 0 7 7, .read 0 0 0 0 0, .erase 0 0, .erase 0 0] := by
  refine ⟨_, rfl, ?_⟩
  have hinit : nandInit (fun _ _ _ => (⟨0, 0, 0, 0⟩ : Cell ℕ ℕ)) 1 2 1 = some _ := rfl
  exact (flags_contract hinit _).2 (by decide)

/-- The erase of a block takes the page of its neighbour along, and the erase of an empty block
succeeds next to a written one. -/
theorem nandErase_neighbour : ∃ n : Flash ℕ ℕ,
    nandInit (fun _ _ _ => ⟨0, 0, 0, 0⟩) 1 2 1 = some n ∧
      (nandRead (nandErase (nandWrite (nandWrite n 0 0 0 7 7).1 0 1 0 8 8).1 0 0).1
        0 1 0 0 0).1 = .errEmpty ∧
      (nandErase (nandWrite n 0 0 0 7 7).1 0 1).2 = .success ∧
      ¬ Meets n (Chip.empty n.nbank n.nblock n.npage) [.write 0 0 0 7 7, .erase 0 1] ∧
      ¬ Meets n (Chip.empty n.nbank n.nblock n.npage)
        [.write 0 0 0 7 7, .write 0 1 0 8 8, .erase 0 0, .read 0 1 0 0 0] := by
  refine ⟨_, rfl, rfl, rfl, fun h => ?_, fun h => ?_⟩
  · cases congrArg Prod.fst h.2.1.1
  · cases congrArg Prod.fst h.2.2.2.1.1

end Nand.Flags
