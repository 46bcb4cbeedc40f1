import Coursework.BigFile.Filling

/-! The slots of an inode that calls of `bmap` and writes of data blocks have filled since
an earlier state, and what they have logged. -/
namespace BigFile
open BlockTree

theorem ptr_parent_ne {s : Fs} {i : ℕ} {τ p : Slot} (hp : τ.parent = some p)
    (h : s.ptr (i, τ) ≠ 0) : s.ptr (i, p) ≠ 0 := by
  intro h0
  rw [ptr_of_parent s hp, Fs.entry, if_pos h0] at h
  exact h rfl

theorem Slot.root_ind : Slot.ind.Root := trivial

theorem Slot.root_dbl : Slot.dbl.Root := trivial

theorem Slot.parent_ne_self {τ p : Slot} (hp : τ.parent = some p) : p ≠ τ := by
  intro e
  have := Slot.rank_lt hp
  rw [e] at this
  omega

/-- A store into a block that a data slot names. -/
def Fs.putData (s : Fs) (b : ℕ) (d : ℕ → ℕ) : Fs := (s.setBlock b d).logWrite b

section
variable {s : Fs} {i bn : ℕ} (h : WellFormed s) (h0 : s.ptr (i, .data bn) ≠ 0) (d : ℕ → ℕ)
include h

omit i bn in
theorem ptr_putData (i bn : ℕ) : (s.putData (s.ptr (i, .data bn)) d).ptr = s.ptr := by
  have hr := resolves (s.putData (s.ptr (i, .data bn)) d)
  have hroot : (s.putData (s.ptr (i, .data bn)) d).root = s.root := rfl
  rw [hroot] at hr
  apply (resolves s).frame hr
  rintro ⟨j, τ⟩ q hq hq0
  obtain ⟨p, hp, rfl⟩ := Option.map_eq_some_iff.1 hq
  have hne : s.ptr (j, p) ≠ s.ptr (i, .data bn) := by
    apply h.ptr_ne hq0
    intro e
    rw [Prod.mk.injEq] at e
    exact Slot.parent_ne_data τ bn (e.2 ▸ hp)
  show getWord (Function.update s.disk _ d (s.ptr (j, p))) _ = _
  rw [Function.update_of_ne hne]

include h0

theorem used_putData : (s.putData (s.ptr (i, .data bn)) d).used = s.used := by
  show (s.setBlock (s.ptr (i, .data bn)) d).used = s.used
  apply used_setBlock
  intro b hb
  exact h.bblock_ne_ptr h0 hb

theorem WellFormed.putData : WellFormed (s.putData (s.ptr (i, .data bn)) d) := by
  constructor
  · exact h.layout.congr rfl
  · rw [used_putData h h0, ptr_putData h]
    exact h.owned

end

/-- From `s` to `s'`, the slots `M` of inode `i` have been filled and the data blocks `W`
written. -/
structure Trace (s s' : Fs) (i : ℕ) (M : Finset Slot) (W : Finset ℕ) : Prop where
  wf : WellFormed s'
  sb : s'.sb = s.sb
  was : ∀ {τ}, τ ∈ M → s.ptr (i, τ) = 0
  now : ∀ {τ}, τ ∈ M → s'.ptr (i, τ) ≠ 0
  same : ∀ {v : Node}, (∀ τ ∈ M, v ≠ (i, τ)) → s'.ptr v = s.ptr v
  enough : M.card ≤ s.freeBlocks.length
  free : s'.freeBlocks = s.freeBlocks.drop M.card
  written : ∀ {bn}, bn ∈ W → s'.ptr (i, .data bn) ≠ 0
  log : ∀ {c}, c ∈ s'.log ↔ c ∈ s.log ∨
    (∃ x ∈ s.freeBlocks.take M.card, c = s.bblock x) ∨ (∃ τ ∈ M, c = s'.ptr (i, τ)) ∨
    (∃ τ ∈ M, ∃ p, τ.parent = some p ∧ c = s'.ptr (i, p)) ∨ (∃ bn ∈ W, c = s'.ptr (i, .data bn))
  nodup : s.log.Nodup → s'.log.Nodup
  disk : ∀ {j bn}, s.ptr (j, .data bn) ≠ 0 → (j = i → bn ∉ W) →
    s'.disk (s.ptr (j, .data bn)) = s.disk (s.ptr (j, .data bn))
  type : ∀ j, (s'.inode j).type = (s.inode j).type
  size : ∀ j, (s'.inode j).size = (s.inode j).size
  commits : s'.commits = s.commits

theorem Trace.refl {s : Fs} (h : WellFormed s) (i : ℕ) : Trace s s i ∅ ∅ where
  wf := h
  sb := rfl
  was h := absurd h (Finset.notMem_empty _)
  now h := absurd h (Finset.notMem_empty _)
  same _ := rfl
  enough := Nat.zero_le _
  free := rfl
  written h := absurd h (Finset.notMem_empty _)
  log := by simp
  nodup h := h
  disk _ _ := rfl
  type _ := rfl
  size _ := rfl
  commits := rfl

/-- `M` with a slot that is filled if it is empty in `s`. -/
def fill (s : Fs) (i : ℕ) (M : Finset Slot) (τ : Slot) : Finset Slot :=
  if s.ptr (i, τ) = 0 then insert τ M else M

namespace Trace

variable {s s' t : Fs} {i bn a x : ℕ} {M : Finset Slot} {W : Finset ℕ} {τ : Slot}
  {rest : List ℕ}

theorem keeps (h : Trace s s' i M W) {v : Node} (hv : s.ptr v ≠ 0) : s'.ptr v = s.ptr v := by
  apply h.same
  rintro τ hτ rfl
  exact hv (h.was hτ)

theorem not_mem (h : Trace s s' i M W) (h0 : s'.ptr (i, τ) = 0) : τ ∉ M :=
  fun hτ => h.now hτ h0

theorem was_zero (h : Trace s s' i M W) (h0 : s'.ptr (i, τ) = 0) : s.ptr (i, τ) = 0 := by
  by_contra hne
  exact hne (by rw [← h.keeps hne, h0])

theorem mem_of_filled (h : Trace s s' i M W) (h0 : s.ptr (i, τ) = 0) (h1 : s'.ptr (i, τ) ≠ 0) :
    τ ∈ M := by
  by_contra hτ
  refine h1 ((h.same ?_).trans h0)
  intro τ' hτ' e
  rw [Prod.mk.injEq] at e
  exact hτ (e.2 ▸ hτ')

/-- One more slot filled. -/
theorem fill_step (h : Trace s s' i M W) (h0 : s'.ptr (i, τ) = 0)
    (hf : s'.freeBlocks = x :: rest) (hfill : Filled s' t i τ x rest) :
    Trace s t i (insert τ M) W := by
  have hnot := h.not_mem h0
  have hcard : (insert τ M).card = M.card + 1 := Finset.card_insert_of_notMem hnot
  have hdrop : s.freeBlocks.drop M.card = x :: rest := by rw [← h.free, hf]
  have hkeep : ∀ {τ'}, s'.ptr (i, τ') ≠ 0 → t.ptr (i, τ') = s'.ptr (i, τ') := by
    intro τ' hne
    rw [hfill.ptr]
    apply Function.update_of_ne
    intro e
    rw [e] at hne
    exact hne h0
  have hself : t.ptr (i, τ) = x := by rw [hfill.ptr, Function.update_self]
  have hx0 : x ≠ 0 := by
    have hx : x ∈ freeList s'.used s'.sb.size := by
      rw [show freeList s'.used s'.sb.size = x :: rest from hf]
      exact List.mem_cons_self
    have := h.wf.owned.lo_le_free hx
    have := h.wf.owned.lo_pos
    omega
  constructor
  · exact hfill.wf
  · exact hfill.sb.trans h.sb
  · intro τ' hτ'
    rcases Finset.mem_insert.1 hτ' with rfl | hτ'
    · exact h.was_zero h0
    · exact h.was hτ'
  · intro τ' hτ'
    rcases Finset.mem_insert.1 hτ' with rfl | hτ'
    · rwa [hself]
    · rw [hkeep (h.now hτ')]
      exact h.now hτ'
  · intro v hv
    rw [hfill.ptr, Function.update_of_ne (hv τ (Finset.mem_insert_self _ _))]
    exact h.same fun τ' hτ' => hv τ' (Finset.mem_insert_of_mem hτ')
  · have := congrArg List.length hdrop
    rw [List.length_drop, List.length_cons] at this
    omega
  · rw [hfill.free, hcard, ← List.tail_drop, hdrop]
    rfl
  · intro bn hbn
    rw [hkeep (h.written hbn)]
    exact h.written hbn
  · intro c
    have htake : s.freeBlocks.take (M.card + 1) = s.freeBlocks.take M.card ++ [x] := by
      rw [List.take_add, hdrop]
      rfl
    have hbb : s'.bblock x = s.bblock x := by rw [Fs.bblock, Fs.bblock, h.sb]
    have h1 : (∃ τ' ∈ insert τ M, c = t.ptr (i, τ')) ↔ c = x ∨ ∃ τ' ∈ M, c = s'.ptr (i, τ') := by
      constructor
      · rintro ⟨τ', hτ', rfl⟩
        rcases Finset.mem_insert.1 hτ' with rfl | hτ'
        · exact .inl hself
        · exact .inr ⟨τ', hτ', hkeep (h.now hτ')⟩
      · rintro (rfl | ⟨τ', hτ', rfl⟩)
        · exact ⟨τ, Finset.mem_insert_self _ _, hself.symm⟩
        · exact ⟨τ', Finset.mem_insert_of_mem hτ', (hkeep (h.now hτ')).symm⟩
    have hpar : ∀ {τ' p}, τ' ∈ M → τ'.parent = some p → t.ptr (i, p) = s'.ptr (i, p) :=
      fun hτ' hp => hkeep (ptr_parent_ne hp (h.now hτ'))
    have hparτ : ∀ {p}, τ.parent = some p → t.ptr (i, p) = s'.ptr (i, p) := by
      intro p hp
      rw [hfill.ptr]
      apply Function.update_of_ne
      intro e
      rw [Prod.mk.injEq] at e
      exact Slot.parent_ne_self hp e.2
    have h2 : (∃ τ' ∈ insert τ M, ∃ p, τ'.parent = some p ∧ c = t.ptr (i, p)) ↔
        (∃ p, τ.parent = some p ∧ c = s'.ptr (i, p)) ∨
          ∃ τ' ∈ M, ∃ p, τ'.parent = some p ∧ c = s'.ptr (i, p) := by
      constructor
      · rintro ⟨τ', hτ', p, hp, rfl⟩
        rcases Finset.mem_insert.1 hτ' with rfl | hτ'
        · exact .inl ⟨p, hp, hparτ hp⟩
        · exact .inr ⟨τ', hτ', p, hp, hpar hτ' hp⟩
      · rintro (⟨p, hp, rfl⟩ | ⟨τ', hτ', p, hp, rfl⟩)
        · exact ⟨τ, Finset.mem_insert_self _ _, p, hp, (hparτ hp).symm⟩
        · exact ⟨τ', Finset.mem_insert_of_mem hτ', p, hp, (hpar hτ' hp).symm⟩
    have h3 : (∃ bn ∈ W, c = t.ptr (i, .data bn)) ↔ ∃ bn ∈ W, c = s'.ptr (i, .data bn) := by
      constructor
      · rintro ⟨bn, hbn, rfl⟩
        exact ⟨bn, hbn, hkeep (h.written hbn)⟩
      · rintro ⟨bn, hbn, rfl⟩
        exact ⟨bn, hbn, (hkeep (h.written hbn)).symm⟩
    have h4 : (∃ y ∈ s.freeBlocks.take (M.card + 1), c = s.bblock y) ↔
        (∃ y ∈ s.freeBlocks.take M.card, c = s.bblock y) ∨ c = s.bblock x := by
      simp only [htake, List.mem_append, List.mem_singleton, or_and_right, exists_or,
        exists_eq_left]
    rw [hfill.log, h.log, hbb, hcard, h1, h2, h3, h4]
    exact iff_of_eq (by ac_rfl)
  · intro hnd
    exact hfill.nodup (h.nodup hnd)
  · intro j bn hv hW
    have e := h.keeps hv
    rw [← h.disk hv hW, ← e]
    exact hfill.disk (by rwa [e])
  · intro j
    rw [hfill.type, h.type]
  · intro j
    rw [hfill.size, h.size]
  · rw [hfill.commits, h.commits]

/-- One more data block written. -/
theorem write_step (h : Trace s s' i M W) (h0 : s'.ptr (i, .data bn) ≠ 0) (d : ℕ → ℕ) :
    Trace s (s'.putData (s'.ptr (i, .data bn)) d) i M (insert bn W) := by
  have hptr := ptr_putData h.wf d i bn
  constructor
  · exact h.wf.putData h0 d
  · exact h.sb
  · exact h.was
  · rw [hptr]
    exact h.now
  · rw [hptr]
    exact h.same
  · exact h.enough
  · rw [← h.free, Fs.freeBlocks, used_putData h.wf h0]
    rfl
  · intro bn' hbn'
    rw [hptr]
    rcases Finset.mem_insert.1 hbn' with rfl | hbn'
    · exact h0
    · exact h.written hbn'
  · intro c
    have hl : c ∈ (s'.putData (s'.ptr (i, .data bn)) d).log ↔
        c ∈ s'.log ∨ c = s'.ptr (i, .data bn) := mem_logWrite
    rw [hl, h.log, hptr]
    simp only [Finset.mem_insert, or_and_right, exists_or, exists_eq_left]
    exact iff_of_eq (by ac_rfl)
  · intro hnd
    exact nodup_logWrite (s := s'.setBlock _ _) (h.nodup hnd)
  · intro j bn' hv hW
    have hne : s.ptr (j, .data bn') ≠ s'.ptr (i, .data bn) := by
      rw [← h.keeps hv]
      apply h.wf.ptr_ne (by rwa [h.keeps hv])
      intro e
      rw [Prod.mk.injEq, Slot.data.injEq] at e
      exact hW e.1 (e.2 ▸ Finset.mem_insert_self _ _)
    rw [← h.disk hv fun e hmem => hW e (Finset.mem_insert_of_mem hmem)]
    exact Function.update_of_ne hne _ _
  · exact h.type
  · exact h.size
  · exact h.commits

theorem ensure_step (h : Trace s s' i M W) (hr : Ready s' i τ)
    (he : ensure s' i τ = some (t, a)) :
    Trace s t i (fill s i M τ) W ∧ t.ptr (i, τ) = a ∧ a ≠ 0 := by
  by_cases h0 : s'.ptr (i, τ) = 0
  · rw [ensure_of_eq hr h0] at he
    cases hf : s'.freeBlocks with
    | nil => simp [hf] at he
    | cons x rest =>
      rw [hf, List.head?_cons, Option.map_some, Option.some.injEq, Prod.mk.injEq] at he
      obtain ⟨rfl, rfl⟩ := he
      have hfill := assign_filled h.wf hr h0 hf
      have ht := h.fill_step h0 hf hfill
      have hself : (assign s' i τ x).ptr (i, τ) = x := by rw [hfill.ptr, Function.update_self]
      rw [fill, if_pos (h.was_zero h0)]
      exact ⟨ht, hself, hself ▸ ht.now (Finset.mem_insert_self _ _)⟩
  · rw [ensure_of_ne hr h0, Option.some.injEq, Prod.mk.injEq] at he
    obtain ⟨rfl, rfl⟩ := he
    refine ⟨?_, rfl, h0⟩
    unfold fill
    by_cases hs : s.ptr (i, τ) = 0
    · rw [if_pos hs, Finset.insert_eq_of_mem (h.mem_of_filled hs h0)]
      exact h
    · rwa [if_neg hs]

theorem ensure_exists (h : Trace s s' i M W) (hr : Ready s' i τ)
    (hfree : (fill s i M τ).card ≤ s.freeBlocks.length) : ∃ t a, ensure s' i τ = some (t, a) := by
  by_cases h0 : s'.ptr (i, τ) = 0
  · rw [fill, if_pos (h.was_zero h0), Finset.card_insert_of_notMem (h.not_mem h0)] at hfree
    rw [ensure_of_eq hr h0]
    cases hf : s'.freeBlocks with
    | nil =>
      have := congrArg List.length hf
      rw [h.free, List.length_drop, List.length_nil] at this
      omega
    | cons x rest => exact ⟨_, _, rfl⟩
  · exact ⟨_, _, ensure_of_ne hr h0⟩

end Trace

/-- The slots through which `bmap` goes for file block `bn`. -/
def path (bn : ℕ) : List Slot :=
  if bn < 11 then [.data bn]
  else if bn < 139 then [.ind, .data bn]
  else [.dbl, .dblE ((bn - 139) / 128), .data bn]

/-- `bmap` follows its path with `ensure`. -/
theorem bmap_eq (s : Fs) (i : ℕ) {bn : ℕ} (hbn : bn < 16523) :
    bmap s i bn =
      if bn < 11 then ensure s i (.data bn)
      else if bn < 139 then
        (ensure s i .ind).bind fun r => bmapEntry r.1 r.2 (Slot.data bn).idx
      else (ensure s i .dbl).bind fun r =>
        (bmapEntry r.1 r.2 (Slot.dblE ((bn - 139) / 128)).idx).bind fun r =>
          bmapEntry r.1 r.2 (Slot.data bn).idx := by
  have c1 : ndirect = 11 := rfl
  have c2 : nindirect = 128 := rfl
  have c3 : dindirect = 16384 := rfl
  unfold bmap
  rw [c1, c2, c3]
  by_cases h1 : bn < 11
  · rw [if_pos h1, if_pos h1, ensure, Slot.parent_data, if_pos h1]
    simp [Slot.idx, h1]
  · rw [if_neg h1, if_neg h1]
    by_cases h2 : bn < 139
    · have e : bn - 11 < 128 := by omega
      simp only [if_pos e, if_pos h2]
      have hidx : (Slot.data bn).idx = bn - 11 := by simp [Slot.idx, h1, h2]
      rw [hidx]
      rfl
    · have e : ¬ bn - 11 < 128 := by omega
      have e' : bn - 11 - 128 < 16384 := by omega
      simp only [if_neg e, if_neg h2, if_pos e']
      have hidx : (Slot.data bn).idx = (bn - 139) % 128 := by simp [Slot.idx, h1, h2]
      have hsub : bn - 11 - 128 = bn - 139 := by omega
      rw [hidx, hsub]
      rfl

theorem bmapEntry_eq {s : Fs} {i a : ℕ} {τ p : Slot} (hp : τ.parent = some p)
    (ha : s.ptr (i, p) = a) : bmapEntry s a τ.idx = ensure s i τ := by
  unfold ensure
  rw [hp, ← ha]

namespace Trace

variable {s s' t : Fs} {i bn a : ℕ} {M : Finset Slot} {W : Finset ℕ}

theorem ind_parent {bn : ℕ} (h1 : ¬ bn < 11) (h2 : bn < 139) :
    (Slot.data bn).parent = some .ind := by rw [Slot.parent_data, if_neg h1, if_pos h2]

theorem dblE_parent {bn : ℕ} (h2 : ¬ bn < 139) (h3 : bn < 16523) :
    (Slot.data bn).parent = some (.dblE ((bn - 139) / 128)) := by
  rw [Slot.parent_data, if_neg (by omega), if_neg h2, if_pos h3]

theorem dbl_parent {bn : ℕ} (h3 : bn < 16523) :
    (Slot.dblE ((bn - 139) / 128)).parent = some .dbl := by
  rw [Slot.parent_dblE, if_pos (by omega)]

/-- A call of `bmap` fills the empty slots of its path and returns what the last one
holds. -/
theorem bmap_step (h : Trace s s' i M W) (hbn : bn < 16523) (he : bmap s' i bn = some (t, a)) :
    Trace s t i ((path bn).foldl (fill s i) M) W ∧ t.ptr (i, .data bn) = a ∧ a ≠ 0 := by
  rw [bmap_eq s' i hbn] at he
  unfold path
  by_cases h1 : bn < 11
  · rw [if_pos h1] at he ⊢
    exact h.ensure_step (.inl h1) he
  · rw [if_neg h1] at he ⊢
    by_cases h2 : bn < 139
    · rw [if_pos h2] at he ⊢
      obtain ⟨⟨t₁, a₁⟩, he₁, he⟩ := Option.bind_eq_some_iff.1 he
      obtain ⟨ht₁, ha₁, hne₁⟩ := h.ensure_step (.inl Slot.root_ind) he₁
      have hp := ind_parent h1 h2
      rw [bmapEntry_eq hp ha₁] at he
      exact ht₁.ensure_step (.inr ⟨_, hp, by rwa [ha₁]⟩) he
    · rw [if_neg h2] at he ⊢
      obtain ⟨⟨t₁, a₁⟩, he₁, he⟩ := Option.bind_eq_some_iff.1 he
      obtain ⟨ht₁, ha₁, hne₁⟩ := h.ensure_step (.inl Slot.root_dbl) he₁
      obtain ⟨⟨t₂, a₂⟩, he₂, he⟩ := Option.bind_eq_some_iff.1 he
      have hp := dbl_parent hbn
      rw [bmapEntry_eq hp ha₁] at he₂
      obtain ⟨ht₂, ha₂, hne₂⟩ := ht₁.ensure_step (.inr ⟨_, hp, by rwa [ha₁]⟩) he₂
      have hp' := dblE_parent h2 hbn
      rw [bmapEntry_eq hp' ha₂] at he
      exact ht₂.ensure_step (.inr ⟨_, hp', by rwa [ha₂]⟩) he

theorem subset_fill (s : Fs) (i : ℕ) (M : Finset Slot) (τ : Slot) : M ⊆ fill s i M τ := by
  unfold fill
  by_cases h0 : s.ptr (i, τ) = 0
  · rw [if_pos h0]
    exact Finset.subset_insert _ _
  · rw [if_neg h0]

theorem bmap_exists (h : Trace s s' i M W) (hbn : bn < 16523)
    (hfree : ((path bn).foldl (fill s i) M).card ≤ s.freeBlocks.length) :
    ∃ t a, bmap s' i bn = some (t, a) := by
  rw [bmap_eq s' i hbn]
  unfold path at hfree
  by_cases h1 : bn < 11
  · rw [if_pos h1] at hfree ⊢
    exact h.ensure_exists (.inl h1) hfree
  · rw [if_neg h1] at hfree ⊢
    by_cases h2 : bn < 139
    · rw [if_pos h2] at hfree ⊢
      simp only [List.foldl_cons, List.foldl_nil] at hfree
      have hle := Finset.card_le_card (subset_fill s i (fill s i M .ind) (.data bn))
      obtain ⟨t₁, a₁, he₁⟩ := h.ensure_exists (.inl Slot.root_ind) (hle.trans hfree)
      obtain ⟨ht₁, ha₁, hne₁⟩ := h.ensure_step (.inl Slot.root_ind) he₁
      have hp := ind_parent h1 h2
      rw [he₁, Option.bind_some, bmapEntry_eq hp ha₁]
      exact ht₁.ensure_exists (.inr ⟨_, hp, by rwa [ha₁]⟩) hfree
    · rw [if_neg h2] at hfree ⊢
      simp only [List.foldl_cons, List.foldl_nil] at hfree
      have hp := dbl_parent hbn
      have hp' := dblE_parent h2 hbn
      have hle₂ := Finset.card_le_card
        (subset_fill s i (fill s i (fill s i M .dbl) (.dblE ((bn - 139) / 128))) (.data bn))
      have hle₁ := Finset.card_le_card
        (subset_fill s i (fill s i M .dbl) (.dblE ((bn - 139) / 128)))
      obtain ⟨t₁, a₁, he₁⟩ := h.ensure_exists (.inl Slot.root_dbl) (hle₁.trans (hle₂.trans hfree))
      obtain ⟨ht₁, ha₁, hne₁⟩ := h.ensure_step (.inl Slot.root_dbl) he₁
      rw [he₁, Option.bind_some, bmapEntry_eq hp ha₁]
      have hr₂ : Ready t₁ i (.dblE ((bn - 139) / 128)) := .inr ⟨_, hp, by rwa [ha₁]⟩
      obtain ⟨t₂, a₂, he₂⟩ := ht₁.ensure_exists hr₂ (hle₂.trans hfree)
      obtain ⟨ht₂, ha₂, hne₂⟩ := ht₁.ensure_step hr₂ he₂
      rw [he₂, Option.bind_some, bmapEntry_eq hp' ha₂]
      exact ht₂.ensure_exists (.inr ⟨_, hp', by rwa [ha₂]⟩) hfree

end Trace

end BigFile
