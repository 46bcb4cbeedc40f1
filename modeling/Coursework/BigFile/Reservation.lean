import Coursework.BigFile.BlockMap

/-! How many blocks the transactions of `filewrite` log, against the number that `begin_op`
reserves. -/
namespace BigFile
open BlockTree

/-- The index blocks in which a write of `n` bytes at `off` fills an entry. -/
def indexBlocks (s : Fs) (i off n : ℕ) : Finset Slot :=
  (missing s i (touched off n)).biUnion fun τ => τ.parent.toFinset

/-- The bitmap blocks of the free blocks that it takes. -/
def bitmapBlocks (s : Fs) (i off n : ℕ) : Finset ℕ :=
  ((s.freeBlocks.take (missing s i (touched off n)).card).map s.bblock).toFinset

/-- The blocks that it logs: data blocks, index blocks, bitmap blocks, and the inode if the
file grows. -/
def chunkCost (s : Fs) (i off n : ℕ) : ℕ :=
  (touched off n).card + (indexBlocks s i off n).card + (bitmapBlocks s i off n).card +
    if (s.inode i).size < off + n then 1 else 0

theorem mem_indexBlocks {s : Fs} {i off n : ℕ} {p : Slot} :
    p ∈ indexBlocks s i off n ↔ ∃ τ ∈ missing s i (touched off n), τ.parent = some p := by
  simp [indexBlocks]

theorem mem_bitmapBlocks {s : Fs} {i off n c : ℕ} :
    c ∈ bitmapBlocks s i off n ↔
      ∃ x ∈ s.freeBlocks.take (missing s i (touched off n)).card, c = s.bblock x := by
  unfold bitmapBlocks
  rw [List.mem_toFinset, List.mem_map]
  simp only [eq_comm]

theorem data_mem_path {bn bn' : ℕ} : Slot.data bn ∈ path bn' ↔ bn = bn' := by
  unfold path
  by_cases h1 : bn' < 11
  · simp [h1]
  · by_cases h2 : bn' < 139 <;> simp [h1, h2]

/-- An index block that has to be allocated gets an entry at once. -/
theorem missing_index {s : Fs} {i : ℕ} {B : Finset ℕ} (hB : ∀ bn ∈ B, bn < 16523) {τ : Slot}
    (hτ : τ ∈ missing s i B) (hidx : ∀ bn, τ ≠ .data bn) :
    ∃ σ ∈ missing s i B, σ.parent = some τ := by
  obtain ⟨⟨bn, hbn, hp⟩, h0⟩ := mem_missing.1 hτ
  have hchild : ∀ {σ}, σ ∈ path bn → σ.parent = some τ →
      ∃ σ ∈ missing s i B, σ.parent = some τ := by
    intro σ hσ hpar
    refine ⟨σ, mem_missing.2 ⟨⟨bn, hbn, hσ⟩, ?_⟩, hpar⟩
    rw [ptr_of_parent s hpar, h0]
    rfl
  have hlt := hB bn hbn
  by_cases h1 : bn < 11
  · simp only [path, if_pos h1, List.mem_singleton] at hp
    exact absurd hp (hidx bn)
  · by_cases h2 : bn < 139
    · simp only [path, if_neg h1, if_pos h2, List.mem_cons, List.not_mem_nil, or_false] at hp
      rcases hp with rfl | rfl
      · exact hchild (data_mem_path.2 rfl) (Trace.ind_parent h1 h2)
      · exact absurd rfl (hidx bn)
    · simp only [path, if_neg h1, if_neg h2, List.mem_cons, List.not_mem_nil, or_false] at hp
      rcases hp with rfl | rfl | rfl
      · exact hchild (by simp [path, h1, h2]) (Trace.dbl_parent hlt)
      · exact hchild (data_mem_path.2 rfl) (Trace.dblE_parent h2 hlt)
      · exact absurd rfl (hidx bn)

section
variable {s t : Fs} {i off n : ℕ} {src : ℕ → ℕ}

theorem touched_lt (hend : off + n ≤ 8459776) : ∀ bn ∈ touched off n, bn < 16523 := by
  intro bn hbn
  have := mem_touched.1 hbn
  omega

/-- What the loop of `writei` logs, in terms of the state before it. -/
theorem writeLoop_log (hlog : s.log = []) (hend : off + n ≤ 8459776)
    (h : Trace s t i (missing s i (touched off n)) (touched off n)) :
    t.log.toFinset = (touched off n).image (fun bn => t.ptr (i, .data bn)) ∪
      (indexBlocks s i off n).image (fun p => t.ptr (i, p)) ∪ bitmapBlocks s i off n := by
  ext c
  rw [List.mem_toFinset, h.log, hlog]
  simp only [Finset.mem_union, Finset.mem_image, mem_bitmapBlocks, mem_indexBlocks,
    List.not_mem_nil, false_or]
  constructor
  · rintro (hx | ⟨τ, hτ, rfl⟩ | ⟨τ, hτ, p, hp, rfl⟩ | ⟨bn, hbn, rfl⟩)
    · exact .inr hx
    · by_cases hidx : ∀ bn, τ ≠ .data bn
      · obtain ⟨σ, hσ, hpar⟩ := missing_index (touched_lt hend) hτ hidx
        exact .inl (.inr ⟨τ, ⟨σ, hσ, hpar⟩, rfl⟩)
      · obtain ⟨bn, hbn⟩ := not_forall.1 hidx
        have e : τ = .data bn := not_not.1 hbn
        subst e
        obtain ⟨⟨bn', hbn', hp⟩, -⟩ := mem_missing.1 hτ
        rw [data_mem_path] at hp
        exact .inl (.inl ⟨bn, hp ▸ hbn', rfl⟩)
    · exact .inl (.inr ⟨p, ⟨τ, hτ, hp⟩, rfl⟩)
    · exact .inl (.inl ⟨bn, hbn, rfl⟩)
  · rintro ((⟨bn, hbn, rfl⟩ | ⟨p, ⟨τ, hτ, hp⟩, rfl⟩) | hx)
    · exact .inr (.inr (.inr ⟨bn, hbn, rfl⟩))
    · exact .inr (.inr (.inl ⟨τ, hτ, p, hp, rfl⟩))
    · exact .inl hx

theorem card_writeLoop_log (hlog : s.log = []) (hend : off + n ≤ 8459776)
    (h : Trace s t i (missing s i (touched off n)) (touched off n)) (hs : WellFormed s) :
    t.log.toFinset.card = (touched off n).card + (indexBlocks s i off n).card +
      (bitmapBlocks s i off n).card := by
  have hidx : ∀ {p}, p ∈ indexBlocks s i off n → t.ptr (i, p) ≠ 0 := by
    intro p hp
    obtain ⟨τ, hτ, hpar⟩ := mem_indexBlocks.1 hp
    exact ptr_parent_ne hpar (h.now hτ)
  have hdata : ((touched off n).image fun bn => t.ptr (i, .data bn)).card =
      (touched off n).card := by
    apply Finset.card_image_of_injOn
    intro bn hbn bn' _ e
    have := h.wf.owned.inj (h.written hbn) e
    simpa using this
  have hindex : ((indexBlocks s i off n).image fun p => t.ptr (i, p)).card =
      (indexBlocks s i off n).card := by
    apply Finset.card_image_of_injOn
    intro p hp p' _ e
    have := h.wf.owned.inj (hidx hp) e
    simpa using this
  have hdisj : Disjoint ((touched off n).image fun bn => t.ptr (i, .data bn))
      ((indexBlocks s i off n).image fun p => t.ptr (i, p)) := by
    rw [Finset.disjoint_left]
    intro c hc hc'
    obtain ⟨bn, hbn, rfl⟩ := Finset.mem_image.1 hc
    obtain ⟨p, hp, e⟩ := Finset.mem_image.1 hc'
    obtain ⟨τ, -, hpar⟩ := mem_indexBlocks.1 hp
    have hv := h.wf.owned.inj (hidx hp) e
    rw [Prod.mk.injEq] at hv
    exact Slot.parent_ne_data τ bn (hv.2 ▸ hpar)
  have hbm : Disjoint ((touched off n).image (fun bn => t.ptr (i, .data bn)) ∪
      (indexBlocks s i off n).image fun p => t.ptr (i, p)) (bitmapBlocks s i off n) := by
    rw [Finset.disjoint_left]
    intro c hc hc'
    obtain ⟨x, hx, e⟩ := mem_bitmapBlocks.1 hc'
    have hlt := (mem_freeList.1 (List.mem_of_mem_take hx)).1
    have hb := hs.layout.bitmap hlt
    have hlo : s.dataStart ≤ c := by
      have hds : t.dataStart = s.dataStart := by rw [Fs.dataStart, Fs.dataStart, h.sb]
      rw [← hds]
      rcases Finset.mem_union.1 hc with hc | hc
      · obtain ⟨bn, hbn, rfl⟩ := Finset.mem_image.1 hc
        exact (h.wf.owned.range (h.written hbn)).1
      · obtain ⟨p, hp, rfl⟩ := Finset.mem_image.1 hc
        exact (h.wf.owned.range (hidx hp)).1
    omega
  rw [writeLoop_log hlog hend h, Finset.card_union_of_disjoint hbm,
    Finset.card_union_of_disjoint hdisj, hdata, hindex]

/-- The inode block is none of them. -/
theorem iblock_notMem_log (hlog : s.log = []) (hend : off + n ≤ 8459776) (hs : WellFormed s)
    (hi : i < s.sb.ninodes)
    (h : Trace s t i (missing s i (touched off n)) (touched off n)) :
    s.iblock i ∉ t.log := by
  intro hc
  have hpos := hs.owned.lo_pos
  have hsz : 0 < s.sb.size := by
    unfold Fs.dataStart at hpos
    omega
  have hlt := hs.layout.inode_lt hi hsz
  have hds : t.dataStart = s.dataStart := by rw [Fs.dataStart, Fs.dataStart, h.sb]
  have hc' : s.iblock i ∈ t.log.toFinset := List.mem_toFinset.2 hc
  rw [writeLoop_log hlog hend h, Finset.mem_union, Finset.mem_union] at hc'
  rcases hc' with (hc' | hc') | hc'
  · obtain ⟨bn, hbn, e⟩ := Finset.mem_image.1 hc'
    have := (h.wf.owned.range (h.written hbn)).1
    omega
  · obtain ⟨p, hp, e⟩ := Finset.mem_image.1 hc'
    obtain ⟨τ, hτ, hpar⟩ := mem_indexBlocks.1 hp
    have := (h.wf.owned.range (ptr_parent_ne hpar (h.now hτ))).1
    omega
  · obtain ⟨x, -, e⟩ := mem_bitmapBlocks.1 hc'
    have h1 := hs.layout.inodes hi
    have h2 : s.sb.bmapstart ≤ s.bblock x := Nat.le_add_left _ _
    omega

/-- The state and the log after one call of `writei`. -/
theorem writei_cost {r : ℤ} (hs : WellFormed s) (hlog : s.log = []) (hi : i < s.sb.ninodes)
    (hn : 0 < n) (htype : (s.inode i).type ≠ tDev) (hoff : off ≤ (s.inode i).size)
    (hend : off + n ≤ 8459776) (he : writei s i src off n = some (t, r)) :
    WellFormed t ∧ t.sb = s.sb ∧ t.commits = s.commits ∧
      t.log.toFinset.card = chunkCost s i off n := by
  rw [writei_eq htype hoff hend] at he
  obtain ⟨t₁, ht₁, he⟩ := Option.map_eq_some_iff.1 he
  rw [Prod.mk.injEq] at he
  have htr := (Trace.refl hs i).writeLoop le_rfl hend ht₁
  rw [Finset.empty_union, Finset.empty_union] at htr
  have hcard := card_writeLoop_log hlog hend htr hs
  have hib := iblock_notMem_log hlog hend hs hi htr
  rw [← he.1, growSize, htr.size, chunkCost]
  by_cases hgrow : (s.inode i).size < off + n
  · rw [if_pos ⟨hn, hgrow⟩, if_pos hgrow]
    have hg := iupdate_grown htr.wf (by rwa [htr.sb]) (off + n)
    refine ⟨hg.wf, hg.sb.trans htr.sb, hg.commits.trans htr.commits, ?_⟩
    have e : (iupdate (t₁.setInode i ((t₁.inode i).setSize (off + n))) i).log.toFinset =
        insert (s.iblock i) t₁.log.toFinset := by
      have hibl : t₁.iblock i = s.iblock i := by rw [Fs.iblock, Fs.iblock, htr.sb]
      ext c
      rw [List.mem_toFinset, hg.log, Finset.mem_insert, List.mem_toFinset, hibl, or_comm]
    rw [e, Finset.card_insert_of_notMem (by simpa using hib), hcard]
  · rw [if_neg fun hc => hgrow hc.2, if_neg hgrow]
    exact ⟨htr.wf, htr.sb, htr.commits, hcard⟩

end

/-- A chunk that `writei` accepts logs at most as many blocks as are reserved. -/
def Fits (s : Fs) (i off n : ℕ) : Prop :=
  (s.inode i).type ≠ tDev → off ≤ (s.inode i).size → off + n ≤ maxfile * bsize →
    chunkCost s i off n ≤ maxopblocks

/-- Every chunk fits in the state in which its transaction opens. -/
def ChunksFit : ℕ → Fs → ℕ → (ℕ → ℕ) → ℕ → ℕ → Prop
  | 0, _, _, _, _, _ => True
  | fuel + 1, s, i, src, off, n => n ≠ 0 →
    Fits s i off (min n chunkMax) ∧
      ∀ t, writei (beginOp s) i src off (min n chunkMax) = some (t, ((min n chunkMax : ℕ) : ℤ)) →
        ChunksFit fuel (endOp t) i (fun k => src (min n chunkMax + k))
          (uadd off (min n chunkMax)) (n - min n chunkMax)

/-- The transactions of `t` after those of `s` log at most `maxopblocks` different blocks. -/
def Reserved (s t : Fs) : Prop :=
  ∀ l ∈ t.commits.drop s.commits.length, l.toFinset.card ≤ maxopblocks

theorem WellFormed.beginOp {s : Fs} (h : WellFormed s) : WellFormed (beginOp s) :=
  ⟨h.layout.congr rfl, h.owned⟩

theorem WellFormed.endOp {s : Fs} (h : WellFormed s) : WellFormed (endOp s) :=
  ⟨h.layout.congr rfl, h.owned⟩

section
variable {s t : Fs} {i off n fuel : ℕ} {src : ℕ → ℕ} {r : ℤ}

/-- The transaction of one chunk stays within the reservation exactly when it fits. -/
theorem chunk_log (hs : WellFormed s) (hi : i < s.sb.ninodes) (hn : 0 < n) (hmax : n ≤ 1536)
    (he : writei (beginOp s) i src off n = some (t, r)) :
    WellFormed t ∧ t.sb = s.sb ∧ t.commits = s.commits ∧
      (t.log.toFinset.card ≤ maxopblocks ↔ Fits s i off n) := by
  have c : maxfile * bsize = 8459776 := rfl
  have hin : (beginOp s).inode = s.inode := rfl
  have hno : ∀ {k : ℤ}, some (beginOp s, k) = some (t, r) → ¬ ((s.inode i).type ≠ tDev ∧
      off ≤ (s.inode i).size ∧ off + n ≤ maxfile * bsize) →
      WellFormed t ∧ t.sb = s.sb ∧ t.commits = s.commits ∧
        (t.log.toFinset.card ≤ maxopblocks ↔ Fits s i off n) := by
    intro k hk hnot
    rw [Option.some.injEq, Prod.mk.injEq] at hk
    obtain ⟨rfl, -⟩ := hk
    refine ⟨hs.beginOp, rfl, rfl, ?_⟩
    constructor
    · intro _ h1 h2 h3
      exact absurd ⟨h1, h2, h3⟩ hnot
    · intro _
      exact Nat.zero_le _
  by_cases htype : (s.inode i).type = tDev
  · rw [writei, hin, if_pos htype] at he
    exact hno he fun h => h.1 htype
  · by_cases hoff : (s.inode i).size < off ∨ uadd off n < off
    · rw [writei, hin, if_neg htype, if_pos hoff] at he
      refine hno he fun h => ?_
      have hadd : uadd off n = off + n := Nat.mod_eq_of_lt (by omega)
      omega
    · by_cases hend : maxfile * bsize < uadd off n
      · rw [writei, hin, if_neg htype, if_neg hoff, if_pos hend] at he
        refine hno he fun h => ?_
        have hadd : uadd off n = off + n := Nat.mod_eq_of_lt (by omega)
        omega
      · have hoff' : off ≤ (s.inode i).size := by omega
        have hend' : off + n ≤ 8459776 := by
          unfold uadd at hoff hend
          omega
        obtain ⟨hwf, hsb, hcom, hcard⟩ :=
          writei_cost hs.beginOp rfl hi hn htype hoff' hend' he
        refine ⟨hwf, hsb, hcom, ?_⟩
        have hcost : chunkCost (beginOp s) i off n = chunkCost s i off n := rfl
        rw [hcard, hcost]
        constructor
        · intro h _ _ _
          exact h
        · intro h
          exact h htype hoff' (by omega)

theorem writeChunks_reserved {off' k : ℕ} (hs : WellFormed s) (hi : i < s.sb.ninodes)
    (hn : n ≤ fuel) (he : writeChunks fuel s i src off n = some (t, off', k)) :
    ∃ new, t.commits = s.commits ++ new ∧
      ((∀ l ∈ new, l.toFinset.card ≤ maxopblocks) ↔ ChunksFit fuel s i src off n) := by
  induction fuel generalizing s t src off n off' k with
  | zero =>
    rw [writeChunks, Option.some.injEq, Prod.mk.injEq] at he
    exact ⟨[], by simp [← he.1], by simp [ChunksFit]⟩
  | succ fuel ih =>
    rw [writeChunks] at he
    by_cases h0 : n = 0
    · rw [if_pos h0, Option.some.injEq, Prod.mk.injEq] at he
      exact ⟨[], by simp [← he.1], by simp [ChunksFit, h0]⟩
    · rw [if_neg h0] at he
      have cm : chunkMax = 1536 := rfl
      have hfit : ChunksFit (fuel + 1) s i src off n ↔ Fits s i off (min n chunkMax) ∧
          ∀ t, writei (beginOp s) i src off (min n chunkMax) =
              some (t, ((min n chunkMax : ℕ) : ℤ)) →
            ChunksFit fuel (endOp t) i (fun k => src (min n chunkMax + k))
              (uadd off (min n chunkMax)) (n - min n chunkMax) := by
        rw [ChunksFit]
        exact ⟨fun h => h h0, fun h _ => h⟩
      rw [hfit]
      generalize hn1 : min n chunkMax = n1 at he
      obtain ⟨⟨s₁, r⟩, hw, he⟩ := Option.bind_eq_some_iff.1 he
      simp only at he
      obtain ⟨hwf, hsb, hcom, hlog⟩ := chunk_log hs hi (by omega) (by omega) hw
      by_cases hr : r < 0
      · rw [if_pos hr, Option.some.injEq, Prod.mk.injEq] at he
        refine ⟨[s₁.log], ?_, ?_⟩
        · rw [← he.1, ← hcom]
          rfl
        · rw [List.forall_mem_singleton, hlog]
          constructor
          · intro hf
            refine ⟨hf, ?_⟩
            intro t' ht'
            rw [hw, Option.some.injEq, Prod.mk.injEq] at ht'
            omega
          · exact fun hf => hf.1
      · rw [if_neg hr] at he
        by_cases hne : r ≠ n1
        · rw [if_pos hne] at he
          cases he
        · rw [if_neg hne] at he
          rw [not_not] at hne
          subst hne
          have hpos : (0 : ℤ) < n1 := by omega
          rw [if_pos hpos, Int.toNat_natCast] at he
          obtain ⟨⟨t₁, off₁, k₁⟩, hrest, he⟩ := Option.map_eq_some_iff.1 he
          rw [Prod.mk.injEq] at he
          have hi₁ : i < (endOp s₁).sb.ninodes := by
            rw [← hsb] at hi
            exact hi
          have hle : n - n1 ≤ fuel := by omega
          obtain ⟨new, hnew, hiff⟩ := ih hwf.endOp hi₁ hle hrest
          refine ⟨s₁.log :: new, ?_, ?_⟩
          · rw [← he.1, hnew, ← hcom]
            simp [endOp]
          · rw [List.forall_mem_cons, hlog, hiff]
            constructor
            · rintro ⟨hf, hrest'⟩
              refine ⟨hf, ?_⟩
              intro t' ht'
              rw [hw, Option.some.injEq, Prod.mk.injEq] at ht'
              rw [← ht'.1]
              exact hrest'
            · rintro ⟨hf, hrest'⟩
              exact ⟨hf, hrest' s₁ hw⟩

end

/-- The transactions of a `filewrite` stay within the reservation exactly when every chunk
fits in the state in which its transaction opens. -/
theorem filewrite_reserved {s t : Fs} {f f' : File} {src : ℕ → ℕ} {n r : ℤ} (hs : WellFormed s)
    (hi : f.ip < s.sb.ninodes) (he : filewrite s f src n = some (t, f', r)) :
    Reserved s t ↔ (f.writable = true → f.type = .inode →
      ChunksFit n.toNat s f.ip src f.off n.toNat) := by
  have hsame : t = s → Reserved s t := by
    rintro rfl l hl
    simp at hl
  unfold filewrite at he
  cases hw : f.writable with
  | false =>
    rw [if_pos hw, Option.some.injEq, Prod.mk.injEq] at he
    have := hsame he.1.symm
    simp [this]
  | true =>
    rw [if_neg (by simp [hw])] at he
    cases hty : f.type with
    | none => simp [hty] at he
    | pipe =>
      simp only [hty, Option.some.injEq, Prod.mk.injEq] at he
      have := hsame he.1.symm
      simp [this]
    | inode =>
      simp only [hty] at he
      obtain ⟨⟨t₁, off, k⟩, hc, he⟩ := Option.bind_eq_some_iff.1 he
      simp only [Option.some.injEq, Prod.mk.injEq] at he
      obtain ⟨rfl, -⟩ := he
      obtain ⟨new, hnew, hiff⟩ := writeChunks_reserved hs hi le_rfl hc
      rw [Reserved, hnew, List.drop_left, hiff]
      simp

theorem filewrite_reserved_emptyDisk : ∃ t f' r,
    filewrite emptyDisk ⟨.inode, true, 1, 0⟩ (fun _ => 7) 5 = some (t, f', r) ∧
      (Reserved emptyDisk t ↔ (true = true → FileType.inode = .inode →
        ChunksFit (Int.toNat 5) emptyDisk 1 (fun _ => 7) 0 (Int.toNat 5))) := by
  have hsome : (filewrite emptyDisk ⟨.inode, true, 1, 0⟩ (fun _ => 7) 5).isSome = true := by
    decide +kernel
  obtain ⟨⟨t, f', r⟩, he⟩ := Option.isSome_iff_exists.1 hsome
  exact ⟨t, f', r, he, filewrite_reserved emptyDisk_wellFormed (by decide) he⟩

end BigFile
