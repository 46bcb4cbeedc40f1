import Coursework.BigFile.Reservation

/-! A chunk that starts no second-level block fits into the reservation; one that begins the
double-indirect region on a scattered bitmap does not. -/
namespace BigFile
open BlockTree

section
variable {s : Fs} {i off n : ℕ}

/-- The index block that holds the number of file block `bn`. -/
def table (bn : ℕ) : Slot := if bn < 139 then .ind else .dblE ((bn - 139) / 128)

theorem parent_data_eq {bn : ℕ} {p : Slot} (h : (Slot.data bn).parent = some p) :
    11 ≤ bn ∧ p = table bn := by
  rw [Slot.parent_data] at h
  unfold table
  split_ifs at h with h1 h2
  · rw [if_pos h2]
    exact ⟨by omega, (Option.some.inj h).symm⟩
  · rw [if_neg h2]
    exact ⟨by omega, (Option.some.inj h).symm⟩

theorem table_of_touched (hmax : n ≤ 1536) {bn : ℕ} (h : bn ∈ touched off n) :
    table bn = table (off / 512) ∨ table bn = table ((off + n - 1) / 512) := by
  obtain ⟨h0, h1, h2⟩ := mem_touched.1 h
  unfold table
  by_cases hb : bn < 139
  · left
    rw [if_pos hb, if_pos (by omega)]
  · by_cases hd : off / 512 < 139
    · right
      rw [if_neg hb, if_neg (by omega), Slot.dblE.injEq]
      omega
    · rw [if_neg hb, if_neg hd, if_neg (by omega), Slot.dblE.injEq, Slot.dblE.injEq]
      omega

theorem card_new_le (hoff : off ≤ (s.inode i).size) (hn : 0 < n) (hmax : n ≤ 1536)
    (hmap : ∀ bn, bn * 512 < (s.inode i).size → s.ptr (i, .data bn) ≠ 0) :
    ((touched off n).filter fun bn => s.ptr (i, .data bn) = 0).card ≤ 3 := by
  by_cases h0 : off % 512 = 0
  · have h1 := Finset.card_filter_le (touched off n) fun bn => s.ptr (i, .data bn) = 0
    rw [card_touched off hn] at h1
    omega
  · have hmem : off / 512 ∈ touched off n := mem_touched.2 ⟨hn, le_rfl, by omega⟩
    have hsub : ((touched off n).filter fun bn => s.ptr (i, .data bn) = 0) ⊆
        (touched off n).erase (off / 512) := by
      intro bn hbn
      obtain ⟨hbn, hz⟩ := Finset.mem_filter.1 hbn
      refine Finset.mem_erase.2 ⟨?_, hbn⟩
      rintro rfl
      exact hmap _ (by omega) hz
    have h1 := Finset.card_le_card hsub
    rw [Finset.card_erase_of_mem hmem, card_touched off hn] at h1
    omega

/-- Of a file without holes, a chunk that needs no new second-level block fits. -/
theorem fits_without_new_table (hn : 0 < n) (hmax : n ≤ chunkMax)
    (hmap : ∀ bn, bn * 512 < (s.inode i).size → s.ptr (i, .data bn) ≠ 0)
    (htab : ∀ bn ∈ touched off n, 139 ≤ bn → s.ptr (i, .dblE ((bn - 139) / 128)) ≠ 0) :
    Fits s i off n := by
  replace hmax : n ≤ 1536 := hmax
  intro _ hoff _
  show chunkCost s i off n ≤ 10
  have hD := card_touched off hn
  have hN := card_new_le hoff hn hmax hmap
  generalize hNdef : ((touched off n).filter fun bn => s.ptr (i, .data bn) = 0) = N at hN
  have hB : (bitmapBlocks s i off n).card ≤ (missing s i (touched off n)).card := by
    refine (List.toFinset_card_le _).trans ?_
    rw [List.length_map, List.length_take]
    exact min_le_left _ _
  have hI : (if (s.inode i).size < off + n then 1 else 0) ≤ 1 := by
    by_cases h : (s.inode i).size < off + n <;> simp [h]
  -- only data slots and the slot of the indirect block can be missing
  have hmiss : ∀ τ ∈ missing s i (touched off n), τ ∈ N.image Slot.data ∨
      (τ = .ind ∧ s.ptr (i, .ind) = 0 ∧ ∃ bn ∈ touched off n, 11 ≤ bn) := by
    intro τ hτ
    obtain ⟨⟨bn, hbn, hp⟩, h0⟩ := mem_missing.1 hτ
    have hdata : τ = .data bn → τ ∈ N.image Slot.data := by
      rintro rfl
      rw [← hNdef]
      exact Finset.mem_image.2 ⟨bn, Finset.mem_filter.2 ⟨hbn, h0⟩, rfl⟩
    by_cases h1 : bn < 11
    · simp only [path, if_pos h1, List.mem_singleton] at hp
      exact .inl (hdata hp)
    · by_cases h2 : bn < 139
      · simp only [path, if_neg h1, if_pos h2, List.mem_cons, List.not_mem_nil, or_false] at hp
        rcases hp with rfl | hp
        · exact .inr ⟨rfl, h0, bn, hbn, by omega⟩
        · exact .inl (hdata hp)
      · have ht := htab bn hbn (by omega)
        simp only [path, if_neg h1, if_neg h2, List.mem_cons, List.not_mem_nil, or_false] at hp
        rcases hp with rfl | rfl | hp
        · have hpar : (Slot.dblE ((bn - 139) / 128)).parent = some .dbl := by
            rw [Slot.parent_dblE]
            by_contra hge
            exact ht (by simp only [Fs.ptr]; rw [if_neg (by simpa using hge)])
          exact absurd h0 (ptr_parent_ne hpar ht)
        · exact absurd h0 ht
        · exact .inl (hdata hp)
  have himg := Finset.card_image_le (f := Slot.data) (s := N)
  unfold chunkCost
  by_cases hind : s.ptr (i, .ind) = 0 ∧ ∃ bn ∈ touched off n, 11 ≤ bn
  · -- the file ends in its direct blocks, so the chunk ends in the indirect ones
    have hsmall : (s.inode i).size ≤ 11 * 512 := by
      by_contra hlt
      refine hmap 11 (by omega) ?_
      rw [ptr_of_parent s (Trace.ind_parent (by omega) (by omega)), hind.1]
      rfl
    have hidx : indexBlocks s i off n ⊆ {.ind} := by
      intro p hp
      obtain ⟨τ, hτ, hpar⟩ := mem_indexBlocks.1 hp
      rcases hmiss τ hτ with h | ⟨rfl, -⟩
      · obtain ⟨bn, hbn, rfl⟩ := Finset.mem_image.1 h
        rw [← hNdef] at hbn
        have hb := mem_touched.1 (Finset.mem_filter.1 hbn).1
        rw [(parent_data_eq hpar).2, table, if_pos (by omega)]
        exact Finset.mem_singleton_self _
      · cases hpar
    have hM : missing s i (touched off n) ⊆ insert .ind (N.image Slot.data) := by
      intro τ hτ
      rcases hmiss τ hτ with h | ⟨rfl, -⟩
      · exact Finset.mem_insert_of_mem h
      · exact Finset.mem_insert_self _ _
    have h1 := Finset.card_le_card hidx
    have h2 := (Finset.card_le_card hM).trans (Finset.card_insert_le _ _)
    rw [Finset.card_singleton] at h1
    omega
  · have hM : missing s i (touched off n) ⊆ N.image Slot.data := by
      intro τ hτ
      exact (hmiss τ hτ).resolve_right fun h => hind h.2
    have hidx : indexBlocks s i off n ⊆ {table (off / 512), table ((off + n - 1) / 512)} := by
      intro p hp
      obtain ⟨τ, hτ, hpar⟩ := mem_indexBlocks.1 hp
      obtain ⟨bn, hbn, rfl⟩ := Finset.mem_image.1 (hM hτ)
      rw [← hNdef] at hbn
      rw [(parent_data_eq hpar).2]
      rcases table_of_touched hmax (Finset.mem_filter.1 hbn).1 with e | e <;> simp [e]
    have h1 := (Finset.card_le_card hidx).trans Finset.card_le_two
    have h2 := Finset.card_le_card hM
    omega

end

/-- A file of 137 full blocks and a half one, in blocks 63 to 201, on a disk whose five free
blocks lie in three bitmap blocks. -/
def scattered : Fs where
  sb := mkfsSb
  disk b j :=
    if b = 58 then if j = 37 then 31 else 255
    else if b = 59 ∨ b = 60 then if j = 0 then 254 else 255
    else if b = 61 ∨ b = 62 then 255
    else if b = 74 ∧ j / 4 < 127 then (75 + j / 4) / 256 ^ (j % 4) % 256
    else 0
  inode i :=
    if i = 1 then ⟨2, 0, 0, 1, 70400, fun k => if k < 12 then 63 + k else 0⟩
    else ⟨2, 0, 0, 1, 0, fun _ => 0⟩
  log := []
  commits := []
  devsw _ := false
  input := []
  pipewrite _ := -1

theorem scattered_ind :
    ∀ k < 128, getWord (scattered.disk 74) k = if k < 127 then 75 + k else 0 := by
  decide +kernel

/-- Where the file's blocks are. -/
theorem scattered_ptr {v : Node} (h : scattered.ptr v ≠ 0) :
    (v = (1, .ind) ∧ scattered.ptr v = 74) ∨ ∃ bn, v = (1, .data bn) ∧ bn < 138 ∧
      scattered.ptr v = if bn < 11 then 63 + bn else 64 + bn := by
  obtain ⟨i, τ⟩ := v
  by_cases hi : i = 1
  · subst hi
    have haddr : ∀ k, (scattered.inode 1).addrs k = if k < 12 then 63 + k else 0 := fun _ => rfl
    cases τ with
    | data bn =>
      right
      simp only [Fs.ptr, haddr] at h ⊢
      by_cases h1 : bn < 11
      · refine ⟨bn, rfl, by omega, ?_⟩
        rw [if_pos h1, if_pos (by omega), if_pos h1]
      · rw [if_neg h1] at h ⊢
        by_cases h2 : bn < 139
        · rw [if_pos h2] at h ⊢
          have he : scattered.entry (if 11 < 12 then 63 + 11 else 0) (bn - 11) =
              if bn - 11 < 127 then 75 + (bn - 11) else 0 := scattered_ind _ (by omega)
          rw [he] at h ⊢
          have h3 : bn - 11 < 127 := by
            by_contra hge
            exact h (if_neg hge)
          refine ⟨bn, rfl, by omega, ?_⟩
          rw [if_pos h3, if_neg h1]
          omega
        · refine absurd ?_ h
          simp [h2, Fs.entry]
    | ind => exact .inl ⟨rfl, rfl⟩
    | dbl => exact absurd rfl h
    | dblE e =>
      refine absurd ?_ h
      simp [Fs.ptr, Fs.entry, haddr]
  · refine absurd (ptr_of_addrs ?_ τ) h
    intro k
    simp [scattered, hi]

theorem scattered_wellFormed : WellFormed scattered := by
  have hused : ∀ b < 202, scattered.used b = true := by decide +kernel
  have hrange : ∀ {v}, scattered.ptr v ≠ 0 → 63 ≤ scattered.ptr v ∧ scattered.ptr v < 202 := by
    intro v hv
    rcases scattered_ptr hv with ⟨-, e⟩ | ⟨bn, -, hbn, e⟩
    · omega
    · rw [e]
      by_cases h : bn < 11
      · rw [if_pos h]
        omega
      · rw [if_neg h]
        omega
  constructor
  · exact emptyDisk_wellFormed.layout.congr rfl
  · constructor
    · decide
    · intro b hb
      change b < 63 at hb
      exact hused b (by omega)
    · intro v hv
      have h1 : scattered.dataStart = 63 := rfl
      have h2 : scattered.sb.size = 20000 := rfl
      have := hrange hv
      omega
    · intro v hv
      exact hused _ (hrange hv).2
    · intro v w hv he
      have hw : scattered.ptr w ≠ 0 := by rwa [← he]
      rcases scattered_ptr hv with ⟨rfl, e⟩ | ⟨bn, rfl, hbn, e⟩
      · rcases scattered_ptr hw with ⟨rfl, -⟩ | ⟨bn', rfl, hbn', e'⟩
        · rfl
        · split_ifs at e' <;> omega
      · rcases scattered_ptr hw with ⟨rfl, e'⟩ | ⟨bn', rfl, hbn', e'⟩
        · split_ifs at e <;> omega
        · have : bn = bn' := by split_ifs at e e' <;> omega
          rw [this]

theorem scattered_used {x : ℕ} (hx : x < 20000) :
    scattered.used x = false ↔ x = 301 ∨ x = 302 ∨ x = 303 ∨ x = 4096 ∨ x = 8192 := by
  have h255 : ∀ k < 8, Nat.testBit 255 k = true := by decide
  have h31 : ∀ k < 8, Nat.testBit 31 k = decide (k < 5) := by decide
  have h254 : ∀ k < 8, Nat.testBit 254 k = decide (0 < k) := by decide
  have hk : x % 4096 % 8 < 8 := Nat.mod_lt _ (by decide)
  have e : scattered.used x = (scattered.disk (x / 4096 + 58) (x % 4096 / 8)).testBit
      (x % 4096 % 8) := if_pos hx
  rw [e]
  simp only [scattered]
  by_cases h0 : x / 4096 + 58 = 58
  · rw [if_pos h0]
    by_cases hj : x % 4096 / 8 = 37
    · rw [if_pos hj, h31 _ hk, decide_eq_false_iff_not]
      omega
    · rw [if_neg hj, h255 _ hk]
      simp only [Bool.true_eq_false, false_iff]
      omega
  · rw [if_neg h0]
    by_cases h1 : x / 4096 + 58 = 59 ∨ x / 4096 + 58 = 60
    · rw [if_pos h1]
      by_cases hj : x % 4096 / 8 = 0
      · rw [if_pos hj, h254 _ hk, decide_eq_false_iff_not]
        omega
      · rw [if_neg hj, h255 _ hk]
        simp only [Bool.true_eq_false, false_iff]
        omega
    · rw [if_neg h1, if_pos (by omega), h255 _ hk]
      simp only [Bool.true_eq_false, false_iff]
      omega

theorem scattered_free : scattered.freeBlocks = [301, 302, 303, 4096, 8192] := by
  apply freeList_eq (by decide)
  intro b
  simp only [List.mem_cons, List.not_mem_nil, or_false]
  constructor
  · intro hb
    have hlt : b < 20000 := by omega
    exact ⟨hlt, (scattered_used hlt).2 hb⟩
  · rintro ⟨hlt, hb⟩
    exact (scattered_used hlt).1 hb

theorem scattered_cost : chunkCost scattered 1 70400 1536 = 11 := by
  have h1 : (missing scattered 1 (touched 70400 1536)).card = 5 := by decide +kernel
  have h2 : (indexBlocks scattered 1 70400 1536).card = 3 := by decide +kernel
  have h3 : (bitmapBlocks scattered 1 70400 1536).card = 3 := by
    rw [bitmapBlocks, h1, scattered_free]
    decide
  rw [chunkCost, h2, h3, card_touched _ (by decide)]
  decide

/-- A `filewrite` whose only transaction logs eleven blocks. -/
theorem filewrite_overruns : WellFormed scattered ∧ ∃ t f' r,
    filewrite scattered ⟨.inode, true, 1, 70400⟩ (fun _ => 7) 1536 = some (t, f', r) ∧
      ¬ Reserved scattered t := by
  refine ⟨scattered_wellFormed, ?_⟩
  have hcard : (missing scattered 1 (touched 70400 1536)).card = 5 := by decide +kernel
  have hloop : ∃ t, writeLoop 1536 (beginOp scattered) 1 (fun _ => 7) 70400 1536 = some t := by
    apply (Trace.refl scattered_wellFormed.beginOp 1).writeLoop_exists le_rfl (by decide)
    rw [Finset.empty_union]
    show (missing scattered 1 (touched 70400 1536)).card ≤ scattered.freeBlocks.length
    rw [hcard, scattered_free]
    decide
  obtain ⟨t, ht⟩ := hloop
  have hw : writei (beginOp scattered) 1 (fun _ => 7) 70400 1536 =
      some (growSize t 1 (70400 + 1536) 1536, ((1536 : ℕ) : ℤ)) := by
    rw [writei_eq (by decide) (by decide) (by decide), ht]
    rfl
  have hc : writeChunks 1536 scattered 1 (fun _ => 7) 70400 1536 =
      some (endOp (growSize t 1 (70400 + 1536) 1536), 71936, 1536) := by
    rw [writeChunks, if_neg (by decide)]
    have hmin : min 1536 chunkMax = 1536 := rfl
    simp only [hmin]
    rw [hw]
    rfl
  refine ⟨endOp (growSize t 1 (70400 + 1536) 1536), ⟨.inode, true, 1, 71936⟩, 1536, ?_, ?_⟩
  · rw [filewrite, if_neg (by decide)]
    simp only []
    rw [show Int.toNat 1536 = 1536 from rfl, hc]
    rfl
  · intro hres
    obtain ⟨new, hnew, hiff⟩ :=
      writeChunks_reserved scattered_wellFormed (by decide) le_rfl hc
    rw [Reserved, hnew, List.drop_left, hiff, ChunksFit] at hres
    have hfit := (hres (by decide)).1 (by decide) (by decide) (by decide)
    rw [show min 1536 chunkMax = 1536 from rfl, scattered_cost] at hfit
    exact absurd hfit (by decide)

end BigFile
