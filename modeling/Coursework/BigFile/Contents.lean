import Coursework.BigFile.Loops

/-! The files as sequences of bytes, and what `readi` and `writei` do to them. -/
namespace BigFile
open BlockTree

/-- A file: its size and its bytes. -/
structure Contents where
  size : ℕ
  byte : ℕ → ℕ

/-- The file after `n` bytes of `src` have been written at `off`. -/
def Contents.put (c : Contents) (off n : ℕ) (src : ℕ → ℕ) : Contents where
  size := max c.size (off + n)
  byte p := if off ≤ p ∧ p < off + n then src (p - off) else c.byte p

/-- At most `n` bytes from `off` on. -/
def Contents.get (c : Contents) (off n : ℕ) : List ℕ :=
  (List.range (min n (c.size - off))).map fun k => c.byte (off + k)

theorem Contents.put_zero (c : Contents) {off : ℕ} (h : off ≤ c.size) (src : ℕ → ℕ) :
    c.put off 0 src = c := by
  cases c with
  | mk size byte =>
    have hmax : max size off = size := max_eq_left h
    have hnone : ∀ p, ¬ (off ≤ p ∧ p < off) := by
      intro p
      omega
    simp [Contents.put, hmax, hnone]

theorem Contents.put_put (c : Contents) {off m n : ℕ} (h : m ≤ n) (src : ℕ → ℕ) :
    (c.put off m src).put (off + m) (n - m) (fun k => src (m + k)) = c.put off n src := by
  unfold Contents.put
  rw [Contents.mk.injEq]
  constructor
  · show max (max c.size (off + m)) (off + m + (n - m)) = max c.size (off + n)
    omega
  · funext p
    show (if off + m ≤ p ∧ p < off + m + (n - m) then src (m + (p - (off + m)))
      else if off ≤ p ∧ p < off + m then src (p - off) else c.byte p) =
      if off ≤ p ∧ p < off + n then src (p - off) else c.byte p
    by_cases h1 : off + m ≤ p ∧ p < off + m + (n - m)
    · have e : m + (p - (off + m)) = p - off := by omega
      rw [if_pos h1, if_pos (by omega), e]
    · rw [if_neg h1]
      by_cases h2 : off ≤ p ∧ p < off + m
      · rw [if_pos h2, if_pos (by omega)]
      · rw [if_neg h2, if_neg (by omega)]

/-- The data blocks hold the bytes of the files. -/
def Stored (s : Fs) (F : ℕ → Contents) : Prop :=
  ∀ i p, p < (F i).size → s.ptr (i, .data (p / 512)) ≠ 0 ∧
    s.disk (s.ptr (i, .data (p / 512))) (p % 512) = (F i).byte p

section
variable {s t : Fs} {F : ℕ → Contents} {i : ℕ} {src : ℕ → ℕ} {fuel off n : ℕ}

theorem Stored.trace (h : Stored s F) {M : Finset Slot} (ht : Trace s t i M ∅) :
    Stored t F := by
  intro j p hp
  obtain ⟨h1, h2⟩ := h j p hp
  rw [ht.keeps h1, ht.disk h1 fun _ => Finset.notMem_empty _]
  exact ⟨h1, h2⟩

/-- A store of `m` bytes into the block of `off`. -/
theorem Stored.putData (h : Stored s F) (hs : WellFormed s) {m : ℕ}
    (h0 : s.ptr (i, .data (off / 512)) ≠ 0) (hm : m ≤ 512 - off % 512)
    (hoff : off ≤ (F i).size) :
    Stored (s.putData (s.ptr (i, .data (off / 512)))
        (putBytes (s.disk (s.ptr (i, .data (off / 512)))) (off % 512) m src))
      (Function.update F i ((F i).put off m src)) := by
  intro j p hp
  rw [ptr_putData hs]
  have hself : (s.putData (s.ptr (i, .data (off / 512)))
      (putBytes (s.disk (s.ptr (i, .data (off / 512)))) (off % 512) m src)).disk
        (s.ptr (i, .data (off / 512))) =
      putBytes (s.disk (s.ptr (i, .data (off / 512)))) (off % 512) m src :=
    Function.update_self _ _ _
  have hother : ∀ {v : Node}, s.ptr v ≠ 0 → v ≠ (i, .data (off / 512)) →
      (s.putData (s.ptr (i, .data (off / 512)))
        (putBytes (s.disk (s.ptr (i, .data (off / 512)))) (off % 512) m src)).disk (s.ptr v) =
      s.disk (s.ptr v) := fun hv hne => Function.update_of_ne (hs.ptr_ne hv hne) _ _
  by_cases hj : j = i
  · subst hj
    rw [Function.update_self] at hp ⊢
    change p < max (F j).size (off + m) at hp
    show _ ∧ _ = if off ≤ p ∧ p < off + m then src (p - off) else (F j).byte p
    by_cases hin : off ≤ p ∧ p < off + m
    · have hblk : p / 512 = off / 512 := by omega
      rw [if_pos hin, hblk, hself]
      refine ⟨h0, ?_⟩
      unfold putBytes
      rw [if_pos (by omega)]
      congr 1
      omega
    · have hlt : p < (F j).size := by omega
      obtain ⟨h1, h2⟩ := h j p hlt
      rw [if_neg hin]
      refine ⟨h1, ?_⟩
      by_cases hblk : p / 512 = off / 512
      · rw [hblk, hself]
        unfold putBytes
        rw [if_neg (by omega), ← hblk]
        exact h2
      · rw [hother h1 fun e => hblk (by simpa using e)]
        exact h2
  · rw [Function.update_of_ne hj] at hp ⊢
    obtain ⟨h1, h2⟩ := h j p hp
    rw [hother h1 fun e => hj (by simpa using congrArg Prod.fst e)]
    exact ⟨h1, h2⟩

/-- The loop of `writei` stores its bytes, round by round. -/
theorem writeLoop_stored (hs : WellFormed s) (h : Stored s F) (hn : n ≤ fuel)
    (hend : off + n ≤ 8459776) (hoff : off ≤ (F i).size)
    (he : writeLoop fuel s i src off n = some t) :
    Stored t (Function.update F i ((F i).put off n src)) := by
  induction fuel generalizing s F src off n with
  | zero =>
    have h0 : n = 0 := by omega
    subst h0
    rw [writeLoop, Option.some.injEq] at he
    rwa [Contents.put_zero _ hoff, Function.update_eq_self, ← he]
  | succ fuel ih =>
    rw [writeLoop] at he
    by_cases h0 : n = 0
    · subst h0
      rw [if_pos rfl, Option.some.injEq] at he
      rwa [Contents.put_zero _ hoff, Function.update_eq_self, ← he]
    · rw [if_neg h0] at he
      obtain ⟨⟨s₁, b⟩, hb, he⟩ := Option.bind_eq_some_iff.1 he
      obtain ⟨ht, hptr, hne⟩ := (Trace.refl hs i).bmap_step (block_lt h0 hend) hb
      subst hptr
      replace he : writeLoop fuel (s₁.putData (s₁.ptr (i, .data (off / 512)))
          (putBytes (s₁.disk (s₁.ptr (i, .data (off / 512)))) (off % 512)
            (min n (512 - off % 512)) src)) i
          (fun k => src (min n (512 - off % 512) + k))
          (off + min n (512 - off % 512)) (n - min n (512 - off % 512)) = some t := he
      generalize hm : min n (512 - off % 512) = m at he
      have hm' : m ≤ 512 - off % 512 := by omega
      have h₁ : Stored _ (Function.update F i ((F i).put off m src)) :=
        (h.trace ht).putData ht.wf hne hm' hoff
      have hw := ht.wf.putData hne (putBytes (s₁.disk (s₁.ptr (i, .data (off / 512))))
        (off % 512) m src)
      have hsize : off + m ≤ (Function.update F i ((F i).put off m src) i).size := by
        rw [Function.update_self]
        exact le_max_right _ _
      have h₂ := ih hw h₁ (by omega) (by omega) hsize he
      rwa [Function.update_self, Contents.put_put _ (by omega), Function.update_idem] at h₂

/-- The loop of `readi` finds every block assigned. -/
theorem readLoop_stored (h : Stored s F) (hn : n ≤ fuel) (hend : off + n ≤ (F i).size) :
    readLoop fuel s i off n = some (s, (List.range n).map fun k => (F i).byte (off + k)) := by
  induction fuel generalizing off n with
  | zero =>
    rw [readLoop, show n = 0 by omega]
    rfl
  | succ fuel ih =>
    rw [readLoop]
    by_cases h0 : n = 0
    · rw [if_pos h0, h0]
      rfl
    · rw [if_neg h0]
      have hptr := (h i off (by omega)).1
      have hm : min n (512 - off % 512) ≤ n := min_le_left _ _
      have hfuel : n - min n (512 - off % 512) ≤ fuel := by omega
      have hend' : off + min n (512 - off % 512) + (n - min n (512 - off % 512)) ≤
          (F i).size := by omega
      have hrest := ih hfuel hend'
      have hsplit : List.range n = List.range (min n (512 - off % 512)) ++
          (List.range (n - min n (512 - off % 512))).map (min n (512 - off % 512) + ·) := by
        rw [← List.range_add, Nat.add_sub_cancel' hm]
      have hfirst : (List.range (min n (512 - off % 512))).map
            (fun k => s.disk (s.ptr (i, .data (off / 512))) (off % 512 + k)) =
          (List.range (min n (512 - off % 512))).map fun k => (F i).byte (off + k) := by
        apply List.map_congr_left
        intro k hk
        rw [List.mem_range] at hk
        have hbyte := (h i (off + k) (by omega)).2
        rw [show (off + k) / 512 = off / 512 by omega,
          show (off + k) % 512 = off % 512 + k by omega] at hbyte
        exact hbyte
      rw [show off / bsize = off / 512 from rfl, bmap_of_ne hptr]
      show (readLoop fuel s i (off + min n (512 - off % 512))
        (n - min n (512 - off % 512))).bind _ = _
      rw [hrest, Option.bind_some, hsplit, List.map_append, List.map_map]
      show some (s, (List.range (min n (512 - off % 512))).map
        (fun k => s.disk (s.ptr (i, .data (off / 512))) (off % 512 + k)) ++ _) = _
      rw [hfirst]
      simp only [Function.comp_def, Nat.add_assoc]

end

theorem readi_stored {s : Fs} {F : ℕ → Contents} {i off n : ℕ} (h : Stored s F)
    (htype : (s.inode i).type ≠ tDev) (hsize : (s.inode i).size = (F i).size)
    (hoff : off ≤ (F i).size) (hn : off + n < 4294967296) :
    readi s i off n = some (s, (((F i).get off n).length : ℤ), (F i).get off n) := by
  have hadd : uadd off n = off + n := Nat.mod_eq_of_lt hn
  have hlen : (if (s.inode i).size < off + n then (s.inode i).size - off else n) =
      min n ((F i).size - off) := by
    rw [hsize]
    by_cases hlt : (F i).size < off + n
    · rw [if_pos hlt]
      omega
    · rw [if_neg hlt]
      omega
  unfold readi
  simp only [hadd]
  rw [if_neg htype, if_neg (by omega), hlen, readLoop_stored h le_rfl (by omega)]
  simp [Contents.get]

theorem writei_eq {s : Fs} {i off n : ℕ} {src : ℕ → ℕ} (htype : (s.inode i).type ≠ tDev)
    (hoff : off ≤ (s.inode i).size) (hend : off + n ≤ 8459776) :
    writei s i src off n =
      (writeLoop n s i src off n).map fun t => (growSize t i (off + n) n, (n : ℤ)) := by
  have hadd : uadd off n = off + n := Nat.mod_eq_of_lt (by omega)
  have c : maxfile * bsize = 8459776 := rfl
  unfold writei
  simp only [hadd, c]
  rw [if_neg htype, if_neg (by omega), if_neg (by omega)]
  cases writeLoop n s i src off n <;> rfl

end BigFile
