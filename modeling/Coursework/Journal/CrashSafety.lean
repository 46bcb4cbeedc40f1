import Coursework.Journal.Log
import Coursework.Lib.Machine
import Mathlib.Data.List.GetD

/-! The transactions of the file system are atomic: a machine that crashes at any write to
the disk, the writes of a recovery included, behaves like a store that keeps a stable and a
current version of each block. -/
namespace Journal
open Program BigFile

/-- The blocks outside of the log whose numbers fit a word of the header. -/
def Area.Home (a : Area) (b : ℕ) : Prop :=
  b < 4294967296 ∧ (b < a.start ∨ a.start + a.size ≤ b)

variable {a : Area} {lh : List ℕ} {c c₀ : ℕ → Block}

/-- The store that the log implements: the version that survives a crash, the version that
the operations see, and the operations in progress. -/
structure Store where
  stable : ℕ → Block
  current : ℕ → Block
  ops : ℤ

/-- An operation waits or starts, changes a block, and ends; the last one to end makes the
current version stable. A crash falls back to the stable version, unless the last operation
was ending. -/
inductive Store.Step (t : Store) : Label → Store → Prop
  | wait : Store.Step t (.call .begin) t
  | start : Store.Step t (.call .begin) { t with ops := t.ops + 1 }
  | change {b d} (h : 1 ≤ t.ops) :
      Store.Step t (.call (.modify b d)) { t with current := Function.update t.current b d }
  | leave (h : t.ops ≠ 1) : Store.Step t (.call .finish) { t with ops := t.ops - 1 }
  | commit (h : t.ops = 1) : Store.Step t (.call .finish) ⟨t.current, t.current, 0⟩
  | lose (op : Call) : Store.Step t (.crash op) ⟨t.stable, t.stable, 0⟩
  | keep (h : t.ops = 1) : Store.Step t (.crash .finish) ⟨t.current, t.current, 0⟩

/-- The disk holds `c`, but for the blocks `lh`, whose contents are in the log. -/
structure Committed (a : Area) (lh : List ℕ) (c d : ℕ → Block) : Prop where
  head : getWord (d a.start) 0 = lh.length
  entry : ∀ i < lh.length, getWord (d a.start) (i + 1) = lh.getD i 0
  logged : ∀ i < lh.length, d (a.start + i + 1) = c (lh.getD i 0)
  home : ∀ b, a.Home b → b ∉ lh → d b = c b

/-- The blocks in the log are blocks outside of it, and there is room for them. -/
structure Fits (a : Area) (lh : List ℕ) : Prop where
  home : ∀ i < lh.length, a.Home (lh.getD i 0)
  room : lh.length < a.size
  bound : lh.length ≤ logsize

/-- A recovery ends with `c` on the disk. -/
def Recoverable (a : Area) (c d : ℕ → Block) : Prop :=
  ∃ lh, Fits a lh ∧ Committed a lh c d

/-- Between two calls. -/
structure Refines (a : Area) (s : Kernel) (t : Store) : Prop where
  ops : s.outstanding = t.ops
  idle : s.committing = false
  current : ∀ b, a.Home b → s.buf b = t.current b
  stable : Committed a [] t.stable s.disk
  fits : Fits a s.lh
  clean : ∀ b, a.Home b → b ∉ s.lh → t.current b = t.stable b

section Blocks

theorem Area.Home.ne_start {b : ℕ} (h : a.Home b) (ha : 0 < a.size) : b ≠ a.start := by
  have := h.2
  omega

theorem Area.Home.ne_log {b i : ℕ} (h : a.Home b) (hi : i + 1 < a.size) :
    b ≠ a.start + i + 1 := by
  have := h.2
  omega

theorem Fits.pos (h : Fits a lh) : 0 < a.size := Nat.zero_lt_of_lt h.room

theorem Fits.mem (h : Fits a lh) {b : ℕ} (hb : b ∈ lh) : a.Home b := by
  obtain ⟨i, hi, rfl⟩ := List.getElem_of_mem hb
  rw [← List.getD_eq_getElem lh 0 hi]
  exact h.home i hi

theorem getD_mem {i : ℕ} (hi : i < lh.length) : lh.getD i 0 ∈ lh := by
  rw [List.getD_eq_getElem lh 0 hi]
  exact List.getElem_mem hi

theorem foldl_putWord (d : Block) (j : ℕ) {k : ℕ} (h : ∀ i < k, lh.getD i 0 < 4294967296) :
    getWord ((List.range k).foldl (fun d i => putWord d (i + 1) (lh.getD i 0)) d) j =
      if 1 ≤ j ∧ j ≤ k then lh.getD (j - 1) 0 else getWord d j := by
  induction k with
  | zero => rw [if_neg (by omega)]; rfl
  | succ k ih =>
    rw [List.range_succ, List.foldl_append, List.foldl_cons, List.foldl_nil]
    by_cases hj : j = k + 1
    · subst hj
      rw [if_pos (by omega), Nat.add_sub_cancel, getWord_putWord_self _ _ (h k (by omega))]
    · have hiff : (1 ≤ j ∧ j ≤ k + 1) ↔ (1 ≤ j ∧ j ≤ k) := by omega
      rw [getWord_putWord_of_ne _ _ hj, ih fun i hi => h i (by omega)]
      simp only [hiff]

theorem putHead_zero (d : Block) (h : Fits a lh) :
    getWord (putHead lh d) 0 = lh.length := by
  have hb := h.bound
  unfold logsize maxopblocks at hb
  rw [putHead, foldl_putWord _ _ fun i hi => (h.home i hi).1, if_neg (by omega),
    getWord_putWord_self _ _ (by omega)]

theorem putHead_succ (d : Block) (h : Fits a lh) {i : ℕ} (hi : i < lh.length) :
    getWord (putHead lh d) (i + 1) = lh.getD i 0 := by
  rw [putHead, foldl_putWord _ _ fun i hi => (h.home i hi).1, if_pos (by omega),
    Nat.add_sub_cancel]

theorem fits_nil (ha : 0 < a.size) : Fits a [] :=
  ⟨fun _ hi => absurd hi (Nat.not_lt_zero _), ha, Nat.zero_le _⟩

end Blocks

section Phases
variable {s : Kernel} {G : Kernel → Prop}

/-- What the steps of a commit and of a recovery leave alone. -/
structure Frame (s s' : Kernel) : Prop where
  lh : s'.lh = s.lh
  outstanding : s'.outstanding = s.outstanding
  committing : s'.committing = s.committing

theorem Frame.refl : Frame s s := ⟨rfl, rfl, rfl⟩

theorem Frame.put {s₀ : Kernel} (h : Frame s₀ s) (b : ℕ) (data : Block) :
    Frame s₀ (s.put b data) := ⟨h.lh, h.outstanding, h.committing⟩

/-- While the blocks of the log are copied to where they belong: the blocks with the indices
`xs` are still to come. -/
structure Installing (a : Area) (c : ℕ → Block) (s₀ : Kernel) (xs : List ℕ) (s : Kernel) :
    Prop where
  frame : Frame s₀ s
  disk : Committed a s₀.lh c s.disk
  logged : ∀ i < s₀.lh.length, s.buf (a.start + i + 1) = c (s₀.lh.getD i 0)
  range : ∀ i ∈ xs, i < s₀.lh.length
  other : ∀ b, a.Home b → b ∉ s₀.lh → s.buf b = c b
  done : ∀ i < s₀.lh.length, i ∉ xs →
    s.buf (s₀.lh.getD i 0) = c (s₀.lh.getD i 0) ∧ s.disk (s₀.lh.getD i 0) = c (s₀.lh.getD i 0)

theorem Installing.step {s₀ : Kernel} {x b : ℕ} {xs : List ℕ} (hf : Fits a s₀.lh)
    (h : Installing a c s₀ (x :: xs) s) (hb : s.lh.getD x 0 = b) :
    Installing a c s₀ xs (s.put b (s.buf (a.start + x + 1))) := by
  have hx := h.range x List.mem_cons_self
  rw [h.frame.lh] at hb
  have hhome : a.Home b := hb ▸ hf.home x hx
  have hval : s.buf (a.start + x + 1) = c b := hb ▸ h.logged x hx
  have hstart := (hhome.ne_start hf.pos).symm
  have hlog : ∀ i < s₀.lh.length, a.start + i + 1 ≠ b := fun i hi =>
    (hhome.ne_log (Nat.lt_of_le_of_lt hi hf.room)).symm
  have hother : ∀ b', b' ∉ s₀.lh → b' ≠ b := fun b' hb' he => hb' (he ▸ hb ▸ getD_mem hx)
  refine ⟨h.frame.put .., ⟨?_, ?_, ?_, ?_⟩, ?_,
    fun i hi => h.range i (List.mem_cons_of_mem _ hi), ?_, ?_⟩
  · rw [put_disk_of_ne _ _ hstart, h.disk.head]
  · intro i hi
    rw [put_disk_of_ne _ _ hstart, h.disk.entry i hi]
  · intro i hi
    rw [put_disk_of_ne _ _ (hlog i hi), h.disk.logged i hi]
  · intro b' hb' hm
    rw [put_disk_of_ne _ _ (hother b' hm), h.disk.home b' hb' hm]
  · intro i hi
    rw [put_buf_of_ne _ _ (hlog i hi), h.logged i hi]
  · intro b' hb' hm
    rw [put_buf_of_ne _ _ (hother b' hm), h.other b' hb' hm]
  · intro i hi hm
    by_cases he : s₀.lh.getD i 0 = b
    · rw [he, put_buf_self, put_disk_self, hval]
      exact ⟨rfl, rfl⟩
    · have hix : i ∉ x :: xs := by
        intro hi'
        rcases List.mem_cons.1 hi' with rfl | hi'
        · exact he hb
        · exact hm hi'
      rw [put_buf_of_ne _ _ he, put_disk_of_ne _ _ he]
      exact h.done i hi hix

theorem installTrans_ensures (hf : Fits a s.lh) (hd : Committed a s.lh c s.disk)
    (hlog : ∀ i < s.lh.length, s.buf (a.start + i + 1) = c (s.lh.getD i 0))
    (hbuf : ∀ b, a.Home b → b ∉ s.lh → s.buf b = c b)
    (hG : ∀ s', Committed a s.lh c s'.disk → G s') :
    Ensures (fun _ => True) G (installTrans a) s
      (fun _ s' => Frame s s' ∧ Committed a s.lh c s'.disk ∧
        ∀ b, a.Home b → s'.buf b = c b ∧ s'.disk b = c b) fun _ _ => False := by
  apply Ensures.read_bind
  have h₀ : Installing a c s (List.range s.lh.length) s :=
    ⟨.refl, hd, hlog, fun i hi => List.mem_range.1 hi, hbuf,
      fun i hi hm => absurd (List.mem_range.2 hi) hm⟩
  refine Ensures.mono (Ensures.forM (I := Installing a c s) ?_ _ h₀) ?_ fun _ _ h => h
  · intro x xs s' h
    apply Ensures.read_bind
    have h' := h.step hf rfl
    exact Ensures.assign_of (hG _ h'.disk) h'
  · intro _ s' h
    refine ⟨h.frame, h.disk, fun b hb => ?_⟩
    by_cases hm : b ∈ s.lh
    · obtain ⟨i, hi, rfl⟩ := List.getElem_of_mem hm
      rw [← List.getD_eq_getElem s.lh 0 hi]
      exact h.done i hi List.not_mem_nil
    · exact ⟨h.other b hb hm, h.disk.home b hb hm⟩

theorem eraseHead_ensures (ha : 0 < a.size) (hl : s.lh = [])
    (hb : ∀ b, a.Home b → s.buf b = c b ∧ s.disk b = c b)
    (hG : ∀ s', Committed a [] c s'.disk → G s') :
    Ensures (fun _ => True) G (writeHead a) s
      (fun _ s' => Frame s s' ∧ Committed a [] c s'.disk ∧ ∀ b, a.Home b → s'.buf b = c b)
      fun _ _ => False := by
  apply Ensures.read_bind
  have hc : Committed a [] c (s.put a.start (putHead s.lh (s.buf a.start))).disk := by
    refine ⟨?_, fun _ hi => absurd hi (Nat.not_lt_zero _),
      fun _ hi => absurd hi (Nat.not_lt_zero _), fun b hb' _ => ?_⟩
    · rw [put_disk_self, hl, putHead_zero _ (fits_nil ha)]
    · rw [put_disk_of_ne _ _ (hb'.ne_start ha), (hb b hb').2]
  refine Ensures.assign_of (hG _ hc) ⟨Frame.refl.put .., hc, fun b hb' => ?_⟩
  rw [put_buf_of_ne _ _ (hb'.ne_start ha), (hb b hb').1]

theorem install_ensures (hf : Fits a s.lh) (hd : Committed a s.lh c s.disk)
    (hlog : ∀ i < s.lh.length, s.buf (a.start + i + 1) = c (s.lh.getD i 0))
    (hbuf : ∀ b, a.Home b → b ∉ s.lh → s.buf b = c b)
    (hG : ∀ s', Recoverable a c s'.disk → G s') :
    Ensures (fun _ => True) G (do
        installTrans a
        change fun s => { s with lh := [] }
        writeHead a) s
      (fun _ s' => s'.lh = [] ∧ s'.outstanding = s.outstanding ∧
        s'.committing = s.committing ∧ Committed a [] c s'.disk ∧ ∀ b, a.Home b → s'.buf b = c b)
      fun _ _ => False := by
  apply Ensures.bind (installTrans_ensures hf hd hlog hbuf fun s' h => hG s' ⟨_, hf, h⟩)
  rintro _ s' ⟨hs', -, hb⟩
  apply Ensures.change_bind
  refine Ensures.mono (eraseHead_ensures (s := { s' with lh := [] }) hf.pos rfl hb
    fun s' h => hG s' ⟨_, fits_nil hf.pos, h⟩) ?_ ?_
  · rintro _ s'' ⟨hs'', hc, hb'⟩
    exact ⟨hs''.lh, hs''.outstanding.trans hs'.outstanding,
      hs''.committing.trans hs'.committing, hc, hb'⟩
  · exact fun _ _ h => h

/-- While the blocks of the cache are copied to the log: the blocks with the indices `xs` are
still to come. -/
structure Logging (a : Area) (c₀ : ℕ → Block) (s₀ : Kernel) (xs : List ℕ) (s : Kernel) :
    Prop where
  frame : Frame s₀ s
  disk : Committed a [] c₀ s.disk
  range : ∀ i ∈ xs, i < s₀.lh.length
  buf : ∀ b, a.Home b → s.buf b = s₀.buf b
  done : ∀ i < s₀.lh.length, i ∉ xs →
    s.buf (a.start + i + 1) = s₀.buf (s₀.lh.getD i 0) ∧
      s.disk (a.start + i + 1) = s₀.buf (s₀.lh.getD i 0)

theorem Logging.step {s₀ : Kernel} {x : ℕ} {xs : List ℕ} (hf : Fits a s₀.lh)
    (h : Logging a c₀ s₀ (x :: xs) s) :
    Logging a c₀ s₀ xs (s.put (a.start + x + 1) (s.buf (s.lh.getD x 0))) := by
  have hx := h.range x List.mem_cons_self
  have hroom := hf.room
  have hval : s.buf (s.lh.getD x 0) = s₀.buf (s₀.lh.getD x 0) := by
    rw [h.frame.lh, h.buf _ (hf.home x hx)]
  have hhome : ∀ b, a.Home b → b ≠ a.start + x + 1 := fun b hb => hb.ne_log (by omega)
  refine ⟨h.frame.put .., ⟨?_, fun _ hi => absurd hi (Nat.not_lt_zero _),
    fun _ hi => absurd hi (Nat.not_lt_zero _), ?_⟩,
    fun i hi => h.range i (List.mem_cons_of_mem _ hi), ?_, ?_⟩
  · rw [put_disk_of_ne _ _ (by omega), h.disk.head]
  · intro b hb hm
    rw [put_disk_of_ne _ _ (hhome b hb), h.disk.home b hb hm]
  · intro b hb
    rw [put_buf_of_ne _ _ (hhome b hb), h.buf b hb]
  · intro i hi hm
    by_cases he : i = x
    · rw [he, put_buf_self, put_disk_self, hval]
      exact ⟨rfl, rfl⟩
    · rw [put_buf_of_ne _ _ (by omega), put_disk_of_ne _ _ (by omega)]
      refine h.done i hi fun hi' => ?_
      rcases List.mem_cons.1 hi' with rfl | hi'
      · exact he rfl
      · exact hm hi'

theorem writeLog_ensures (hf : Fits a s.lh) (hd : Committed a [] c₀ s.disk)
    (hG : ∀ s', Committed a [] c₀ s'.disk → G s') :
    Ensures (fun _ => True) G (writeLog a) s (fun _ => Logging a c₀ s []) fun _ _ => False := by
  apply Ensures.read_bind
  have h₀ : Logging a c₀ s (List.range s.lh.length) s :=
    ⟨.refl, hd, fun i hi => List.mem_range.1 hi, fun _ _ => rfl,
      fun i hi hm => absurd (List.mem_range.2 hi) hm⟩
  refine Ensures.forM (I := Logging a c₀ s) (fun x xs s' h => ?_) _ h₀
  apply Ensures.read_bind
  have h' := h.step hf
  exact Ensures.assign_of (hG _ h'.disk) h'

theorem writeHead_ensures {s₀ : Kernel} (hf : Fits a s₀.lh) (h : Logging a c₀ s₀ [] s)
    (hc : ∀ b, a.Home b → b ∉ s₀.lh → c₀ b = s₀.buf b)
    (hG : ∀ s', Committed a s₀.lh s₀.buf s'.disk → G s') :
    Ensures (fun _ => True) G (writeHead a) s
      (fun _ s' => Frame s₀ s' ∧ Committed a s₀.lh s₀.buf s'.disk ∧
        (∀ i < s₀.lh.length, s'.buf (a.start + i + 1) = s₀.buf (s₀.lh.getD i 0)) ∧
        ∀ b, a.Home b → s'.buf b = s₀.buf b)
      fun _ _ => False := by
  apply Ensures.read_bind
  rw [h.frame.lh]
  have hlog : ∀ i, a.start + i + 1 ≠ a.start := by omega
  have hcom : Committed a s₀.lh s₀.buf (s.put a.start (putHead s₀.lh (s.buf a.start))).disk := by
    refine ⟨?_, ?_, ?_, ?_⟩
    · rw [put_disk_self, putHead_zero _ hf]
    · intro i hi
      rw [put_disk_self, putHead_succ _ hf hi]
    · intro i hi
      rw [put_disk_of_ne _ _ (hlog i), (h.done i hi List.not_mem_nil).2]
    · intro b hb hm
      rw [put_disk_of_ne _ _ (hb.ne_start hf.pos), h.disk.home b hb List.not_mem_nil, hc b hb hm]
  refine Ensures.assign_of (hG _ hcom) ⟨h.frame.put .., hcom, fun i hi => ?_, fun b hb => ?_⟩
  · rw [put_buf_of_ne _ _ (hlog i), (h.done i hi List.not_mem_nil).1]
  · rw [put_buf_of_ne _ _ (hb.ne_start hf.pos), h.buf b hb]

/-- A commit makes the contents of the cache stable; a crash meanwhile keeps either those or
the old ones. -/
theorem commit_ensures (hf : Fits a s.lh) (hd : Committed a [] c₀ s.disk)
    (hc : ∀ b, a.Home b → b ∉ s.lh → c₀ b = s.buf b) :
    Ensures (fun _ => True) (fun s' => Recoverable a c₀ s'.disk ∨ Recoverable a s.buf s'.disk)
      (commit a) s
      (fun _ s' => s'.lh = [] ∧ s'.outstanding = s.outstanding ∧
        s'.committing = s.committing ∧ Committed a [] s.buf s'.disk ∧
        ∀ b, a.Home b → s'.buf b = s.buf b)
      fun _ _ => False := by
  apply Ensures.read_bind
  by_cases hl : 0 < s.lh.length
  · rw [if_pos hl]
    apply Ensures.bind (writeLog_ensures hf hd fun s' h => .inl ⟨_, fits_nil hf.pos, h⟩)
    intro _ s₁ h₁
    apply Ensures.bind (writeHead_ensures hf h₁ hc fun s' h => .inr ⟨_, hf, h⟩)
    rintro _ s₂ ⟨hs₂, hcom, hlog, hbuf⟩
    rw [← hs₂.lh] at hf hcom hlog
    rw [← hs₂.outstanding, ← hs₂.committing]
    exact install_ensures hf hcom hlog (fun b hb _ => hbuf b hb) fun s' h => .inr h
  · rw [if_neg hl]
    have hnil : s.lh = [] := List.eq_nil_of_length_eq_zero (by omega)
    rw [hnil] at hc
    refine Ensures.pure ⟨hnil, rfl, rfl, ⟨hd.head, fun _ hi => absurd hi (Nat.not_lt_zero _),
      fun _ hi => absurd hi (Nat.not_lt_zero _), fun b hb hm => ?_⟩, fun _ _ => rfl⟩
    rw [hd.home b hb hm, hc b hb hm]

/-- A recovery restores the contents that the log stands for; so does one that follows a
crash of it. -/
theorem recover_ensures (hd : Recoverable a c s.disk) :
    Ensures (fun _ => True) (fun s' => Recoverable a c s'.disk) (recoverFromLog a) s.booted
      (fun _ s' => Refines a s' ⟨c, c, 0⟩) fun _ _ => False := by
  obtain ⟨lh, hf, hcom⟩ := hd
  have hlh : (List.range (getWord (s.disk a.start) 0)).map
      (fun i => getWord (s.disk a.start) (i + 1)) = lh := by
    rw [hcom.head]
    refine List.ext_getElem (by simp) fun i hi hi' => ?_
    rw [List.getElem_map, List.getElem_range, hcom.entry i hi', List.getD_eq_getElem lh 0 hi']
  apply Ensures.change_bind
  change Ensures _ _ _ { s.booted with
    lh := (List.range (getWord (s.disk a.start) 0)).map (fun i =>
      getWord (s.disk a.start) (i + 1)) } _ _
  rw [hlh]
  refine Ensures.mono (install_ensures (s := { s.booted with lh := lh }) hf hcom hcom.logged
    (fun b hb hm => hcom.home b hb hm) fun _ h => h) ?_ fun _ _ h => h
  rintro _ s' ⟨hl, ho, hm, hd, hb⟩
  exact ⟨ho, hm, hb, hd, hl ▸ fits_nil hf.pos, fun _ _ _ => rfl⟩

end Phases

section Calls
variable {s : Kernel} {t : Store}

theorem Recoverable.mono {d : ℕ → Block} (h : Recoverable a c d) {c' : ℕ → Block}
    (hc : ∀ b, a.Home b → c b = c' b) : Recoverable a c' d := by
  obtain ⟨lh, hf, hcom⟩ := h
  refine ⟨lh, hf, hcom.head, hcom.entry, fun i hi => ?_, fun b hb hm => ?_⟩
  · rw [hcom.logged i hi, hc _ (hf.home i hi)]
  · rw [hcom.home b hb hm, hc b hb]

theorem Refines.recoverable (h : Refines a s t) : Recoverable a t.stable s.disk :=
  ⟨[], fits_nil h.fits.pos, h.stable⟩

theorem begin_ensures (s : Kernel) :
    Ensures (fun _ => True) (fun _ => False) (exec a .begin) s
      (fun _ s' => s' = s ∨ s' = { s with outstanding := s.outstanding + 1 })
      fun _ _ => False := by
  refine Ensures.bind (Q := fun _ s' => s' = s ∨ s' = { s with outstanding := s.outstanding + 1 })
    (Ensures.read_bind ?_) fun _ _ h => Ensures.pure h
  by_cases hc : s.committing
  · rw [if_pos hc]
    exact Ensures.pure (.inl rfl)
  rw [if_neg hc]
  by_cases hl : (logsize : ℤ) < s.lh.length + (s.outstanding + 1) * maxopblocks
  · rw [if_pos hl]
    exact Ensures.pure (.inl rfl)
  · rw [if_neg hl]
    exact Ensures.change_bind (Ensures.pure (.inr rfl))

/-- The state after `log_write` of a changed block. -/
def Kernel.logged (s : Kernel) (b : ℕ) (data : Block) : Kernel :=
  { s with buf := Function.update s.buf b data, lh := if b ∈ s.lh then s.lh else s.lh ++ [b] }

theorem modify_ensures (s : Kernel) (b : ℕ) (data : Block) :
    Ensures (fun _ => True) (fun _ => False) (exec a (.modify b data)) s
      (fun _ s' => (s.lh.length < logsize ∧ s.lh.length + 1 < a.size ∧ 1 ≤ s.outstanding) ∧
        s' = s.logged b data) fun _ _ => True := by
  refine Ensures.change_bind (Ensures.read_bind ?_)
  by_cases hl : logsize ≤ s.lh.length ∨ a.size ≤ s.lh.length + 1
  · rw [if_pos hl]
    exact Ensures.stop trivial
  rw [if_neg hl]
  by_cases ho : s.outstanding < 1
  · rw [if_pos ho]
    exact Ensures.stop trivial
  · rw [if_neg ho]
    exact Ensures.change ⟨⟨by omega, by omega, by omega⟩, rfl⟩

theorem Refines.logged (h : Refines a s t) {b : ℕ} (data : Block) (hb : a.Home b)
    (hl : s.lh.length < logsize) (hr : s.lh.length + 1 < a.size) :
    Refines a (s.logged b data) { t with current := Function.update t.current b data } := by
  have hmem : ∀ b', b' ∈ (s.logged b data).lh ↔ b' ∈ s.lh ∨ b' = b := by
    intro b'
    by_cases hm : b ∈ s.lh <;> simp [Kernel.logged, hm]
    rintro rfl
    exact hm
  have hlen : (s.logged b data).lh.length ≤ s.lh.length + 1 := by
    by_cases hm : b ∈ s.lh <;> simp [Kernel.logged, hm]
  refine ⟨h.ops, h.idle, fun b' hb' => ?_, h.stable, ⟨fun i hi => ?_, by omega, by omega⟩,
    fun b' hb' hm => ?_⟩
  · change Function.update s.buf b data b' = Function.update t.current b data b'
    by_cases he : b' = b
    · rw [he, Function.update_self, Function.update_self]
    · rw [Function.update_of_ne he, Function.update_of_ne he, h.current b' hb']
  · rcases (hmem _).1 (getD_mem hi) with hm | he
    · exact h.fits.mem hm
    · rwa [he]
  · have hm' := mt (hmem b').2 hm
    change Function.update t.current b data b' = t.stable b'
    rw [Function.update_of_ne fun he => hm' (.inr he), h.clean b' hb' fun hi => hm' (.inl hi)]

theorem finish_ensures (h : Refines a s t) :
    Ensures (fun _ => True)
      (fun s' => Recoverable a t.stable s'.disk ∨ t.ops = 1 ∧ Recoverable a t.current s'.disk)
      (exec a .finish) s
      (fun _ s' => Refines a s'
        (if t.ops = 1 then ⟨t.current, t.current, 0⟩ else { t with ops := t.ops - 1 }))
      fun _ _ => False := by
  refine Ensures.change_bind (Ensures.read_bind ?_)
  change Ensures _ _ (if s.committing then _ else _) _ _ _
  rw [if_neg (by rw [h.idle]; exact Bool.false_ne_true)]
  have hops := h.ops
  by_cases ho : s.outstanding - 1 = 0
  · have h1 : t.ops = 1 := by omega
    rw [if_pos ho, if_pos h1]
    apply Ensures.change_bind
    refine Ensures.bind (Ensures.mono_events (commit_ensures
      (s := { s with outstanding := s.outstanding - 1, committing := true }) h.fits h.stable
      fun b hb hm => ?_) fun s' hs' => ?_) ?_
    · rw [← h.clean b hb hm, h.current b hb]
    · exact hs'.imp id fun hs' => ⟨h1, hs'.mono h.current⟩
    · rintro _ s' ⟨hl, ho', hm', hd, hb⟩
      refine Ensures.change ⟨ho'.trans ho, rfl, fun b hb' => ?_, ?_, ?_, fun _ _ _ => rfl⟩
      · exact (hb b hb').trans (h.current b hb')
      · refine ⟨hd.head, fun _ hi => absurd hi (Nat.not_lt_zero _),
          fun _ hi => absurd hi (Nat.not_lt_zero _), fun b hb' hm => ?_⟩
        exact (hd.home b hb' hm).trans (h.current b hb')
      · exact hl ▸ fits_nil h.fits.pos
  · rw [if_neg ho, if_neg (by omega)]
    exact Ensures.pure ⟨by simp only [h.ops], h.idle, h.current, h.stable, h.fits, h.clean⟩

theorem Reboots.refines {w s' : Kernel} (h : Reboots a w s') (hw : Recoverable a c w.disk) :
    Refines a s' ⟨c, c, 0⟩ := by
  induction h with
  | done h => exact (recover_ensures hw).of_ok h
  | again hm _ ih =>
    apply ih
    rcases List.mem_cons.1 hm with rfl | hm
    · exact hw
    · exact (recover_ensures hw fun _ _ => trivial).1 _ hm

end Calls

/-- The call changes no block of the log. -/
def Call.Home (a : Area) : Call → Prop
  | .modify b _ => a.Home b
  | _ => True

def Label.Home (a : Area) : Label → Prop
  | .call op => op.Home a
  | .crash op => op.Home a

theorem Refines.step {s s' : Kernel} {t : Store} {l : Label} (h : Refines a s t)
    (hl : l.Home a) (hs : Step a s l s') : ∃ t', t.Step l t' ∧ Refines a s' t' := by
  cases hs with
  | @call op _ hr =>
    cases op with
    | begin =>
      rcases (begin_ensures s).of_ok hr with rfl | rfl
      · exact ⟨t, .wait, h⟩
      · exact ⟨_, .start, by rw [← h.ops], h.idle, h.current, h.stable, h.fits, h.clean⟩
    | modify b data =>
      obtain ⟨⟨hlog, hroom, ho⟩, rfl⟩ := (modify_ensures s b data).of_ok hr
      exact ⟨_, .change (h.ops ▸ ho), h.logged data hl hlog hroom⟩
    | finish =>
      have he := (finish_ensures h).of_ok hr
      by_cases ho : t.ops = 1
      · rw [if_pos ho] at he
        exact ⟨_, .commit ho, he⟩
      · rw [if_neg ho] at he
        exact ⟨_, .leave ho, he⟩
  | @crash op w _ hw hr =>
    have hlose : Recoverable a t.stable w.disk → ∃ t', t.Step (.crash op) t' ∧ Refines a s' t' :=
      fun hd => ⟨_, .lose op, hr.refines hd⟩
    rcases List.mem_cons.1 hw with rfl | hw
    · exact hlose h.recoverable
    cases op with
    | begin => exact ((begin_ensures s fun _ _ => trivial).1 w hw).elim
    | modify b data => exact ((modify_ensures s b data fun _ _ => trivial).1 w hw).elim
    | finish =>
      rcases (finish_ensures h fun _ _ => trivial).1 w hw with hd | ⟨ho, hd⟩
      · exact hlose hd
      · exact ⟨_, .keep ho, hr.refines hd⟩

/-- Every run of the calls, with a crash in any of them and in the recoveries that follow, is
a run of the store, on whatever disk the machine was booted from. -/
theorem crash_atomic {w s₀ s : Kernel} {ls : List Label} (hw : Recoverable a c w.disk)
    (h₀ : Reboots a w s₀) (h : Transitions.Run (Step a) s₀ ls s) (hls : ∀ l ∈ ls, l.Home a) :
    ∃ t, Transitions.Run Store.Step ⟨c, c, 0⟩ ls t ∧ Refines a s t :=
  h.simulation (fun _ _ _ _ hR hl hs => hR.step hl hs) (h₀.refines hw) hls

/-- The power fails after the write of the header, just before the block is installed: the
recovery installs it. -/
theorem crash_atomic_commit :
    ∃ t, Transitions.Run Store.Step ⟨fun _ _ => 0, fun _ _ => 0, 0⟩
      [.call .begin, .call (.modify 40 fun _ => 7), .crash .finish] t ∧ t.stable 40 0 = 7 := by
  let a : Area := ⟨2, 31⟩
  let s₀ : Kernel := ⟨0, false, [], fun _ _ => 0, fun _ _ => 0⟩
  let s₁ : Kernel := s₀.put 2 (putHead [] (s₀.buf 2))
  let s₂ : Kernel := { s₁ with outstanding := 1 }
  let s₃ : Kernel := s₂.logged 40 fun _ => 7
  let w₁ : Kernel := { s₃ with outstanding := 0, committing := true }.put 3 (s₃.buf 40)
  let w₂ : Kernel := w₁.put 2 (putHead [40] (w₁.buf 2))
  let w₃ : Kernel := w₂.booted.put 40 (w₂.disk 3)
  have hw : Recoverable a (fun _ _ => 0) s₀.disk :=
    ⟨[], fits_nil (by decide), rfl, fun _ hi => absurd hi (Nat.not_lt_zero _),
      fun _ hi => absurd hi (Nat.not_lt_zero _), fun _ _ _ => rfl⟩
  have h₀ : Reboots a s₀ s₁ := .done rfl
  have h₁ : Step a s₁ (.call .begin) s₂ := .call rfl
  have h₂ : Step a s₂ (.call (.modify 40 fun _ => 7)) s₃ := .call rfl
  have h₃ : w₂ ∈ s₃ :: (exec a .finish s₃).events := by
    exact .tail _ (.tail _ (.head _))
  have h₄ : Reboots a w₂ (w₃.put 2 (putHead [] (w₃.buf 2))) := .done rfl
  obtain ⟨t, ht, hR⟩ := crash_atomic hw h₀ (((Transitions.Run.nil.snoc h₁).snoc h₂).snoc
    (.crash h₃ h₄)) (by simp [Label.Home, Call.Home, Area.Home, a])
  have h40 := hR.stable.home 40 (by simp [Area.Home, a]) List.not_mem_nil
  exact ⟨t, ht, h40 ▸ rfl⟩

end Journal
