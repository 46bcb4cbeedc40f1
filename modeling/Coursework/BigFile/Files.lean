import Coursework.BigFile.Contents
import Mathlib.Algebra.BigOperators.Group.Finset.Basic
import Mathlib.Algebra.Order.BigOperators.Group.Finset

/-! Runs of `readi` and `writei` on several inodes: they behave as reads and writes of
sequences of bytes, and the block map never shares or moves a block. -/
namespace BigFile
open BlockTree

inductive Op where
  | read (i off n : ℕ)
  | write (i off n : ℕ) (src : ℕ → ℕ)

namespace Op

def inum : Op → ℕ
  | read i _ _ => i
  | write i _ _ _ => i

/-- The offset lies in the file and the end within the largest file. -/
def Admitted (F : ℕ → Contents) : Op → Prop
  | read i off n => off ≤ (F i).size ∧ off + n ≤ maxfile * bsize
  | write i off n _ => off ≤ (F i).size ∧ off + n ≤ maxfile * bsize

/-- The files after an operation. -/
def files (F : ℕ → Contents) : Op → ℕ → Contents
  | read _ _ _ => F
  | write i off n src => Function.update F i ((F i).put off n src)

/-- What an operation returns: its result and the bytes read. -/
def out (F : ℕ → Contents) : Op → ℤ × List ℕ
  | read i off n => (((F i).get off n).length, (F i).get off n)
  | write _ _ n _ => (n, [])

end Op

def exec (s : Fs) : Op → Option (Fs × ℤ × List ℕ)
  | .read i off n => readi s i off n
  | .write i off n src => (writei s i src off n).map fun r => (r.1, r.2, [])

def execAll : Fs → List Op → Option (Fs × List (ℤ × List ℕ))
  | s, [] => some (s, [])
  | s, op :: ops => do
    let (s, r) ← exec s op
    let (s, rs) ← execAll s ops
    some (s, r :: rs)

/-- The files, the results and the admitted runs of the sequences of bytes. -/
def filesAll (F : ℕ → Contents) (ops : List Op) : ℕ → Contents := ops.foldl Op.files F

def outAll : (ℕ → Contents) → List Op → List (ℤ × List ℕ)
  | _, [] => []
  | F, op :: ops => op.out F :: outAll (op.files F) ops

def AdmittedAll : (ℕ → Contents) → List Op → Prop
  | _, [] => True
  | F, op :: ops => op.Admitted F ∧ AdmittedAll (op.files F) ops

theorem size_le_files (F : ℕ → Contents) (op : Op) (i : ℕ) :
    (F i).size ≤ (op.files F i).size := by
  cases op with
  | read j off n => exact le_rfl
  | write j off n src =>
    show _ ≤ (Function.update F j ((F j).put off n src) i).size
    by_cases e : i = j
    · rw [e, Function.update_self]
      exact le_max_left _ _
    · rw [Function.update_of_ne e]

theorem size_le_filesAll (F : ℕ → Contents) (ops : List Op) (i : ℕ) :
    (F i).size ≤ (filesAll F ops i).size := by
  induction ops generalizing F with
  | nil => exact le_rfl
  | cons op ops ih => exact (size_le_files F op i).trans (ih _)

theorem admittedAll_append {F : ℕ → Contents} {ops ops' : List Op} :
    AdmittedAll F (ops ++ ops') ↔ AdmittedAll F ops ∧ AdmittedAll (filesAll F ops) ops' := by
  induction ops generalizing F with
  | nil => simp [AdmittedAll, filesAll]
  | cons op ops ih =>
    rw [List.cons_append, AdmittedAll, AdmittedAll, ih, and_assoc]
    rfl

/-- The blocks of a file of `d` data blocks, its index blocks included. -/
def need (d : ℕ) : ℕ :=
  d + (if 11 < d then 1 else 0) + (if 139 < d then 1 + (d - 139 + 127) / 128 else 0)

theorem card_missing_le (s : Fs) (i d : ℕ) : (missing s i (Finset.range d)).card ≤ need d := by
  have hsub : missing s i (Finset.range d) ⊆
      ((Finset.range d).image Slot.data ∪ (if 11 < d then {Slot.ind} else ∅)) ∪
        (if 139 < d then insert .dbl ((Finset.range ((d - 139 + 127) / 128)).image Slot.dblE)
          else ∅) := by
    intro τ hτ
    obtain ⟨⟨bn, hbn, hp⟩, -⟩ := mem_missing.1 hτ
    rw [Finset.mem_range] at hbn
    unfold path at hp
    by_cases h1 : bn < 11
    · rw [if_pos h1, List.mem_singleton] at hp
      simp [hp, hbn]
    · rw [if_neg h1] at hp
      have hd : 11 < d := by omega
      by_cases h2 : bn < 139
      · rw [if_pos h2, List.mem_cons, List.mem_singleton] at hp
        rcases hp with rfl | rfl
        · simp [hd]
        · simp [hbn]
      · rw [if_neg h2, List.mem_cons, List.mem_cons, List.mem_singleton] at hp
        have hd' : 139 < d := by omega
        rcases hp with rfl | rfl | rfl
        · simp [hd']
        · simp only [if_pos hd', Finset.mem_union, Finset.mem_insert, Finset.mem_image,
            Finset.mem_range]
          exact .inr (.inr ⟨_, by omega, rfl⟩)
        · simp [hbn]
  have hind : (if 11 < d then {Slot.ind} else (∅ : Finset Slot)).card ≤
      if 11 < d then 1 else 0 := by
    by_cases h : 11 < d <;> simp [h]
  have hdbl : (if 139 < d then insert Slot.dbl
      ((Finset.range ((d - 139 + 127) / 128)).image Slot.dblE) else ∅).card ≤
      if 139 < d then 1 + (d - 139 + 127) / 128 else 0 := by
    by_cases h : 139 < d
    · rw [if_pos h, if_pos h]
      have h1 := Finset.card_insert_le Slot.dbl
        ((Finset.range ((d - 139 + 127) / 128)).image Slot.dblE)
      have h2 := Finset.card_image_le (f := Slot.dblE) (s := Finset.range ((d - 139 + 127) / 128))
      rw [Finset.card_range] at h2
      omega
    · simp [h]
  have hdata := Finset.card_image_le (f := Slot.data) (s := Finset.range d)
  rw [Finset.card_range] at hdata
  calc (missing s i (Finset.range d)).card
      ≤ _ := Finset.card_le_card hsub
    _ ≤ _ + _ := Finset.card_union_le _ _
    _ ≤ (_ + _) + _ := Nat.add_le_add_right (Finset.card_union_le _ _) _
    _ ≤ (d + _) + _ := by gcongr

/-- The state of the files `I`, which are to grow to at most `D i` blocks. -/
structure Sim (I : Finset ℕ) (D : ℕ → ℕ) (s : Fs) (F : ℕ → Contents) : Prop where
  wf : WellFormed s
  stored : Stored s F
  inum : ∀ i ∈ I, i < s.sb.ninodes
  type : ∀ i ∈ I, (s.inode i).type ≠ tDev
  size : ∀ i ∈ I, (s.inode i).size = (F i).size
  budget : ∑ i ∈ I, (missing s i (Finset.range (D i))).card ≤ s.freeBlocks.length

section
variable {I : Finset ℕ} {D : ℕ → ℕ} {s t : Fs} {F : ℕ → Contents} {i : ℕ}

theorem missing_congr {s t : Fs} (h : t.ptr = s.ptr) (i : ℕ) (B : Finset ℕ) :
    missing t i B = missing s i B := by
  unfold missing
  rw [h]

theorem missing_trace {M : Finset Slot} {W : Finset ℕ} (h : Trace s t i M W) (B : Finset ℕ) :
    missing t i B = missing s i B \ M := by
  ext τ
  rw [Finset.mem_sdiff, mem_missing, mem_missing]
  constructor
  · rintro ⟨hB, h0⟩
    exact ⟨⟨hB, h.was_zero h0⟩, h.not_mem h0⟩
  · rintro ⟨⟨hB, h0⟩, hM⟩
    refine ⟨hB, ?_⟩
    by_contra hne
    exact hM (h.mem_of_filled h0 hne)

theorem missing_trace_of_ne {M : Finset Slot} {W : Finset ℕ} (h : Trace s t i M W) {j : ℕ}
    (hj : j ≠ i) (B : Finset ℕ) : missing t j B = missing s j B := by
  unfold missing
  congr 1
  funext τ
  rw [h.same]
  intro τ' _ e
  exact hj (congrArg Prod.fst e)

theorem budget_trace (hb : ∑ j ∈ I, (missing s j (Finset.range (D j))).card ≤
      s.freeBlocks.length) (hi : i ∈ I) {M : Finset Slot} {W : Finset ℕ} (h : Trace s t i M W)
    (hM : M ⊆ missing s i (Finset.range (D i))) :
    ∑ j ∈ I, (missing t j (Finset.range (D j))).card ≤ t.freeBlocks.length := by
  have e1 := Finset.add_sum_erase I (fun j => (missing s j (Finset.range (D j))).card) hi
  have e2 := Finset.add_sum_erase I (fun j => (missing t j (Finset.range (D j))).card) hi
  have e3 : ∑ j ∈ I.erase i, (missing t j (Finset.range (D j))).card =
      ∑ j ∈ I.erase i, (missing s j (Finset.range (D j))).card := by
    apply Finset.sum_congr rfl
    intro j hj
    rw [missing_trace_of_ne h (Finset.ne_of_mem_erase hj)]
  have e4 := Finset.card_sdiff_add_card_eq_card hM
  rw [← missing_trace h] at e4
  rw [h.free, List.length_drop]
  omega

/-- A write inside its bounds succeeds, and writes its bytes. -/
theorem Sim.write (h : Sim I D s F) (hi : i ∈ I) {off n : ℕ} (hoff : off ≤ (F i).size)
    (hend : off + n ≤ 8459776) (hD : off + n ≤ D i * 512) (src : ℕ → ℕ) :
    ∃ t, writei s i src off n = some (t, (n : ℤ)) ∧
      Sim I D t (Function.update F i ((F i).put off n src)) ∧
      ∀ v, s.ptr v ≠ 0 → t.ptr v = s.ptr v := by
  have hsz := h.size i hi
  rw [writei_eq (h.type i hi) (by omega) hend]
  have hM : missing s i (touched off n) ⊆ missing s i (Finset.range (D i)) := by
    apply missing_mono
    intro bn hbn
    have := mem_touched.1 hbn
    rw [Finset.mem_range]
    omega
  have hone : (missing s i (Finset.range (D i))).card ≤
      ∑ j ∈ I, (missing s j (Finset.range (D j))).card :=
    Finset.single_le_sum (f := fun j => (missing s j (Finset.range (D j))).card)
      (fun _ _ => Nat.zero_le _) hi
  have hcard := Finset.card_le_card hM
  have hfree : (∅ ∪ missing s i (touched off n)).card ≤ s.freeBlocks.length := by
    rw [Finset.empty_union]
    have := h.budget
    omega
  have hex : ∃ t, writeLoop n s i src off n = some t :=
    (Trace.refl h.wf i).writeLoop_exists le_rfl hend hfree
  obtain ⟨t, ht⟩ := hex
  have htr := (Trace.refl h.wf i).writeLoop le_rfl hend ht
  rw [Finset.empty_union, Finset.empty_union] at htr
  have hst := writeLoop_stored h.wf h.stored le_rfl hend hoff ht
  have hbud := budget_trace h.budget hi htr hM
  have hsizes : ∀ j, j ≠ i → (Function.update F i ((F i).put off n src) j).size = (F j).size := by
    intro j hj
    rw [Function.update_of_ne hj]
  have hsizei : (Function.update F i ((F i).put off n src) i).size =
      max (F i).size (off + n) := by
    rw [Function.update_self]
    rfl
  rw [ht, Option.map_some]
  refine ⟨_, rfl, ?_⟩
  unfold growSize
  rw [htr.size, hsz]
  by_cases hgrow : 0 < n ∧ (F i).size < off + n
  · rw [if_pos hgrow]
    have hi' : i < t.sb.ninodes := by
      rw [htr.sb]
      exact h.inum i hi
    have hg := iupdate_grown htr.wf hi' (off + n)
    generalize iupdate (t.setInode i ((t.inode i).setSize (off + n))) i = t' at hg
    constructor
    · constructor
      · exact hg.wf
      · intro j p hp
        obtain ⟨h1, h2⟩ := hst j p hp
        rw [hg.ptr, hg.disk h1]
        exact ⟨h1, h2⟩
      · intro j hj
        rw [hg.sb, htr.sb]
        exact h.inum j hj
      · intro j hj
        rw [hg.type, htr.type]
        exact h.type j hj
      · intro j hj
        by_cases e : j = i
        · rw [e, hg.size_self, hsizei]
          omega
        · rw [hg.size_of_ne e, htr.size, hsizes j e]
          exact h.size j hj
      · rw [hg.free]
        simp only [missing_congr hg.ptr]
        exact hbud
    · intro v hv
      rw [hg.ptr, htr.keeps hv]
  · rw [if_neg hgrow]
    constructor
    · constructor
      · exact htr.wf
      · exact hst
      · intro j hj
        rw [htr.sb]
        exact h.inum j hj
      · intro j hj
        rw [htr.type]
        exact h.type j hj
      · intro j hj
        rw [htr.size, h.size j hj]
        by_cases e : j = i
        · rw [e, hsizei]
          omega
        · rw [hsizes j e]
      · exact hbud
    · intro v hv
      exact htr.keeps hv

theorem Sim.step (h : Sim I D s F) {op : Op} (hi : op.inum ∈ I) (ha : op.Admitted F)
    (hD : ∀ j, (op.files F j).size ≤ D j * 512) :
    ∃ t, exec s op = some (t, op.out F) ∧ Sim I D t (op.files F) ∧
      ∀ v, s.ptr v ≠ 0 → t.ptr v = s.ptr v := by
  have c : maxfile * bsize = 8459776 := rfl
  cases op with
  | read i off n =>
    obtain ⟨hoff, hend⟩ := ha
    refine ⟨s, ?_, h, fun v _ => rfl⟩
    exact readi_stored h.stored (h.type i hi) (h.size i hi) hoff (by omega)
  | write i off n src =>
    replace hi : i ∈ I := hi
    obtain ⟨hoff, hend⟩ := ha
    have hDi := hD i
    change (Function.update F i ((F i).put off n src) i).size ≤ _ at hDi
    rw [Function.update_self] at hDi
    have hle : off + n ≤ D i * 512 := (le_max_right _ _).trans hDi
    obtain ⟨t, ht, hsim, hkeep⟩ := h.write hi hoff (by omega) hle src
    refine ⟨t, ?_, hsim, hkeep⟩
    show (writei s i src off n).map _ = _
    rw [ht]
    rfl

theorem Sim.run (h : Sim I D s F) {ops : List Op} (hI : ∀ op ∈ ops, op.inum ∈ I)
    (ha : AdmittedAll F ops) (hD : ∀ j, (filesAll F ops j).size ≤ D j * 512) :
    ∃ t, execAll s ops = some (t, outAll F ops) ∧ Sim I D t (filesAll F ops) ∧
      ∀ v, s.ptr v ≠ 0 → t.ptr v = s.ptr v := by
  induction ops generalizing s F with
  | nil => exact ⟨s, rfl, h, fun v _ => rfl⟩
  | cons op ops ih =>
    have hD' : ∀ j, (op.files F j).size ≤ D j * 512 :=
      fun j => (size_le_filesAll (op.files F) ops j).trans (hD j)
    obtain ⟨t₁, he₁, hs₁, hk₁⟩ := h.step (hI op List.mem_cons_self) ha.1 hD'
    obtain ⟨t, he, hs, hk⟩ := ih hs₁ (fun o ho => hI o (List.mem_cons_of_mem _ ho)) ha.2 hD
    refine ⟨t, ?_, hs, ?_⟩
    · rw [execAll, he₁]
      show (execAll t₁ ops).bind _ = _
      rw [he]
      rfl
    · intro v hv
      have e := hk₁ v hv
      rw [hk v (by rwa [e]), e]

end

end BigFile
