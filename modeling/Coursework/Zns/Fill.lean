import Coursework.Zns.Layout

/-! The loops of the simulator store sectors one after the other at the write pointer of a
zone. -/
namespace Zns
open Nand

variable (g : Geometry)

/-- Sectors stored at the write pointer of a zone. -/
def fill (s : Dev) (zone : ℕ) (vs : List Word) : Dev :=
  vs.foldl (fun s v => putSector g s zone (s.wp zone % 8) v) s

variable {g} {s : Dev} {zone zone' i : ℕ} {v : Word} {vs : List Word}

@[simp] theorem fill_nil : fill g s zone [] = s := rfl

@[simp] theorem fill_cons : fill g s zone (v :: vs) =
    fill g (putSector g s zone (s.wp zone % 8) v) zone vs := rfl

theorem fill_append (vs' : List Word) :
    fill g s zone (vs ++ vs') = fill g (fill g s zone vs) zone vs' := List.foldl_append

/-! What `putSector` does to the fields outside the NAND and the buffers. -/

@[simp] theorem putSector_wp :
    (putSector g s zone i v).wp = Function.update s.wp zone (s.wp zone + 1) := by
  unfold putSector bufferFlush
  dsimp only
  split_ifs <;> rfl

@[simp] theorem putSector_z2Fbg : (putSector g s zone i v).z2Fbg = s.z2Fbg := by
  unfold putSector bufferFlush
  dsimp only
  split_ifs <;> rfl

@[simp] theorem putSector_z2LogFbg : (putSector g s zone i v).z2LogFbg = s.z2LogFbg := by
  unfold putSector bufferFlush
  dsimp only
  split_ifs <;> rfl

@[simp] theorem putSector_queue : (putSector g s zone i v).queue = s.queue := by
  unfold putSector bufferFlush
  dsimp only
  split_ifs <;> rfl

@[simp] theorem putSector_validMap : (putSector g s zone i v).validMap = s.validMap := by
  unfold putSector bufferFlush
  dsimp only
  split_ifs <;> rfl

theorem end_mod_eight (zone : ℕ) : (g.slba zone + g.zoneSize) % 8 = 0 := by
  rw [Geometry.add_mod_eight, Geometry.zoneSize_eq, Nat.mul_mod_left]

theorem putSector_control : (putSector g s zone i v).state =
      (if s.wp zone + 1 = g.slba zone + g.zoneSize then Function.update s.state zone .full
        else s.state) ∧
    (putSector g s zone i v).openZoneCnt =
      if s.wp zone + 1 = g.slba zone + g.zoneSize then s.openZoneCnt - 1 else s.openZoneCnt := by
  have hend := end_mod_eight (g := g) zone
  unfold putSector bufferFlush
  simp only [Function.update_self]
  by_cases hfull : s.wp zone + 1 = g.slba zone + g.zoneSize
  · simp only [if_pos hfull, if_pos (by omega : (s.wp zone + 1) % 8 = 0), and_self]
  · simp only [if_neg hfull]
    split <;> exact ⟨rfl, rfl⟩

theorem putSector_state : (putSector g s zone i v).state =
    if s.wp zone + 1 = g.slba zone + g.zoneSize then Function.update s.state zone .full
    else s.state := putSector_control.1

theorem putSector_openZoneCnt : (putSector g s zone i v).openZoneCnt =
    if s.wp zone + 1 = g.slba zone + g.zoneSize then s.openZoneCnt - 1 else s.openZoneCnt :=
  putSector_control.2

@[simp] theorem fill_wp :
    (fill g s zone vs).wp = Function.update s.wp zone (s.wp zone + vs.length) := by
  induction vs generalizing s with
  | nil => exact (Function.update_eq_self zone s.wp).symm
  | cons v vs ih =>
    rw [fill_cons, ih, putSector_wp, Function.update_idem, Function.update_self,
      List.length_cons]
    congr 1
    omega

@[simp] theorem fill_z2Fbg : (fill g s zone vs).z2Fbg = s.z2Fbg := by
  induction vs generalizing s with
  | nil => rfl
  | cons v vs ih => rw [fill_cons, ih, putSector_z2Fbg]

@[simp] theorem fill_z2LogFbg : (fill g s zone vs).z2LogFbg = s.z2LogFbg := by
  induction vs generalizing s with
  | nil => rfl
  | cons v vs ih => rw [fill_cons, ih, putSector_z2LogFbg]

@[simp] theorem fill_validMap : (fill g s zone vs).validMap = s.validMap := by
  induction vs generalizing s with
  | nil => rfl
  | cons v vs ih => rw [fill_cons, ih, putSector_validMap]

/-! The loops are fills. -/

theorem writeData_eq {lba : ℕ} (h : lba = s.wp zone) (data : List Word) :
    writeData g s zone lba data = fill g s zone data := by
  induction data generalizing s lba with
  | nil => rfl
  | cons v data ih =>
    rw [writeData, fill_cons, h]
    refine ih ?_
    rw [putSector_wp, Function.update_self]

theorem copyOff_eq (fbg : ℤ) (n : ℕ) (tmp : ℕ → Word) (s : Dev) :
    ∃ vs, copyOff g zone fbg n tmp s = fill g s zone vs ∧ vs.length ≤ n ∧
      ∀ j < vs.length, s.validMap zone ((s.wp zone + j) % g.zoneSize) = 1 := by
  induction n generalizing tmp s with
  | zero => exact ⟨[], rfl, le_rfl, fun j hj => absurd hj (Nat.not_lt_zero j)⟩
  | succ n ih =>
    rw [copyOff]
    split_ifs with hv
    · obtain ⟨vs, he, hle, hvalid⟩ := ih (readPage g s (g.zoneToFcg zone) fbg (s.wp zone) tmp)
        (putSector g s zone (s.wp zone % 8)
          (readPage g s (g.zoneToFcg zone) fbg (s.wp zone) tmp (s.wp zone % 8)))
      refine ⟨_ :: vs, he, Nat.succ_le_succ hle, fun j hj => ?_⟩
      cases j with
      | zero => exact hv
      | succ j =>
        have hnext := hvalid j (Nat.lt_of_succ_lt_succ hj)
        rw [putSector_validMap, putSector_wp, Function.update_self] at hnext
        rwa [Nat.add_right_comm, Nat.add_assoc] at hnext
    · exact ⟨[], rfl, Nat.zero_le _, fun j hj => absurd hj (Nat.not_lt_zero j)⟩

theorem writeTlOpen_cases (s : Dev) (tmp : ℕ → Word) (zone lba : ℕ) (data : List Word) :
    writeTlOpen g s tmp zone lba data = (-1, s) ∨
    lba = s.wp zone ∧ (∀ i < data.length, s.validMap zone ((lba + i) % g.zoneSize) ≠ 1) ∧
      writeTlOpen g s tmp zone lba data =
        (0, copyOff g zone (s.z2Fbg zone) (g.slba zone + g.zoneSize - (s.wp zone + data.length)) tmp
          (fill g s zone data)) := by
  unfold writeTlOpen
  by_cases hne : lba = s.wp zone
  · rw [if_neg (not_not.2 hne)]
    by_cases hany : ((List.range data.length).any fun i =>
        s.validMap zone ((lba + i) % g.zoneSize) == 1) = true
    · exact .inl (if_pos hany)
    · refine .inr ⟨hne, fun i hi he => hany ?_, ?_⟩
      · exact List.any_eq_true.2 ⟨i, List.mem_range.2 hi, by rw [beq_iff_eq, he]⟩
      · dsimp only
        rw [if_neg hany, writeData_eq hne, fill_wp, Function.update_self]
  · exact .inl (if_pos hne)

theorem copySectors_eq (src fcg : ℕ) (fbg : ℤ) (list : List ℕ) (tmp : ℕ → Word) (s : Dev) :
    ∃ vs, copySectors g src zone fcg fbg list tmp s = fill g s zone vs ∧
      vs.length = list.length := by
  induction list generalizing tmp s with
  | nil => exact ⟨[], rfl, rfl⟩
  | cons c list ih =>
    obtain ⟨vs, he, hlen⟩ := ih (readPage g s fcg fbg (src * g.zoneSize + c) tmp)
      (putSector g s zone (s.wp zone % 8)
        (readPage g s fcg fbg (src * g.zoneSize + c) tmp (c % 8)))
    exact ⟨_ :: vs, he, congrArg (· + 1) hlen⟩

/-- The loop of `zns_tl_open` stops at the first sector that is not valid. -/
theorem copyValid_eq {srcFbg : ℤ} {n i m : ℕ} (hm : i ≤ m ∧ m < i + n)
    (h0 : s.validMap zone m = 0) (hvalid : ∀ j, i ≤ j → j < m → s.validMap zone j ≠ 0)
    (hwp : s.wp zone = g.slba zone + i) (hsize : m < g.zoneSize) (hopen : s.state zone ≠ .full)
    (tmp : ℕ → Word) :
    ∃ vs, copyValid g zone srcFbg n i tmp s = fill g s zone vs ∧ vs.length = m - i := by
  induction n generalizing i tmp s with
  | zero => omega
  | succ n ih =>
    rw [copyValid]
    by_cases hi : i = m
    · subst hi
      exact ⟨[], if_pos h0, (Nat.sub_self i).symm⟩
    · rw [if_neg (hvalid i le_rfl (by omega))]
      dsimp only
      generalize readPage g s (g.zoneToFcg zone) srcFbg (zone * g.zoneSize + i) tmp = page
      have hstate : (putSector g s zone (s.wp zone % 8) (page (i % 8))).state = s.state := by
        rw [putSector_state, if_neg (by omega)]
      rw [hstate, if_neg fun hc => hopen hc.2]
      obtain ⟨vs, he, hlen⟩ := @ih (putSector g s zone (s.wp zone % 8) (page (i % 8))) (i + 1)
        (by omega) (by rwa [putSector_validMap])
        (fun j h1 h2 => by
          rw [putSector_validMap]
          exact hvalid j (by omega) h2)
        (by
          rw [putSector_wp, Function.update_self]
          omega)
        (by rwa [hstate]) page
      exact ⟨_ :: vs, he, by rw [List.length_cons]; omega⟩

end Zns
