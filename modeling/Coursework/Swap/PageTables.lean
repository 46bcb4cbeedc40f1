import Coursework.Swap.Core

/-! What each update of the page directories changes. -/
namespace Swap
namespace Kernel

variable {s : Kernel} {d v d' v' i t : ℕ} {e : Pte}

theorem dirs_setPte : (s.setPte d v e).dirs d' =
    if d' = d then (s.dirs d).map fun D => D.setPte v e else s.dirs d' := by
  rw [setPte]
  exact Function.update_apply ..

theorem walkpgdir_eq : s.walkpgdir d v =
    (s.dirs d).bind fun D => (D.table (v / 1024)).map fun _ => D.pte v := by
  cases h : s.dirs d with
  | none => rw [walkpgdir_of_none h]; rfl
  | some D => rw [walkpgdir_of_some h]; rfl

theorem walkpgdir_setPte : (s.setPte d v e).walkpgdir d' v' =
    if d' = d ∧ v' = v then (s.walkpgdir d v).map fun _ => e else s.walkpgdir d' v' := by
  rw [walkpgdir_eq, walkpgdir_eq, walkpgdir_eq, dirs_setPte]
  by_cases hd : d' = d
  · subst hd
    cases s.dirs d' with
    | none => simp
    | some D =>
      by_cases hv : v' = v
      · subst hv
        cases hT : D.table (v' / 1024) <;> simp [Dir.setPte, hT]
      · simp [Dir.setPte, hv]
  · simp [hd]

theorem look_setPte (h : (s.walkpgdir d v).isSome) : (s.setPte d v e).look d' v' =
    if d' = d ∧ v' = v then e else s.look d' v' := by
  rw [look, walkpgdir_setPte]
  obtain ⟨e', he⟩ := Option.isSome_iff_exists.1 h
  split
  · rw [he]; rfl
  · rfl

theorem look_setPte_self (h : (s.walkpgdir d v).isSome) : (s.setPte d v e).look d v = e := by
  rw [look_setPte h, if_pos ⟨rfl, rfl⟩]

theorem look_setPte_of_ne (h : ¬ (d' = d ∧ v' = v)) :
    (s.setPte d v e).look d' v' = s.look d' v' := by
  rw [look, walkpgdir_setPte, if_neg h, ← look]

theorem isSome_walkpgdir_setPte :
    ((s.setPte d v e).walkpgdir d' v').isSome = (s.walkpgdir d' v').isSome := by
  rw [walkpgdir_setPte]
  split
  case isTrue h => rw [h.1, h.2, Option.isSome_map]
  case isFalse => rfl

theorem dirs_isSome_setPte : ((s.setPte d v e).dirs d').isSome = (s.dirs d').isSome := by
  rw [dirs_setPte]
  split
  case isTrue h => rw [h, Option.isSome_map]
  case isFalse => rfl

theorem own_setPte (h : (s.walkpgdir d v).isSome) : (s.setPte d v e).own =
    Function.update s.own (.page d v) (if e.p then some e.pfn else none) := by
  funext o
  cases o with
  | dir d' => simp [own_dir, dirs_isSome_setPte]
  | table d' i =>
    rw [Function.update_of_ne (by simp), own, own, dirs_setPte]
    split
    case isTrue hd => rw [hd]; cases s.dirs d <;> rfl
    case isFalse => rfl
  | page d' v' =>
    rw [own_page, look_setPte h, Function.update_apply]
    simp only [Owner.page.injEq]
    split
    · rfl
    · rw [own_page]

theorem dirs_addTable : (s.addTable d i t).dirs d' =
    if d' = d then (s.dirs d).map fun D => D.addTable i t else s.dirs d' := by
  rw [addTable]
  exact Function.update_apply ..

theorem look_addTable {D : Dir} (hd : s.dirs d = some D) (hi : D.table i = none) :
    (s.addTable d i t).look d' v' = s.look d' v' := by
  rw [look, look, walkpgdir_eq, walkpgdir_eq, dirs_addTable]
  by_cases h : d' = d
  · subst h
    by_cases hv : v' / 1024 = i
    · subst hv
      simp [hd, Dir.addTable, hi]
    · simp [hd, Dir.addTable, hv]
  · simp [h]

theorem isSome_walkpgdir_addTable {D : Dir} (hd : s.dirs d = some D) (hv : v / 1024 = i) :
    ((s.addTable d i t).walkpgdir d v).isSome := by
  rw [walkpgdir_eq, dirs_addTable, if_pos rfl, hd]
  simp [Dir.addTable, hv]

theorem own_addTable {D : Dir} (hd : s.dirs d = some D) (hi : D.table i = none) :
    (s.addTable d i t).own = Function.update s.own (.table d i) (some t) := by
  funext o
  cases o with
  | dir d' =>
    rw [Function.update_of_ne (by simp), own_dir, own_dir, dirs_addTable]
    split
    case isTrue h => rw [h, Option.isSome_map]
    case isFalse => rfl
  | table d' j =>
    rw [Function.update_apply, own, own, dirs_addTable]
    by_cases h : d' = d
    · subst h
      by_cases hj : j = i
      · simp [hd, hj, Dir.addTable]
      · simp [hd, hj, Dir.addTable]
    · simp [h]
  | page d' v' =>
    rw [Function.update_of_ne (by simp), own_page, own_page, look_addTable hd hi]

theorem dirs_dropTable : (s.dropTable d i).dirs d' =
    if d' = d then (s.dirs d).map fun D => D.dropTable i else s.dirs d' := by
  rw [dropTable]
  exact Function.update_apply ..

theorem look_dropTable : (s.dropTable d i).look d' v' =
    if d' = d ∧ v' / 1024 = i then Pte.zero else s.look d' v' := by
  rw [look, look, walkpgdir_eq, walkpgdir_eq, dirs_dropTable]
  by_cases h : d' = d
  · subst h
    by_cases hv : v' / 1024 = i
    · cases s.dirs d' <;> simp [Dir.dropTable, hv]
    · cases s.dirs d' <;> simp [Dir.dropTable, hv]
  · simp [h]

/-- A page table without present pages dropped from its directory. -/
theorem own_dropTable (hp : ∀ v, v / 1024 = i → (s.look d v).p = false) :
    (s.dropTable d i).own = Function.update s.own (.table d i) none := by
  funext o
  cases o with
  | dir d' =>
    rw [Function.update_of_ne (by simp), own_dir, own_dir, dirs_dropTable]
    split
    case isTrue h => rw [h, Option.isSome_map]
    case isFalse => rfl
  | table d' j =>
    rw [Function.update_apply, own, own, dirs_dropTable]
    by_cases h : d' = d
    · subst h
      by_cases hj : j = i
      · cases s.dirs d' <;> simp [hj, Dir.dropTable]
      · cases s.dirs d' <;> simp [hj, Dir.dropTable]
    · simp [h]
  | page d' v' =>
    rw [Function.update_of_ne (by simp), own_page, own_page, look_dropTable]
    split
    case isTrue h => rw [h.1, hp v' h.2]; rfl
    case isFalse => rfl

theorem look_addDir (hd : s.dirs d = none) : (s.addDir d).look d' v' = s.look d' v' := by
  rw [look, look, walkpgdir_eq, walkpgdir_eq, addDir]
  by_cases h : d' = d
  · subst h
    simp [hd, Dir.empty]
  · simp [h]

theorem own_addDir (hd : s.dirs d = none) :
    (s.addDir d).own = Function.update s.own (.dir d) (some d) := by
  funext o
  cases o with
  | dir d' =>
    rw [Function.update_apply, own_dir, own_dir, addDir]
    by_cases h : d' = d
    · simp [h]
    · simp [h]
  | table d' j =>
    rw [Function.update_of_ne (by simp), own, own, addDir]
    by_cases h : d' = d
    · subst h
      simp [hd, Dir.empty]
    · simp [h]
  | page d' v' => rw [Function.update_of_ne (by simp), own_page, own_page, look_addDir hd]

theorem look_dropDir : (s.dropDir d).look d' v' = if d' = d then Pte.zero else s.look d' v' := by
  rw [look, look, walkpgdir_eq, walkpgdir_eq, dropDir]
  by_cases h : d' = d
  · simp [h]
  · simp [h]

/-- A directory without page tables dropped. -/
theorem own_dropDir {D : Dir} (hd : s.dirs d = some D) (ht : ∀ i, D.table i = none) :
    (s.dropDir d).own = Function.update s.own (.dir d) none := by
  have hw : ∀ v, s.walkpgdir d v = none := fun v => by rw [walkpgdir_of_some hd, ht]; rfl
  funext o
  cases o with
  | dir d' =>
    rw [Function.update_apply, own_dir, own_dir, dropDir]
    by_cases h : d' = d
    · simp [h]
    · simp [h]
  | table d' j =>
    rw [Function.update_of_ne (by simp), own, own, dropDir]
    by_cases h : d' = d
    · subst h
      simp [hd, ht]
    · simp [h]
  | page d' v' =>
    rw [Function.update_of_ne (by simp), own_page, own_page, look_dropDir]
    split
    case isTrue h => rw [h, look_of_not_walk (hw v')]
    case isFalse => rfl

end Kernel
end Swap
