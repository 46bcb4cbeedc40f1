import Coursework.Mmap.Calls

/-! What the page-level operations leave alone: the heap size and the table of regions. -/
namespace Mmap

/-- The second state has the heap size and the region table of the first. -/
structure Quiet (s s' : Sys) : Prop where
  sz : s'.proc.sz = s.proc.sz
  mmSz : s'.proc.mmSz = s.proc.mmSz
  mmArr : s'.proc.mmArr = s.proc.mmArr

theorem Quiet.refl (s : Sys) : Quiet s s := ⟨rfl, rfl, rfl⟩

theorem Quiet.trans {s t u : Sys} (h : Quiet s t) (h' : Quiet t u) : Quiet s u :=
  ⟨h'.sz.trans h.sz, h'.mmSz.trans h.mmSz, h'.mmArr.trans h.mmArr⟩

theorem kalloc_quiet (s : Sys) : Quiet s (kalloc s).2 := by
  unfold kalloc
  cases s.freelist <;> exact ⟨rfl, rfl, rfl⟩

theorem kalloc_eq_some {s s' : Sys} {f : Option ℕ} (h : kalloc s = (f, s')) : Quiet s s' := by
  have hq := kalloc_quiet s
  rw [h] at hq
  exact hq

theorem kfree_quiet {s s' : Sys} {f : ℕ} (h : kfree s f = some s') : Quiet s s' := by
  simp only [kfree] at h
  split_ifs at h
  obtain rfl := Option.some.inj h
  exact ⟨rfl, rfl, rfl⟩

theorem ensureTable_quiet {s s' : Sys} {va : ℕ} {ok : Bool}
    (h : ensureTable s va = (ok, s')) : Quiet s s' := by
  unfold ensureTable at h
  cases ht : s.proc.table (pdx va) with
  | some t =>
    simp only [ht, Prod.mk.injEq] at h
    obtain ⟨-, rfl⟩ := h
    exact Quiet.refl s
  | none =>
    cases hk : kalloc s with
    | mk f s₁ =>
      have hq := kalloc_eq_some hk
      cases f with
      | none =>
        simp only [ht, hk, Prod.mk.injEq] at h
        obtain ⟨-, rfl⟩ := h
        exact hq
      | some t =>
        simp only [ht, hk, Prod.mk.injEq] at h
        obtain ⟨-, rfl⟩ := h
        exact ⟨hq.sz, hq.mmSz, hq.mmArr⟩

theorem mappages_quiet {s s' : Sys} {va frame : ℕ} {w : Bool} {r : ℤ}
    (h : mappages s va frame w = some (r, s')) : Quiet s s' := by
  unfold mappages at h
  cases he : ensureTable s va with
  | mk ok s₁ =>
    have hq := ensureTable_quiet he
    cases ok with
    | false =>
      simp only [he, Option.some.injEq, Prod.mk.injEq] at h
      obtain ⟨-, rfl⟩ := h
      exact hq
    | true =>
      simp only [he] at h
      split_ifs at h
      simp only [Option.some.injEq, Prod.mk.injEq] at h
      obtain ⟨-, rfl⟩ := h
      exact ⟨hq.sz, hq.mmSz, hq.mmArr⟩

theorem setFileOff_eq_some {s s' : Sys} {v : ℕ} {f : Option ℕ}
    (h : s.setFileOff v f = some s') :
    ∃ file mem, s' = { s with file := file, mem := mem } := by
  cases f with
  | some f =>
    obtain rfl := Option.some.inj h
    exact ⟨_, s.mem, rfl⟩
  | none =>
    simp only [Sys.setFileOff] at h
    cases hw : s.proc.walkpgdir 20 with
    | none => simp [hw] at h
    | some e =>
      simp only [hw] at h
      split_ifs at h
      obtain rfl := Option.some.inj h
      exact ⟨s.file, _, rfl⟩

theorem setFileOff_proc {s s' : Sys} {v : ℕ} {f : Option ℕ}
    (h : s.setFileOff v f = some s') : s'.proc = s.proc := by
  obtain ⟨file, mem, rfl⟩ := setFileOff_eq_some h
  rfl

theorem setFileOff_freelist {s s' : Sys} {v : ℕ} {f : Option ℕ}
    (h : s.setFileOff v f = some s') : s'.freelist = s.freelist := by
  obtain ⟨file, mem, rfl⟩ := setFileOff_eq_some h
  rfl

theorem setFileOff_quiet {s s' : Sys} {v : ℕ} {f : Option ℕ}
    (h : s.setFileOff v f = some s') : Quiet s s' := by
  obtain ⟨file, mem, rfl⟩ := setFileOff_eq_some h
  exact ⟨rfl, rfl, rfl⟩

theorem readi_quiet (s : Sys) (ip frame off n : ℕ) : Quiet s (readi s ip frame off n).2 := by
  simp only [readi]
  split_ifs <;> exact ⟨rfl, rfl, rfl⟩

theorem fileread_quiet {s s' : Sys} {f frame n : ℕ} {r : ℤ}
    (h : fileread s f frame n = some (r, s')) : Quiet s s' := by
  simp only [fileread] at h
  by_cases hr : (s.file f).readable = false
  · simp only [hr, if_true, Option.some.injEq, Prod.mk.injEq] at h
    exact h.2 ▸ Quiet.refl s
  · simp only [if_neg hr] at h
    cases ht : (s.file f).type with
    | none => simp [ht] at h
    | pipe =>
      simp only [ht, Option.some.injEq] at h
      have hq : Quiet s (s.deliver frame n).2 := ⟨rfl, rfl, rfl⟩
      rw [h] at hq
      exact hq
    | inode =>
      have hq := readi_quiet s (s.file f).ip frame (s.file f).off n
      simp only [ht] at h
      split_ifs at h <;>
      · simp only [Option.some.injEq, Prod.mk.injEq] at h
        obtain ⟨-, rfl⟩ := h
        exact ⟨hq.sz, hq.mmSz, hq.mmArr⟩

theorem fillPage_quiet {s s' : Sys} {fd : ℤ} {f : Option ℕ} {m : ℕ}
    (h : fillPage s fd f m = some s') : Quiet s s' := by
  simp only [fillPage] at h
  split_ifs at h
  · exact Option.some.inj h ▸ ⟨rfl, rfl, rfl⟩
  · cases f with
    | none => simp at h
    | some f =>
      obtain ⟨⟨r, s₁⟩, hf, rfl⟩ := Option.map_eq_some_iff.1 h
      have hq := fileread_quiet hf
      exact ⟨hq.sz, hq.mmSz, hq.mmArr⟩

theorem eagerPages_quiet {fd : ℤ} {flags : ℕ} {f : Option ℕ} {vs : List ℕ} {s s' : Sys}
    {ok : Bool} (h : eagerPages fd flags f vs s = some (ok, s')) : Quiet s s' := by
  induction vs generalizing s with
  | nil =>
    simp only [eagerPages, Option.some.injEq, Prod.mk.injEq] at h
    exact h.2 ▸ Quiet.refl s
  | cons v vs ih =>
    simp only [eagerPages] at h
    cases hk : kalloc s with
    | mk m s₁ =>
      have hq := kalloc_eq_some hk
      cases m with
      | none =>
        simp only [hk, Option.some.injEq, Prod.mk.injEq] at h
        exact h.2 ▸ hq
      | some m =>
        simp only [hk] at h
        obtain ⟨s₂, h₂, h⟩ := Option.bind_eq_some_iff.1 h
        obtain ⟨⟨r, s₃⟩, h₃, h⟩ := Option.bind_eq_some_iff.1 h
        exact hq.trans ((fillPage_quiet h₂).trans ((mappages_quiet h₃).trans (ih h)))

theorem unmapPages_quiet {vs : List ℕ} {s s' : Sys} {ok : Bool}
    (h : unmapPages vs s = some (ok, s')) : Quiet s s' := by
  induction vs generalizing s with
  | nil =>
    simp only [unmapPages, Option.some.injEq, Prod.mk.injEq] at h
    exact h.2 ▸ Quiet.refl s
  | cons v vs ih =>
    simp only [unmapPages] at h
    cases hw : s.proc.walkpgdir (v * pgSize) with
    | none =>
      simp only [hw, Option.some.injEq, Prod.mk.injEq] at h
      exact h.2 ▸ Quiet.refl s
    | some e =>
      simp only [hw] at h
      split_ifs at h
      · obtain ⟨s₁, hk, h⟩ := Option.bind_eq_some_iff.1 h
        exact (kfree_quiet hk).trans (ih h)
      · simp only [Option.some.injEq, Prod.mk.injEq] at h
        exact h.2 ▸ Quiet.refl s

theorem dropPage_quiet {s s' : Sys} {v : ℕ} (h : dropPage s v = some s') : Quiet s s' := by
  unfold dropPage at h
  cases ht : s.proc.table (v / 1024) with
  | none =>
    simp only [ht, Option.some.injEq] at h
    exact h ▸ Quiet.refl s
  | some t =>
    simp only [ht] at h
    split_ifs at h with hp hf
    · obtain ⟨s₁, hk, h⟩ := Option.bind_eq_some_iff.1 h
      obtain rfl := Option.some.inj h
      have hq := kfree_quiet hk
      exact ⟨hq.sz, hq.mmSz, hq.mmArr⟩
    · exact Option.some.inj h ▸ Quiet.refl s

theorem deallocuvm_quiet {s s' : Sys} {oldsz newsz r : ℕ}
    (h : deallocuvm s oldsz newsz = some (r, s')) : Quiet s s' := by
  have loop : ∀ (vs : List ℕ) (s s' : Sys), vs.foldlM dropPage s = some s' → Quiet s s' := by
    intro vs
    induction vs with
    | nil =>
      intro s s' h
      exact Option.some.inj h ▸ Quiet.refl s
    | cons v vs ih =>
      intro s s' h
      rw [List.foldlM_cons] at h
      obtain ⟨s₁, h₁, h⟩ := Option.bind_eq_some_iff.1 h
      exact (dropPage_quiet h₁).trans (ih s₁ s' h)
  simp only [deallocuvm] at h
  split_ifs at h
  · simp only [Option.some.injEq, Prod.mk.injEq] at h
    exact h.2 ▸ Quiet.refl s
  · obtain ⟨s₁, h₁, h⟩ := Option.bind_eq_some_iff.1 h
    simp only [Option.some.injEq, Prod.mk.injEq] at h
    exact h.2 ▸ loop _ _ _ h₁

theorem growPages_quiet {oldsz newsz : ℕ} {vs : List ℕ} {s s' : Sys} {ok : Bool}
    (h : growPages oldsz newsz vs s = some (ok, s')) : Quiet s s' := by
  induction vs generalizing s with
  | nil =>
    simp only [growPages, Option.some.injEq, Prod.mk.injEq] at h
    exact h.2 ▸ Quiet.refl s
  | cons v vs ih =>
    simp only [growPages] at h
    cases hk : kalloc s with
    | mk m s₁ =>
      have hq := kalloc_eq_some hk
      cases m with
      | none =>
        simp only [hk] at h
        obtain ⟨⟨r, s₂⟩, hd, h⟩ := Option.bind_eq_some_iff.1 h
        simp only [Option.some.injEq, Prod.mk.injEq] at h
        exact h.2 ▸ hq.trans (deallocuvm_quiet hd)
      | some m =>
        simp only [hk] at h
        obtain ⟨⟨r, s₂⟩, hm, h⟩ := Option.bind_eq_some_iff.1 h
        have hq₂ := mappages_quiet hm
        have hq₂ : Quiet s s₂ := hq.trans ⟨hq₂.sz, hq₂.mmSz, hq₂.mmArr⟩
        simp only at h
        split_ifs at h
        · obtain ⟨⟨r', s₃⟩, hd, h⟩ := Option.bind_eq_some_iff.1 h
          obtain ⟨s₄, hf, h⟩ := Option.bind_eq_some_iff.1 h
          simp only [Option.some.injEq, Prod.mk.injEq] at h
          exact h.2 ▸ hq₂.trans ((deallocuvm_quiet hd).trans (kfree_quiet hf))
        · exact hq₂.trans (ih h)

theorem allocuvm_quiet {s s' : Sys} {oldsz newsz r : ℕ}
    (h : allocuvm s oldsz newsz = some (r, s')) : Quiet s s' := by
  simp only [allocuvm] at h
  split_ifs at h
  · simp only [Option.some.injEq, Prod.mk.injEq] at h
    exact h.2 ▸ Quiet.refl s
  · simp only [Option.some.injEq, Prod.mk.injEq] at h
    exact h.2 ▸ Quiet.refl s
  · obtain ⟨⟨ok, s₁⟩, h₁, h⟩ := Option.bind_eq_some_iff.1 h
    simp only [Option.some.injEq, Prod.mk.injEq] at h
    exact h.2 ▸ growPages_quiet h₁

end Mmap
