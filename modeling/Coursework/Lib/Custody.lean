import Mathlib.Data.List.Nodup
import Mathlib.Logic.Function.Basic

/-! Who has which resource: a list of resources handed out, each of them either with one of
the owners or still in hand, and never with two of them. -/

variable {ο φ : Type*}

/-- The resources `held` are those of the owners and those in `hand`, each in one place. -/
structure Custody (own : ο → Option φ) (hand held : List φ) : Prop where
  nodup : held.Nodup
  hand_nodup : hand.Nodup
  mem : ∀ f, f ∈ held ↔ f ∈ hand ∨ ∃ o, own o = some f
  inj : ∀ {o o' f}, own o = some f → own o' = some f → o = o'
  apart : ∀ {o f}, own o = some f → f ∉ hand

namespace Custody

variable {own own' : ο → Option φ} {hand held hand' held' : List φ} {f : φ} {o : ο}

theorem held_of_own (h : Custody own hand held) (ho : own o = some f) : f ∈ held :=
  (h.mem f).2 (.inr ⟨o, ho⟩)

theorem held_of_hand (h : Custody own hand held) (hf : f ∈ hand) : f ∈ held :=
  (h.mem f).2 (.inl hf)

theorem init (hnd : hand.Nodup) (ho : ∀ o, own o = none) : Custody own hand hand where
  nodup := hnd
  hand_nodup := hnd
  mem f := by simp [ho]
  inj h := by simp [ho] at h
  apart h := by simp [ho] at h

theorem perm (h : Custody own hand held) (hh : hand'.Perm hand) (hd : held'.Perm held) :
    Custody own hand' held' where
  nodup := hd.nodup_iff.2 h.nodup
  hand_nodup := hh.nodup_iff.2 h.hand_nodup
  mem f := by rw [hd.mem_iff, hh.mem_iff, h.mem]
  inj := h.inj
  apart ho := by
    rw [hh.mem_iff]
    exact h.apart ho

theorem take (h : Custody own hand held) (hf : f ∉ held) :
    Custody own (f :: hand) (f :: held) where
  nodup := List.nodup_cons.2 ⟨hf, h.nodup⟩
  hand_nodup := List.nodup_cons.2 ⟨fun hh => hf (h.held_of_hand hh), h.hand_nodup⟩
  mem g := by rw [List.mem_cons, List.mem_cons, h.mem, or_assoc]
  inj := h.inj
  apart ho := by
    rw [List.mem_cons, not_or]
    exact ⟨fun e => hf (e ▸ h.held_of_own ho), h.apart ho⟩

theorem give [DecidableEq φ] (h : Custody own (f :: hand) held) :
    Custody own hand (held.erase f) where
  nodup := h.nodup.erase f
  hand_nodup := (List.nodup_cons.1 h.hand_nodup).2
  mem g := by
    obtain ⟨hf, -⟩ := List.nodup_cons.1 h.hand_nodup
    rw [h.nodup.mem_erase_iff, h.mem, List.mem_cons]
    constructor
    · rintro ⟨hne, (e | hg) | hg⟩
      · exact absurd e hne
      · exact .inl hg
      · exact .inr hg
    · rintro (hg | ⟨o, ho⟩)
      · exact ⟨fun e => hf (e ▸ hg), .inl (.inr hg)⟩
      · exact ⟨fun e => h.apart ho (e ▸ List.mem_cons_self), .inr ⟨o, ho⟩⟩
  inj := h.inj
  apart ho hg := h.apart ho (List.mem_cons_of_mem _ hg)

section
variable [DecidableEq ο]

/-- A resource in hand passed to an owner that had none. -/
theorem hang (h : Custody own (f :: hand) held) (ho : own o = none) :
    Custody (Function.update own o (some f)) hand held where
  nodup := h.nodup
  hand_nodup := (List.nodup_cons.1 h.hand_nodup).2
  mem g := by
    rw [h.mem, List.mem_cons]
    constructor
    · rintro ((rfl | hg) | ⟨o', ho'⟩)
      · exact .inr ⟨o, Function.update_self ..⟩
      · exact .inl hg
      · refine .inr ⟨o', ?_⟩
        rw [Function.update_of_ne]
        · exact ho'
        · rintro rfl
          simp [ho] at ho'
    · rintro (hg | ⟨o', ho'⟩)
      · exact .inl (.inr hg)
      · by_cases e : o' = o
        · rw [e, Function.update_self, Option.some.injEq] at ho'
          exact .inl (.inl ho'.symm)
        · rw [Function.update_of_ne e] at ho'
          exact .inr ⟨o', ho'⟩
  inj {o₁ o₂ g} h₁ h₂ := by
    have key : ∀ {o'}, Function.update own o (some f) o' = some f → o' = o := by
      intro o' ho'
      by_contra e
      rw [Function.update_of_ne e] at ho'
      exact h.apart ho' List.mem_cons_self
    by_cases e₁ : o₁ = o
    · subst e₁
      rw [Function.update_self] at h₁
      exact (key (h₁ ▸ h₂)).symm
    · by_cases e₂ : o₂ = o
      · subst e₂
        rw [Function.update_self] at h₂
        exact key (h₂ ▸ h₁)
      · rw [Function.update_of_ne e₁] at h₁
        rw [Function.update_of_ne e₂] at h₂
        exact h.inj h₁ h₂
  apart {o' g} ho' := by
    by_cases e : o' = o
    · rw [e, Function.update_self, Option.some.injEq] at ho'
      exact ho' ▸ (List.nodup_cons.1 h.hand_nodup).1
    · rw [Function.update_of_ne e] at ho'
      exact fun hg => h.apart ho' (List.mem_cons_of_mem _ hg)

/-- A resource taken from its owner into the hand. -/
theorem unhang (h : Custody own hand held) (ho : own o = some f) :
    Custody (Function.update own o none) (f :: hand) held where
  nodup := h.nodup
  hand_nodup := List.nodup_cons.2 ⟨h.apart ho, h.hand_nodup⟩
  mem g := by
    rw [h.mem, List.mem_cons]
    constructor
    · rintro (hg | ⟨o', ho'⟩)
      · exact .inl (.inr hg)
      · by_cases e : o' = o
        · rw [e, ho, Option.some.injEq] at ho'
          exact .inl (.inl ho'.symm)
        · exact .inr ⟨o', by rw [Function.update_of_ne e, ho']⟩
    · rintro ((rfl | hg) | ⟨o', ho'⟩)
      · exact .inr ⟨o, ho⟩
      · exact .inl hg
      · by_cases e : o' = o
        · rw [e, Function.update_self] at ho'
          exact absurd ho' (by simp)
        · rw [Function.update_of_ne e] at ho'
          exact .inr ⟨o', ho'⟩
  inj {o₁ o₂ g} h₁ h₂ := by
    have key : ∀ {o'}, Function.update own o none o' = some g → own o' = some g := by
      intro o' ho'
      by_cases e : o' = o
      · rw [e, Function.update_self] at ho'
        exact absurd ho' (by simp)
      · rwa [Function.update_of_ne e] at ho'
    exact h.inj (key h₁) (key h₂)
  apart {o' g} ho' := by
    by_cases e : o' = o
    · rw [e, Function.update_self] at ho'
      exact absurd ho' (by simp)
    · rw [Function.update_of_ne e] at ho'
      rw [List.mem_cons, not_or]
      exact ⟨fun eg => e (h.inj ho' (eg ▸ ho)), h.apart ho'⟩

theorem pass [DecidableEq φ] (h : Custody own hand held) (ho : own o = some f) :
    Custody (Function.update own o none) (f :: hand) (f :: held.erase f) :=
  (h.unhang ho).perm (List.Perm.refl _) (List.perm_cons_erase (h.held_of_own ho)).symm

end

end Custody
