/-
Module: UCache.Lib.Slots
Purpose: A list as a bag of slots: one slot replaced, one slot taken out, and a slot of least
  weight.
Trusted boundary: none
Main exports: perm_set, perm_eraseIdx, sum_set
-/
import Mathlib.Algebra.BigOperators.Group.List.Basic
import Mathlib.Algebra.GroupWithZero.Nat
import Mathlib.Data.List.Perm.Basic

namespace UCache.Lib

variable {α : Type} {l : List α} {x y : α} {i : Nat}

/-- One slot gets another content. -/
theorem perm_set (h : l[i]? = some x) : (x :: l.set i y).Perm (y :: l) := by
  induction l generalizing i with
  | nil => cases h
  | cons a l ih =>
      cases i with
      | zero =>
          cases h
          exact List.Perm.swap y x l
      | succ i =>
          calc (x :: a :: l.set i y).Perm (a :: x :: l.set i y) := List.Perm.swap a x _
            List.Perm _ (a :: y :: l) := (ih h).cons a
            List.Perm _ (y :: a :: l) := List.Perm.swap y a l

/-- One slot is taken out. -/
theorem perm_eraseIdx (h : l[i]? = some x) : l.Perm (x :: l.eraseIdx i) := by
  induction l generalizing i with
  | nil => cases h
  | cons a l ih =>
      cases i with
      | zero =>
          cases h
          exact List.Perm.refl _
      | succ i =>
          calc (a :: l).Perm (a :: x :: l.eraseIdx i) := (ih h).cons a
            List.Perm _ (x :: a :: l.eraseIdx i) := List.Perm.swap x a _

theorem sum_set (f : α → Nat) (h : l[i]? = some x) :
    f x + ((l.set i y).map f).sum = f y + (l.map f).sum := by
  have hperm := (perm_set (y := y) h).map f
  simpa using hperm.sum_eq

/-- Among finitely many there is one of least weight. -/
theorem exists_least (f : α → Nat) (h : l ≠ []) :
    ∃ (i : Nat) (x : α), l[i]? = some x ∧ ∀ y ∈ l, f x ≤ f y := by
  induction l with
  | nil => exact absurd rfl h
  | cons a l ih =>
      by_cases hnil : l = []
      · subst hnil
        exact ⟨0, a, rfl, by simp⟩
      obtain ⟨i, x, hx, hleast⟩ := ih hnil
      by_cases hle : f a ≤ f x
      · refine ⟨0, a, rfl, ?_⟩
        intro y hy
        rcases List.mem_cons.1 hy with rfl | hy
        · exact Nat.le_refl _
        · exact Nat.le_trans hle (hleast y hy)
      · refine ⟨i + 1, x, hx, ?_⟩
        intro y hy
        rcases List.mem_cons.1 hy with rfl | hy
        · exact Nat.le_of_lt (Nat.lt_of_not_le hle)
        · exact hleast y hy

end UCache.Lib
