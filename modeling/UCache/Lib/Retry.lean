/-
Module: UCache.Lib.Retry
Purpose: An operation that is tried again as long as a rule says so, over the outcomes of its
  attempts in order.
Trusted boundary: none
Main exports: settle, settle_eq_none, settle_snoc
-/
import Mathlib.Data.List.Basic

namespace UCache.Lib

variable {α : Type} {again : Nat → α → Bool} {n m : Nat} {x : α} {tape rest : List α}

/-- The first outcome that is not tried again, with the number of its attempt; `none` while the
outcomes so far all ask for another. -/
def settle (again : Nat → α → Bool) : Nat → List α → Option (Nat × α)
  | _, [] => none
  | n, x :: rest => if again n x then settle again (n + 1) rest else some (n, x)

/-- Nothing settled yet: every outcome asks for another attempt. -/
theorem settle_eq_none (h : settle again n tape = none) :
    ∀ (i : Nat) (y : α), tape[i]? = some y → again (n + i) y = true := by
  induction tape generalizing n with
  | nil =>
      intro i y hy
      cases hy
  | cons x tape ih =>
      simp only [settle] at h
      split at h
      case isTrue hagain =>
        intro i y hy
        cases i with
        | zero =>
            cases hy
            exact hagain
        | succ i =>
            rw [← ih h i y hy, Nat.add_assoc, Nat.add_comm 1 i]
      case isFalse => cases h

/-- One more outcome, where all before asked for another attempt. -/
theorem settle_snoc (h : settle again n tape = none) :
    settle again n (tape ++ [x]) =
      if again (n + tape.length) x then none else some (n + tape.length, x) := by
  induction tape generalizing n with
  | nil => rfl
  | cons y tape ih =>
      simp only [settle, List.cons_append] at h ⊢
      split at h
      case isTrue hagain =>
        rw [if_pos hagain, ih h, List.length_cons, Nat.add_right_comm, Nat.add_assoc]
      case isFalse => cases h

/-- The outcome that settles is one of the tape, at the place of its attempt, it does not ask for
another attempt, and all before it do. -/
theorem settle_eq_some (h : settle again n tape = some (m, x)) :
    n ≤ m ∧ tape[m - n]? = some x ∧ again m x = false ∧
      ∀ (i : Nat) (y : α), i < m - n → tape[i]? = some y → again (n + i) y = true := by
  induction tape generalizing n with
  | nil => cases h
  | cons y tape ih =>
      simp only [settle] at h
      split at h
      case isTrue hagain =>
        obtain ⟨hle, hx, hlast, hbefore⟩ := ih h
        have hsub : m - n = (m - (n + 1)) + 1 := by omega
        refine ⟨by omega, by rw [hsub]; exact hx, hlast, ?_⟩
        intro i z hi hz
        cases i with
        | zero =>
            cases hz
            exact hagain
        | succ i =>
            rw [← hbefore i z (by omega) hz, Nat.add_assoc, Nat.add_comm 1 i]
      case isFalse hagain =>
        cases h
        refine ⟨Nat.le_refl _, by simp, Bool.not_eq_true _ ▸ hagain, ?_⟩
        intro i z hi
        omega

end UCache.Lib
