/-
Module: UCache.Lib.Needle
Purpose: The first place where one list stands in another, and the stretches of a text such a search
  passes over.
Trusted boundary: none
Main exports: after, NeverStarts, after_of_neverStarts
-/
import Mathlib.Data.List.Infix

namespace UCache.Lib

universe u

variable {α : Type u}

/-- The needle starts at no place of a stretch of text, with `t` behind the stretch. -/
def NeverStarts (needle : List α) : List α → List α → Prop
  | [], _ => True
  | x :: p, t => ¬ needle <+: x :: (p ++ t) ∧ NeverStarts needle p t

variable {needle p q t : List α}

theorem NeverStarts.append (hp : NeverStarts needle p (q ++ t)) (hq : NeverStarts needle q t) :
    NeverStarts needle (p ++ q) t := by
  induction p with
  | nil => exact hq
  | cons x p ih =>
      refine ⟨fun hpre => hp.1 ?_, ih hp.2⟩
      rwa [← List.append_assoc]

theorem NeverStarts.split (h : NeverStarts needle (p ++ q) t) :
    NeverStarts needle p (q ++ t) ∧ NeverStarts needle q t := by
  induction p with
  | nil => exact ⟨trivial, h⟩
  | cons x p ih =>
      obtain ⟨hp, hq⟩ := ih h.2
      refine ⟨⟨fun hpre => h.1 ?_, hp⟩, hq⟩
      rwa [← List.append_assoc] at hpre

/-- A needle does not start in a stretch without its first element. -/
theorem neverStarts_of_notMem {x : α} (h : x ∉ p) : NeverStarts (x :: needle) p t := by
  induction p with
  | nil => trivial
  | cons y p ih =>
      refine ⟨fun hpre => ?_, ih (List.not_mem_of_not_mem_cons h)⟩
      exact h (List.mem_cons.2 (.inl (List.cons_prefix_cons.1 hpre).1))

variable [DecidableEq α]

/-- What follows the first place where `needle` stands in a text, if it stands anywhere. -/
def after (needle : List α) : List α → Option (List α)
  | [] => if needle = [] then some [] else none
  | x :: s => if needle <+: x :: s then some ((x :: s).drop needle.length) else after needle s

/-- A text in which the needle never starts is passed over. -/
theorem after_of_neverStarts (h : NeverStarts needle p t) :
    after needle (p ++ t) = after needle t := by
  induction p with
  | nil => rfl
  | cons x p ih => exact (if_neg h.1).trans (ih h.2)

theorem after_hit (needle t : List α) : after needle (needle ++ t) = some t := by
  cases needle with
  | nil => cases t <;> simp [after]
  | cons x n =>
      refine (if_pos (List.prefix_append (x :: n) t)).trans ?_
      exact congrArg some List.drop_left

/-- Where more of the text is known behind the first place, a longer needle has the same place. -/
theorem after_extend {text m : List α} (h : after needle text = some (m ++ t)) :
    after (needle ++ m) text = some t := by
  induction text with
  | nil =>
      rw [after] at h
      split at h
      · rename_i hn
        obtain ⟨rfl, rfl⟩ := List.append_eq_nil_iff.1 (Option.some.inj h).symm
        subst hn
        rfl
      · cases h
  | cons x s ih =>
      rw [after] at h
      by_cases hpre : needle <+: x :: s
      · rw [if_pos hpre] at h
        obtain ⟨rest, hrest⟩ := hpre
        rw [← hrest, List.drop_left] at h
        obtain rfl := Option.some.inj h
        rw [← hrest, ← List.append_assoc]
        exact after_hit _ _
      · rw [if_neg hpre] at h
        refine (if_neg fun hlong => hpre ?_).trans (ih h)
        exact (List.prefix_append needle m).trans hlong

end UCache.Lib
