/-
Module: UCache.Lib.Log
Purpose: The last entry of a log that tells something about a given subject, and how it composes
  along concatenation: the algebra of last-writer-wins.  Selections of a log in key order.
Trusted boundary: none
Main exports: lastFor, lastFor_append, filter_split
-/
import Mathlib.Data.List.Basic

namespace UCache.Lib

universe u v

variable {τ : Type u} {β : Type v} (tells : τ → Option β)

/-- What the newest entry that tells anything tells; the log is oldest first. -/
def lastFor : List τ → Option β
  | [] => none
  | t :: ts => (lastFor ts).or (tells t)

@[simp] theorem lastFor_nil : lastFor tells [] = none := rfl

/-- A later log overrides an earlier one wherever it tells anything. -/
theorem lastFor_append (xs ys : List τ) :
    lastFor tells (xs ++ ys) = (lastFor tells ys).or (lastFor tells xs) := by
  induction xs with
  | nil => simp
  | cons x xs ih => simp only [List.cons_append, lastFor, ih, Option.or_assoc]

@[simp] theorem lastFor_snoc (xs : List τ) (t : τ) :
    lastFor tells (xs ++ [t]) = (tells t).or (lastFor tells xs) := by
  simp [lastFor_append, lastFor]

/-- Over a default, the two parts of a log apply one after the other. -/
theorem lastFor_append_getD (xs ys : List τ) (d : β) :
    (lastFor tells (xs ++ ys)).getD d = (lastFor tells ys).getD ((lastFor tells xs).getD d) := by
  rw [lastFor_append]
  cases lastFor tells ys <;> simp

section Filter

variable {α : Type} {key : α → Nat} {l : List α} {q : α → Bool}

/-- A log whose selected elements ascend in `key` splits at any bound. -/
theorem filter_split (h : l.Pairwise fun a b => q a = true → q b = true → key a < key b)
    (bound : Nat) :
    l.filter q = l.filter (fun a => q a && decide (key a < bound)) ++
      l.filter (fun a => q a && decide (bound ≤ key a)) := by
  induction l with
  | nil => rfl
  | cons a l ih =>
      obtain ⟨ha, hl⟩ := List.pairwise_cons.1 h
      by_cases hq : q a = true
      · by_cases hlt : key a < bound
        · have hge : ¬ bound ≤ key a := by omega
          rw [List.filter_cons_of_pos hq, ih hl, List.filter_cons_of_pos (by simp [hq, hlt]),
            List.filter_cons_of_neg (by simp [hlt]), List.cons_append]
        · -- Everything selected from here on is at or past the bound.
          have hge : bound ≤ key a := by omega
          have hlow : l.filter (fun a => q a && decide (key a < bound)) = [] := by
            rw [List.filter_eq_nil_iff]
            intro b hb
            simp only [Bool.and_eq_true, decide_eq_true_eq, not_and]
            intro hqb hlt'
            have := ha b hb hq hqb
            omega
          rw [List.filter_cons_of_pos hq, ih hl, hlow, List.filter_cons_of_neg (by simp [hlt]),
            List.filter_cons_of_pos (by simp [hq, hge]), hlow]
          rfl
      · rw [List.filter_cons_of_neg hq, ih hl, List.filter_cons_of_neg (by simp [hq]),
          List.filter_cons_of_neg (by simp [hq])]

/-- The selection of one element. -/
theorem filter_eq_singleton (h : l.Pairwise fun a b => q a = true → q b = true → key a < key b)
    {c : α} (hc : c ∈ l) (hq : q c = true) (huniq : ∀ a ∈ l, q a = true → a = c) :
    l.filter q = [c] := by
  have hmem : c ∈ l.filter q := List.mem_filter.2 ⟨hc, hq⟩
  have hall : ∀ a ∈ l.filter q, a = c := by
    intro a ha
    exact huniq a (List.mem_filter.1 ha).1 (List.mem_filter.1 ha).2
  have hpair : (l.filter q).Pairwise fun a b => q a = true → q b = true → key a < key b :=
    h.filter q
  generalize l.filter q = s at hmem hall hpair
  match s with
  | [] => simp at hmem
  | [a] => rw [hall a (by simp)]
  | a :: b :: rest =>
      have hac := hall a (by simp)
      have hbc := hall b (by simp)
      subst hac hbc
      have := (List.pairwise_cons.1 hpair).1 b (by simp) hq hq
      omega

end Filter

end UCache.Lib
