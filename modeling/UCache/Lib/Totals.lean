/-
Module: UCache.Lib.Totals
Purpose: The total of a function that is zero but for finitely many arguments, as one argument after
  another changes.
Trusted boundary: none
Main exports: Total, Total.update, Total.move
-/
import Mathlib.Algebra.BigOperators.Group.Finset.Basic
import Mathlib.Algebra.GroupWithZero.Nat
import Mathlib.Algebra.Order.BigOperators.Group.Finset

namespace UCache.Lib

variable {ι : Type} {f g : ι → Nat} {m n : Nat}

/-- `f` is zero outside a finite set, over which it adds up to `n`. -/
def Total (f : ι → Nat) (n : Nat) : Prop :=
  ∃ S : Finset ι, (∀ i, i ∉ S → f i = 0) ∧ ∑ i ∈ S, f i = n

namespace Total

theorem zero : Total (fun _ : ι => 0) 0 := ⟨∅, fun _ _ => rfl, rfl⟩

theorem congr (h : Total f n) (hg : ∀ i, g i = f i) : Total g n := by
  obtain rfl : g = f := funext hg
  exact h

/-- A larger finite set adds up to the same. -/
theorem widen (h : Total f n) (T : Finset ι) :
    ∃ S : Finset ι, T ⊆ S ∧ (∀ i, i ∉ S → f i = 0) ∧ ∑ i ∈ S, f i = n := by
  classical
  obtain ⟨S, hzero, hsum⟩ := h
  refine ⟨S ∪ T, Finset.subset_union_right, ?_, ?_⟩
  · intro i hi
    exact hzero i fun hS => hi (Finset.mem_union_left T hS)
  · rw [← hsum]
    exact (Finset.sum_subset Finset.subset_union_left fun i _ hi => hzero i hi).symm

/-- Every value is part of the total. -/
theorem le (h : Total f n) (i : ι) : f i ≤ n := by
  obtain ⟨S, hsub, -, hsum⟩ := h.widen {i}
  rw [← hsum]
  exact Finset.single_le_sum (fun j _ => Nat.zero_le (f j)) (hsub (Finset.mem_singleton_self i))

theorem mono (hf : Total f m) (hg : Total g n) (hle : ∀ i, f i ≤ g i) : m ≤ n := by
  obtain ⟨S, -, hsum⟩ := hf
  obtain ⟨T, hsub, -, hsum'⟩ := hg.widen S
  rw [← hsum, ← hsum']
  calc ∑ i ∈ S, f i ≤ ∑ i ∈ S, g i := Finset.sum_le_sum fun i _ => hle i
    _ ≤ ∑ i ∈ T, g i := Finset.sum_le_sum_of_subset hsub

theorem unique (hf : Total f m) (hg : Total f n) : m = n :=
  Nat.le_antisymm (hf.mono hg fun _ => Nat.le_refl _) (hg.mono hf fun _ => Nat.le_refl _)

/-- One value replaced by another. -/
theorem update [DecidableEq ι] (h : Total f n) (i : ι) (x : Nat) :
    Total (Function.update f i x) (n - f i + x) := by
  obtain ⟨S, hsub, hzero, hsum⟩ := h.widen {i}
  have hi : i ∈ S := hsub (Finset.mem_singleton_self i)
  refine ⟨S, ?_, ?_⟩
  · intro j hj
    have hne : j ≠ i := fun hji => hj (hji ▸ hi)
    rw [Function.update_of_ne hne]
    exact hzero j hj
  · have hold : f i + ∑ j ∈ S.erase i, f j = n := by
      rw [Finset.add_sum_erase S f hi, hsum]
    have hrest : ∑ j ∈ S.erase i, Function.update f i x j = ∑ j ∈ S.erase i, f j :=
      Finset.sum_congr rfl fun j hj => Function.update_of_ne (Finset.ne_of_mem_erase hj) x f
    rw [← Finset.add_sum_erase S _ hi, Function.update_self, hrest]
    omega

/-- One value changes, and the total with it. -/
theorem move [DecidableEq ι] (h : Total f n) {i : ι} (hother : ∀ j, j ≠ i → g j = f j)
    (hsum : m + f i = n + g i) : Total g m := by
  have hle := h.le i
  have hm : n - f i + g i = m := by omega
  rw [← hm]
  refine (h.update i (g i)).congr fun j => ?_
  by_cases hj : j = i
  · subst hj
    rw [Function.update_self]
  · rw [Function.update_of_ne hj, hother j hj]

/-- The total of `f` only: a list of parts, of which every value of `f` can be paid, holds more. -/
theorem le_sum [DecidableEq ι] (h : Total f m) (parts : List (ι × Nat))
    (hparts : ∀ i, f i ≠ 0 → (i, f i) ∈ parts) : m ≤ (parts.map Prod.snd).sum := by
  -- Spread over the arguments the list adds up to its sum, and it holds every value.
  have hspread : ∀ parts : List (ι × Nat), Total
      (fun i => ((parts.filter fun p => p.1 = i).map Prod.snd).sum) (parts.map Prod.snd).sum := by
    intro parts
    induction parts with
    | nil => exact zero
    | cons p rest ih =>
        have hstep := ih.update p.1 (((rest.filter fun q => q.1 = p.1).map Prod.snd).sum + p.2)
        have hle := ih.le p.1
        have hn : (rest.map Prod.snd).sum - ((rest.filter fun q => q.1 = p.1).map Prod.snd).sum +
            (((rest.filter fun q => q.1 = p.1).map Prod.snd).sum + p.2) =
            ((p :: rest).map Prod.snd).sum := by
          rw [List.map_cons, List.sum_cons]
          omega
        rw [hn] at hstep
        refine hstep.congr fun i => ?_
        by_cases hi : i = p.1
        · subst hi
          simp [Nat.add_comm]
        · have hne : ¬ p.1 = i := Ne.symm hi
          simp [hne, Function.update_of_ne hi]
  refine h.mono (hspread parts) fun i => ?_
  by_cases hi : f i = 0
  · rw [hi]
    exact Nat.zero_le _
  · have hmem : f i ∈ (parts.filter fun p => p.1 = i).map Prod.snd :=
      List.mem_map.2 ⟨(i, f i), List.mem_filter.2 ⟨hparts i hi, by simp⟩, rfl⟩
    exact List.le_sum_of_mem hmem

/-- The parts of a total, each for another argument. -/
theorem of_parts [DecidableEq ι] {parts : List (ι × Nat)} (hnodup : (parts.map Prod.fst).Nodup)
    (hin : ∀ p ∈ parts, f p.1 = p.2) (hout : ∀ i, i ∉ parts.map Prod.fst → f i = 0) :
    Total f (parts.map Prod.snd).sum := by
  refine ⟨(parts.map Prod.fst).toFinset, fun i hi => hout i fun hmem => hi ?_, ?_⟩
  · exact List.mem_toFinset.2 hmem
  · rw [List.sum_toFinset f hnodup, List.map_map]
    exact congrArg List.sum (List.map_congr_left hin)

end Total

end UCache.Lib
