/-
Module: UCache.Lib.SortedMap
Purpose: Maps as lists of pairs in the order of their keys.
Trusted boundary: none
Main exports: assign, SortedKeys, assign_sorted
-/
import Mathlib.Order.Lattice
import Mathlib.Data.List.Induction
import Mathlib.Data.List.Pairwise

namespace UCache.Lib

universe u v

variable {κ : Type u} {ν : Type v} [LinearOrder κ] {l : List (κ × ν)}

/-- The map with `v` at `k`, in place of what was there. -/
def assign (k : κ) (v : ν) : List (κ × ν) → List (κ × ν)
  | [] => [(k, v)]
  | p :: l =>
      if k < p.1 then (k, v) :: p :: l else if k = p.1 then (k, v) :: l else p :: assign k v l

/-- The keys stand in increasing order, each once. -/
def SortedKeys (l : List (κ × ν)) : Prop := l.Pairwise fun p q => p.1 < q.1

theorem mem_assign {k : κ} {v : ν} {p : κ × ν} (h : p ∈ assign k v l) : p = (k, v) ∨ p ∈ l := by
  induction l with
  | nil => exact .inl (List.mem_singleton.1 h)
  | cons q l ih =>
      rw [assign] at h
      split at h
      · exact List.mem_cons.1 h
      · split at h
        · exact (List.mem_cons.1 h).imp_right (List.mem_cons_of_mem q)
        · rcases List.mem_cons.1 h with rfl | h
          · exact .inr (List.mem_cons_self ..)
          · exact (ih h).imp_right (List.mem_cons_of_mem q)

theorem assign_sorted {k : κ} {v : ν} (h : SortedKeys l) : SortedKeys (assign k v l) := by
  induction l with
  | nil => exact List.pairwise_singleton _ _
  | cons q l ih =>
      obtain ⟨hq, hl⟩ := List.pairwise_cons.1 h
      rw [assign]
      split
      · rename_i hlt
        refine List.pairwise_cons.2 ⟨fun p hp => ?_, h⟩
        rcases List.mem_cons.1 hp with rfl | hp
        · exact hlt
        · exact hlt.trans (hq p hp)
      · split
        · rename_i heq
          exact List.pairwise_cons.2 ⟨fun p hp => lt_of_eq_of_lt heq (hq p hp), hl⟩
        · rename_i hnlt hne
          have hgt : q.1 < k := lt_of_le_of_ne (not_lt.1 hnlt) (Ne.symm hne)
          refine List.pairwise_cons.2 ⟨fun p hp => ?_, ih hl⟩
          rcases mem_assign hp with rfl | hp
          · exact hgt
          · exact hq p hp

theorem assign_last {k : κ} {v : ν} (h : ∀ p ∈ l, p.1 < k) : assign k v l = l ++ [(k, v)] := by
  induction l with
  | nil => rfl
  | cons q l ih =>
      obtain ⟨hq, hl⟩ := List.forall_mem_cons.1 h
      rw [assign, if_neg (lt_asymm hq), if_neg (ne_of_gt hq), ih hl, List.cons_append]

/-- A sorted list put in pair by pair comes out as it is. -/
theorem foldl_assign_self (h : SortedKeys l) : l.foldl (fun m p => assign p.1 p.2 m) [] = l := by
  induction l using List.reverseRecOn with
  | nil => rfl
  | append_singleton l p ih =>
      obtain ⟨hl, -, hlast⟩ := List.pairwise_append.1 h
      rw [List.foldl_append, List.foldl_cons, List.foldl_nil, ih hl]
      exact assign_last fun q hq => hlast q hq p (List.mem_singleton_self p)

end UCache.Lib
