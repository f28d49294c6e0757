/-
Module: UCache.Lib.Search
Purpose: Binary search for the place where a predicate stops to hold, in any list and in one
  ordered by the predicate.
Trusted boundary: none
Main exports: search, search_spec, search_iff
-/
import Mathlib.Data.List.Basic

namespace UCache.Lib

universe u

variable {α : Type u}

/-- The loop of a binary search in the `len` elements from `first` on.  As many turns as the range
has elements are enough. -/
def searchFrom (right : α → Bool) (l : List α) : Nat → Nat → Nat → Nat
  | 0, first, _ => first
  | fuel + 1, first, len =>
      if len = 0 then first
      else
        match l[first + len / 2]? with
        | none => first
        | some x =>
            if right x then searchFrom right l fuel (first + len / 2 + 1) (len - len / 2 - 1)
            else searchFrom right l fuel first (len / 2)

/-- Where a binary search ends that goes right of the elements with `right`. -/
def search (right : α → Bool) (l : List α) : Nat := searchFrom right l l.length 0 l.length

/-- The element before the range went right, the one after it did not. -/
structure Between (right : α → Bool) (l : List α) (first stop : Nat) : Prop where
  range : first ≤ stop ∧ stop ≤ l.length
  before : ∀ i, first = i + 1 → ∃ x, l[i]? = some x ∧ right x = true
  after : stop < l.length → ∃ x, l[stop]? = some x ∧ right x = false

theorem searchFrom_between {right : α → Bool} {l : List α} {fuel first len : Nat}
    (h : Between right l first (first + len)) (hfuel : len ≤ fuel) :
    Between right l (searchFrom right l fuel first len) (searchFrom right l fuel first len) := by
  induction fuel generalizing first len with
  | zero =>
      obtain rfl : len = 0 := by omega
      exact h
  | succ fuel ih =>
      rw [searchFrom]
      by_cases hlen : len = 0
      · subst hlen
        rw [if_pos rfl]
        exact h
      · rw [if_neg hlen]
        have hlt : first + len / 2 < l.length := by
          have := h.range.2
          omega
        have hmid : l[first + len / 2]? = some l[first + len / 2] := List.getElem?_eq_getElem hlt
        rw [hmid]
        simp only
        split
        · rename_i hright
          have hstop : first + len / 2 + 1 + (len - len / 2 - 1) = first + len := by omega
          apply ih _ (by omega)
          rw [hstop]
          refine ⟨by have := h.range; omega, ?_, h.after⟩
          intro i hi
          obtain rfl : i = first + len / 2 := by omega
          exact ⟨_, hmid, hright⟩
        · rename_i hright
          exact ih ⟨by omega, h.before, fun _ => ⟨_, hmid, by simpa using hright⟩⟩ (by omega)

/-- In any list: the element before the place found goes right, the one at it does not. -/
theorem search_spec (right : α → Bool) (l : List α) :
    Between right l (search right l) (search right l) := by
  apply searchFrom_between _ (Nat.le_refl _)
  rw [Nat.zero_add]
  exact ⟨by omega, by simp, fun h => absurd h (by omega)⟩

/-- In an ordered list: the elements that go right are those before the place found. -/
theorem search_iff {right : α → Bool} {l : List α}
    (h : l.Pairwise fun x y => right y = true → right x = true) {i : Nat} {x : α}
    (hx : l[i]? = some x) : right x = true ↔ i < search right l := by
  have hspec := search_spec right l
  have hi : i < l.length := (List.getElem?_eq_some_iff.1 hx).1
  -- What goes right is passed on to everything before it.
  have hmono : ∀ (a b : Nat) (u v : α), l[a]? = some u → l[b]? = some v → a < b →
      right v = true → right u = true := by
    intro a b u v hu hv hab
    obtain ⟨ha, rfl⟩ := List.getElem?_eq_some_iff.1 hu
    obtain ⟨hb, rfl⟩ := List.getElem?_eq_some_iff.1 hv
    exact List.pairwise_iff_getElem.1 h a b ha hb hab
  constructor
  · intro hright
    by_contra hge
    obtain ⟨y, hy, hyr⟩ := hspec.after (by omega)
    rcases Nat.lt_or_eq_of_le (Nat.le_of_not_lt hge) with hlt | heq
    · exact absurd (hmono _ _ _ _ hy hx hlt hright) (by simp [hyr])
    · rw [heq, hx] at hy
      cases hy
      exact absurd hright (by simp [hyr])
  · intro hlt
    obtain ⟨k, hk⟩ : ∃ k, search right l = k + 1 := ⟨search right l - 1, by omega⟩
    obtain ⟨y, hy, hyr⟩ := hspec.before k hk
    rcases Nat.lt_or_eq_of_le (by omega : i ≤ k) with hik | rfl
    · exact hmono _ _ _ _ hx hy hik hyr
    · rw [hx] at hy
      cases hy
      exact hyr

/-- In an ordered list: the first element that does not go right. -/
theorem search_eq_findIdx {right : α → Bool} {l : List α}
    (h : l.Pairwise fun x y => right y = true → right x = true) :
    search right l = l.findIdx fun x => !right x := by
  have hle := (search_spec right l).range.2
  rcases Nat.lt_or_eq_of_le hle with hlt | heq
  · symm
    rw [List.findIdx_eq hlt]
    constructor
    · obtain ⟨x, hx, hxr⟩ := (search_spec right l).after hlt
      rw [List.getElem?_eq_getElem hlt] at hx
      cases hx
      simp [hxr]
    · intro j hj
      have hright := (search_iff h (List.getElem?_eq_getElem (by omega : j < l.length))).2 hj
      simp [hright]
  · rw [heq]
    symm
    rw [List.findIdx_eq_length]
    intro x hx
    obtain ⟨i, hi, rfl⟩ := List.mem_iff_getElem.1 hx
    have hright := (search_iff h (List.getElem?_eq_getElem hi)).2 (by omega)
    simp [hright]

end UCache.Lib
