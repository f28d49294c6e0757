/-
Module: UCache.Lib.Bytes
Purpose: Overwriting a stretch of a list in place, and reading a stretch back.
Trusted boundary: none
Main exports: slice, patch, slice_patch_same
-/
import Mathlib.Data.List.Basic

namespace UCache.Lib

universe u

variable {α : Type u} {b : List α} {off : Nat}

/-- The `len` elements from position `off`; fewer when the list ends before. -/
def slice (b : List α) (off len : Nat) : List α := (b.drop off).take len

/-- Overwrite `w.length` elements of `b` from position `off` (a `memcpy` into a buffer). -/
def patch (b : List α) (off : Nat) (w : List α) : List α :=
  b.take off ++ w ++ b.drop (off + w.length)

@[simp] theorem length_slice (b : List α) (off len : Nat) :
    (slice b off len).length = min len (b.length - off) := by
  simp [slice]

theorem getElem?_slice (b : List α) (off len i : Nat) :
    (slice b off len)[i]? = if i < len then b[off + i]? else none := by
  simp only [slice, List.getElem?_take, List.getElem?_drop]

@[simp] theorem length_patch {w : List α} (h : off + w.length ≤ b.length) :
    (patch b off w).length = b.length := by
  simp only [patch, List.length_append, List.length_take, List.length_drop]
  omega

/-- Element `i` after the overwrite: from `w` inside the stretch, unchanged elsewhere. -/
theorem getElem?_patch {w : List α} (h : off + w.length ≤ b.length) (i : Nat) :
    (patch b off w)[i]? = if off ≤ i ∧ i < off + w.length then w[i - off]? else b[i]? := by
  have hoff : (b.take off).length = off := by simp; omega
  simp only [patch]
  by_cases h1 : i < off
  · rw [List.append_assoc, List.getElem?_append_left (by omega), if_neg (by omega),
      List.getElem?_take_of_lt h1]
  · by_cases h2 : i < off + w.length
    · rw [List.append_assoc, List.getElem?_append_right (by omega),
        List.getElem?_append_left (by omega), if_pos ⟨by omega, h2⟩, hoff]
    · rw [List.getElem?_append_right (by simp; omega), if_neg (by omega), List.getElem?_drop]
      congr 1
      simp
      omega

@[simp] theorem slice_zero (b : List α) (off : Nat) : slice b off 0 = [] := by
  simp [slice]

@[simp] theorem patch_nil (b : List α) (off : Nat) : patch b off [] = b := by
  simp [patch]

/-- Reading back the stretch just written. -/
theorem slice_patch_same {b : List α} {off : Nat} {w : List α} (h : off + w.length ≤ b.length) :
    slice (patch b off w) off w.length = w := by
  apply List.ext_getElem?
  intro i
  rw [getElem?_slice, getElem?_patch h]
  by_cases hi : i < w.length
  · rw [if_pos hi, if_pos ⟨by omega, by omega⟩, Nat.add_sub_cancel_left]
  · rw [if_neg hi, List.getElem?_eq_none (by omega)]

/-- What is apart from the stretch reads as before. -/
theorem slice_patch_apart {w : List α} (h : off + w.length ≤ b.length) {pos len : Nat}
    (hapart : pos + len ≤ off ∨ off + w.length ≤ pos) :
    slice (patch b off w) pos len = slice b pos len := by
  apply List.ext_getElem?
  intro i
  rw [getElem?_slice, getElem?_slice, getElem?_patch h]
  by_cases hi : i < len
  · rw [if_pos hi, if_pos hi, if_neg (by omega)]
  · rw [if_neg hi, if_neg hi]

/-- Writing back what a stretch held before it was overwritten. -/
theorem patch_restore {w old : List α} (h : off + w.length ≤ b.length)
    (hold : slice b off w.length = old) : patch (patch b off w) off old = b := by
  have hlen : old.length = w.length := by
    rw [← hold, length_slice]
    omega
  have hroom : off + old.length ≤ (patch b off w).length := by rw [length_patch h, hlen]; exact h
  apply List.ext_getElem?
  intro i
  rw [getElem?_patch hroom, getElem?_patch h, hlen]
  split
  · rename_i hin
    rw [← hold, getElem?_slice, if_pos (by omega), Nat.add_sub_cancel' hin.1]
  · rfl

/-- Slicing what comes after the first list. -/
theorem slice_append_right (b c : List α) (off len : Nat) :
    slice (b ++ c) (b.length + off) len = slice c off len := by
  rw [slice, slice, List.drop_append, List.drop_eq_nil_of_le (by omega)]
  simp

/-- Slicing inside the first list. -/
theorem slice_append_left (c : List α) {len : Nat} (h : off + len ≤ b.length) :
    slice (b ++ c) off len = slice b off len := by
  rw [slice, slice, List.drop_append_of_le_length (by omega), List.take_append_of_le_length]
  simp
  omega

@[simp] theorem slice_self (b : List α) : slice b 0 b.length = b := by
  simp [slice]

/-- A slice of a slice. -/
theorem slice_slice {n k len : Nat} (h : k + len ≤ n) :
    slice (slice b off n) k len = slice b (off + k) len := by
  rw [slice, slice, slice, List.drop_take, List.drop_drop, List.take_take]
  congr 1
  omega

/-- Two slices in a row. -/
theorem slice_append_slice (b : List α) (off m n : Nat) :
    slice b off m ++ slice b (off + m) n = slice b off (m + n) := by
  rw [slice, slice, slice, List.take_add, List.drop_drop]

/-- Chunk `i` of a list of chunks of one size. -/
theorem slice_flatten {ls : List (List α)} {k : Nat} (hk : ∀ l ∈ ls, l.length = k) (i : Nat) :
    slice ls.flatten (i * k) k = ls[i]?.getD [] := by
  induction ls generalizing i with
  | nil => simp [slice]
  | cons l ls ih =>
      have hl : l.length = k := hk l (by simp)
      cases i with
      | zero =>
          rw [List.flatten_cons, slice_append_left _ (by omega), Nat.zero_mul, ← hl, slice_self]
          simp
      | succ i =>
          have hoff : (i + 1) * k = l.length + i * k := by rw [Nat.add_mul, hl]; omega
          rw [List.flatten_cons, hoff, slice_append_right, ih fun l' hl' => hk l' (by simp [hl'])]
          simp

/-- A slice that starts behind the first list. -/
theorem slice_skip {a b : List α} {off n : Nat} (h : a.length ≤ off) :
    slice (a ++ b) off n = slice b (off - a.length) n := by
  have hright := slice_append_right a b (off - a.length) n
  rwa [Nat.add_sub_cancel' h] at hright

/-- A slice that is the first list. -/
theorem slice_head {a : List α} {n : Nat} (h : a.length = n) : slice (a ++ b) 0 n = a := by
  rw [slice_append_left _ (by omega), ← h, slice_self]

/-- The piece number `i` of a list that is put together from pieces. -/
theorem slice_piece {ls : List (List α)} {l : List α} {i off n : Nat} (rest : List α)
    (hl : ls[i]? = some l) (hoff : (ls.take i).flatten.length = off) (hn : l.length = n) :
    slice (ls.flatten ++ rest) off n = l := by
  obtain ⟨hi, rfl⟩ := List.getElem?_eq_some_iff.1 hl
  have hsplit : ls.flatten ++ rest =
      (ls.take i).flatten ++ (ls[i] ++ ((ls.drop (i + 1)).flatten ++ rest)) := by
    conv_lhs => rw [← List.take_append_drop i ls, List.drop_eq_getElem_cons hi]
    simp only [List.flatten_append, List.flatten_cons, List.append_assoc]
  rw [hsplit, slice_skip (by omega), hoff, Nat.sub_self, slice_head hn]

theorem slice_all {a : List α} {n : Nat} (h : a.length = n) : slice a 0 n = a := by
  rw [← h, slice_self]

/-- Record `i` of a section of records of one size. -/
theorem slice_section {β : Type} {a c : List α} {enc : β → List α} {k : Nat}
    (hk : ∀ x, (enc x).length = k) {l : List β} {i : Nat} {x : β} (hi : l[i]? = some x) :
    slice (a ++ (l.flatMap enc ++ c)) (a.length + k * i) k = enc x := by
  have hlt : i < l.length := (List.getElem?_eq_some_iff.1 hi).1
  have hlen : (l.flatMap enc).length = k * l.length := by
    rw [List.length_flatMap, List.map_congr_left (fun x _ => hk x)]
    simp [Nat.mul_comm]
  have hroom : k * i + k ≤ k * l.length := by
    rw [← Nat.mul_succ]
    exact Nat.mul_le_mul_left k hlt
  rw [slice_append_right, slice_append_left _ (by omega), List.flatMap_def, Nat.mul_comm,
    slice_flatten (by simpa using fun x _ => hk x)]
  simp [hi]

/-- A list rebuilt from its elements. -/
theorem map_range_eq {β : Type} {l : List β} {f : Nat → β}
    (h : ∀ i x, l[i]? = some x → f i = x) : (List.range l.length).map f = l := by
  apply List.ext_getElem (by simp)
  intro i hi hi'
  rw [List.getElem_map, List.getElem_range]
  exact h i _ (List.getElem?_eq_getElem hi')
end UCache.Lib
