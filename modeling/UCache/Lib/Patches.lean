/-
Module: UCache.Lib.Patches
Purpose: Several stretches of a list overwritten one after the other: what is apart from all of them
  stays, and where they are apart from each other each of them reads back.
Trusted boundary: none
Main exports: patches, EndIn, StretchesApart
-/
import UCache.Lib.Bytes

namespace UCache.Lib

universe u

variable {α : Type u}

/-- Overwrite each stretch `w.2` at `w.1`, in order. -/
def patches (b : List α) (ws : List (Nat × List α)) : List α :=
  ws.foldl (fun b w => patch b w.1 w.2) b

/-- Position `i` is in one of the stretches. -/
def Touched (ws : List (Nat × List α)) (i : Nat) : Prop :=
  ∃ w ∈ ws, w.1 ≤ i ∧ i < w.1 + w.2.length

/-- Every stretch ends inside the first `n` positions. -/
def EndIn (n : Nat) (ws : List (Nat × List α)) : Prop := ∀ w ∈ ws, w.1 + w.2.length ≤ n

/-- No two stretches share a position. -/
def StretchesApart (ws : List (Nat × List α)) : Prop :=
  ws.Pairwise fun v w => v.1 + v.2.length ≤ w.1 ∨ w.1 + w.2.length ≤ v.1

theorem patches_append (b : List α) (ws ws' : List (Nat × List α)) :
    patches b (ws ++ ws') = patches (patches b ws) ws' :=
  List.foldl_append

theorem length_patches {b : List α} {ws : List (Nat × List α)} (h : EndIn b.length ws) :
    (patches b ws).length = b.length := by
  induction ws generalizing b with
  | nil => rfl
  | cons w rest ih =>
      have hw : w.1 + w.2.length ≤ b.length := h w (by simp)
      have hlen := length_patch hw
      show (patches (patch b w.1 w.2) rest).length = b.length
      rw [ih (fun v hv => by rw [hlen]; exact h v (by simp [hv])), hlen]

/-- A position apart from all stretches keeps its element. -/
theorem getElem?_patches_apart {b : List α} {ws : List (Nat × List α)} (h : EndIn b.length ws)
    {i : Nat} (hi : ¬ Touched ws i) : (patches b ws)[i]? = b[i]? := by
  induction ws generalizing b with
  | nil => rfl
  | cons w rest ih =>
      have hw : w.1 + w.2.length ≤ b.length := h w (by simp)
      have hrest : EndIn (patch b w.1 w.2).length rest := by
        rw [length_patch hw]
        exact fun v hv => h v (by simp [hv])
      show (patches (patch b w.1 w.2) rest)[i]? = b[i]?
      rw [ih hrest (fun ⟨v, hv, hin⟩ => hi ⟨v, by simp [hv], hin⟩), getElem?_patch hw,
        if_neg (fun hin => hi ⟨w, by simp, hin⟩)]

/-- Each of several stretches that are apart reads back. -/
theorem slice_patches {b : List α} {ws : List (Nat × List α)} (h : EndIn b.length ws)
    (hapart : StretchesApart ws) {w : Nat × List α} (hw : w ∈ ws) :
    slice (patches b ws) w.1 w.2.length = w.2 := by
  induction ws generalizing b with
  | nil => cases hw
  | cons v rest ih =>
      have hv : v.1 + v.2.length ≤ b.length := h v (by simp)
      have hrest : EndIn (patch b v.1 v.2).length rest := by
        rw [length_patch hv]
        exact fun x hx => h x (by simp [hx])
      obtain ⟨hfirst, hothers⟩ := List.pairwise_cons.1 hapart
      show slice (patches (patch b v.1 v.2) rest) w.1 w.2.length = w.2
      rcases List.mem_cons.1 hw with rfl | hmem
      · -- the later stretches are apart from the first one
        have hkept : slice (patches (patch b w.1 w.2) rest) w.1 w.2.length =
            slice (patch b w.1 w.2) w.1 w.2.length := by
          apply List.ext_getElem?
          intro i
          rw [getElem?_slice, getElem?_slice]
          by_cases hi : i < w.2.length
          · rw [if_pos hi, if_pos hi, getElem?_patches_apart hrest]
            rintro ⟨x, hx, hin⟩
            have := hfirst x hx
            omega
          · rw [if_neg hi, if_neg hi]
        rw [hkept, slice_patch_same hv]
      · exact ih hrest hothers hmem

end UCache.Lib
