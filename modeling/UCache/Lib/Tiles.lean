/-
Module: UCache.Lib.Tiles
Purpose: Splitting a range of positions along an ordered list of spans: the parts that a span covers
  and the gaps between them.
Trusted boundary: none
Main exports: Tile, gap, tiles
-/
import Mathlib.Data.List.Basic

namespace UCache.Lib

universe u

variable {α : Type u}

/-- A part of a range: what covers it, or nothing for a gap. -/
structure Tile (α : Type u) where
  lo : Nat
  hi : Nat
  what : Option α

/-- The gap from `a` to `b`, when there is one. -/
def gap (a b : Nat) : List (Tile α) := if a < b then [⟨a, b, none⟩] else []

section Walk

variable (start stop : α → Nat) {l : List (Tile α)} {a b : Nat}

/-- The walk over the spans from `pos` to `hi`. -/
def tiles (hi : Nat) : Nat → List α → List (Tile α)
  | pos, [] => gap pos hi
  | pos, x :: rest =>
      if hi ≤ pos then []
      else
        let from_ := max pos (start x)
        let to_ := min hi (stop x)
        gap pos (min hi (start x)) ++
          ((if from_ < to_ then [⟨from_, to_, some x⟩] else []) ++ tiles hi (max from_ to_) rest)

/-- Parts that follow one another from `a` to `b`, none of them empty. -/
def Tiled : Nat → List (Tile α) → Nat → Prop
  | a, [], b => a = b
  | a, t :: rest, b => t.lo = a ∧ t.lo < t.hi ∧ Tiled t.hi rest b

/-- A part that a span covers is all of the span that lies in the range; a gap is apart from every
span. -/
def TileOk (l : List α) (lo hi : Nat) (t : Tile α) : Prop :=
  match t.what with
  | some x => x ∈ l ∧ t.lo = max lo (start x) ∧ t.hi = min hi (stop x)
  | none => ∀ x ∈ l, stop x ≤ t.lo ∨ t.hi ≤ start x

theorem Tiled.append {c : Nat} {l' : List (Tile α)} (h : Tiled a l b) (h' : Tiled b l' c) :
    Tiled a (l ++ l') c := by
  induction l generalizing a with
  | nil =>
      cases h
      exact h'
  | cons t rest ih => exact ⟨h.1, h.2.1, ih h.2.2⟩

theorem tiled_gap (h : a ≤ b) : Tiled a (gap a b : List (Tile α)) b := by
  unfold gap
  split
  · exact ⟨rfl, by assumption, rfl⟩
  · have hab : a = b := by omega
    exact hab

theorem mem_gap {t : Tile α} (h : t ∈ gap a b) : t.lo = a ∧ a < b ∧ t.what = none ∧ t.hi = b := by
  unfold gap at h
  split at h
  · rw [List.mem_singleton] at h
    rw [h]
    exact ⟨rfl, by assumption, rfl, rfl⟩
  · exact absurd h List.not_mem_nil

variable {start stop}

/-- Nothing is left once the end is reached. -/
theorem tiles_done {hi pos : Nat} (h : hi ≤ pos) (rest : List α) :
    tiles start stop hi pos rest = [] := by
  cases rest with
  | nil => rw [tiles, gap, if_neg (by omega)]
  | cons x rest => rw [tiles, if_pos h]

/-- The walk splits what is left of the range.  The spans before the walk end at or before `pos`,
and `pos` is where the range starts or before every span that is left. -/
theorem tiles_spec {l before rest : List α} (hall : l = before ++ rest)
    (horder : rest.Pairwise fun x y => stop x ≤ start y) (hspan : ∀ x ∈ rest, start x ≤ stop x)
    {lo hi pos : Nat} (hpos : pos ≤ hi) (hbefore : pos < hi → ∀ x ∈ before, stop x ≤ pos)
    (hafter : ∀ x ∈ rest, max pos (start x) = max lo (start x)) :
    Tiled pos (tiles start stop hi pos rest) hi ∧
      ∀ t ∈ tiles start stop hi pos rest, TileOk start stop l lo hi t := by
  induction rest generalizing before pos with
  | nil =>
      rw [tiles]
      refine ⟨tiled_gap hpos, ?_⟩
      intro t ht
      obtain ⟨hlo, hlt, hnone, -⟩ := mem_gap ht
      rw [TileOk, hnone]
      intro x hx
      rw [hall, List.append_nil] at hx
      left
      rw [hlo]
      exact hbefore hlt x hx
  | cons x rest ih =>
      rw [List.pairwise_cons] at horder
      have hx := hspan x (by simp)
      rw [tiles]
      by_cases hdone : hi ≤ pos
      · rw [if_pos hdone]
        have hend : pos = hi := by omega
        exact ⟨hend, by simp⟩
      rw [if_neg hdone]
      simp only
      -- a gap before `x` is apart from everything
      have hgap : ∀ t ∈ (gap pos (min hi (start x)) : List (Tile α)),
          TileOk start stop l lo hi t := by
        intro t ht
        obtain ⟨hlo, -, hnone, hhi⟩ := mem_gap ht
        rw [TileOk, hnone]
        intro y hy
        rw [hall] at hy
        rcases List.mem_append.1 hy with hy | hy
        · left
          rw [hlo]
          exact hbefore (by omega) y hy
        · right
          rcases List.mem_cons.1 hy with rfl | hy
          · omega
          · have := horder.1 y hy
            omega
      by_cases hfar : hi ≤ start x
      · have hnone : ¬max pos (start x) < min hi (stop x) := by omega
        rw [if_neg hnone, tiles_done (by omega), List.nil_append, List.append_nil]
        refine ⟨?_, hgap⟩
        have hmin : min hi (start x) = hi := by omega
        rw [hmin]
        exact tiled_gap hpos
      have hmin : min hi (start x) = start x := by omega
      have hnext := @ih (before ++ [x]) (by simp [hall]) horder.2
        (fun y hy => hspan y (by simp [hy])) (max (max pos (start x)) (min hi (stop x)))
        (by omega) ?_ ?_
      · obtain ⟨htiled, hok⟩ := hnext
        constructor
        · by_cases hseg : max pos (start x) < min hi (stop x)
          · rw [if_pos hseg]
            have hto : max (max pos (start x)) (min hi (stop x)) = min hi (stop x) := by omega
            rw [hto] at htiled ⊢
            by_cases hlt : pos < start x
            · have hfrom : max pos (start x) = start x := by omega
              rw [hmin, hfrom]
              rw [hfrom] at hseg
              exact (tiled_gap (by omega)).append ⟨rfl, hseg, htiled⟩
            · have hfrom : max pos (start x) = pos := by omega
              rw [hmin, gap, if_neg (by omega), List.nil_append, hfrom]
              rw [hfrom] at hseg
              exact ⟨rfl, hseg, htiled⟩
          · rw [if_neg hseg, List.nil_append]
            have hto : max (max pos (start x)) (min hi (stop x)) = max pos (start x) := by omega
            rw [hto] at htiled ⊢
            by_cases hlt : pos < start x
            · have hfrom : max pos (start x) = start x := by omega
              rw [hmin]
              rw [hfrom] at htiled ⊢
              exact (tiled_gap (by omega)).append htiled
            · have hfrom : max pos (start x) = pos := by omega
              rw [hmin, gap, if_neg (by omega), List.nil_append]
              rw [hfrom] at htiled ⊢
              exact htiled
        · intro t ht
          rcases List.mem_append.1 ht with ht | ht
          · exact hgap t ht
          rcases List.mem_append.1 ht with ht | ht
          · split at ht
            · rw [List.mem_singleton] at ht
              rw [ht, TileOk]
              refine ⟨by simp [hall], ?_, rfl⟩
              exact hafter x (by simp)
            · exact absurd ht List.not_mem_nil
          · exact hok t ht
      · intro hmore y hy
        rcases List.mem_append.1 hy with hy | hy
        · have := hbefore (by omega) y hy
          omega
        · rw [List.mem_singleton.1 hy]
          omega
      · intro y hy
        have hsame := hafter y (by simp [hy])
        have hafterX := horder.1 y hy
        omega

theorem Tiled.le (h : Tiled a l b) : a ≤ b := by
  induction l generalizing a with
  | nil => exact Nat.le_of_eq h
  | cons t rest ih =>
      have hrest := ih h.2.2
      have hstart := h.1
      have hlt := h.2.1
      omega

/-- No part passes the end. -/
theorem Tiled.hi_le (h : Tiled a l b) {t : Tile α} (ht : t ∈ l) : t.hi ≤ b := by
  induction l generalizing a with
  | nil => exact absurd ht List.not_mem_nil
  | cons t' rest ih =>
      rcases List.mem_cons.1 ht with rfl | ht
      · exact h.2.2.le
      · exact ih h.2.2 ht

/-- Parts that stay below a bound end below it. -/
theorem Tiled.end_le {n : Nat} (h : Tiled a l b) (ha : a ≤ n) (hall : ∀ t ∈ l, t.hi ≤ n) :
    b ≤ n := by
  induction l generalizing a with
  | nil =>
      cases h
      exact ha
  | cons t rest ih => exact ih h.2.2 (hall t (by simp)) fun t' ht' => hall t' (by simp [ht'])

/-- What a tiling of `[a, b)` holds at a position. -/
theorem Tiled.at (h : Tiled a l b) {v : Nat} (ha : a ≤ v) (hb : v < b) :
    ∃ t ∈ l, t.lo ≤ v ∧ v < t.hi := by
  induction l generalizing a with
  | nil =>
      cases h
      omega
  | cons t rest ih =>
      by_cases hv : v < t.hi
      · exact ⟨t, by simp, by have := h.1; omega, hv⟩
      · obtain ⟨t', ht', hlo, hhi⟩ := ih h.2.2 (by omega)
        exact ⟨t', by simp [ht'], hlo, hhi⟩

/-- Parts that start behind a position do not hold it. -/
theorem Tiled.none_before (h : Tiled a l b) {v : Nat} (hv : v < a) :
    l.countP (fun t => decide (t.lo ≤ v) && decide (v < t.hi)) = 0 := by
  induction l generalizing a with
  | nil => rfl
  | cons t rest ih =>
      have hlo : ¬ t.lo ≤ v := by
        have := h.1
        omega
      have hrest := ih h.2.2 (by have := h.1; have := h.2.1; omega)
      rw [List.countP_cons, hrest, decide_eq_false hlo]
      rfl

/-- One part of a tiling of `[a, b)` holds a position. -/
theorem Tiled.once (h : Tiled a l b) {v : Nat} (ha : a ≤ v) (hb : v < b) :
    l.countP (fun t => decide (t.lo ≤ v) && decide (v < t.hi)) = 1 := by
  induction l generalizing a with
  | nil =>
      cases h
      omega
  | cons t rest ih =>
      have hlo : t.lo ≤ v := by
        have := h.1
        omega
      rw [List.countP_cons, decide_eq_true hlo]
      by_cases hv : v < t.hi
      · rw [h.2.2.none_before hv, decide_eq_true hv]
        rfl
      · rw [ih h.2.2 (by omega), decide_eq_false hv]
        rfl

/-- A span that has positions in the range covers a part of it. -/
theorem tiles_touched {l : List α} {lo hi : Nat} {ts : List (Tile α)} (hts : Tiled lo ts hi)
    (hok : ∀ t ∈ ts, TileOk start stop l lo hi t)
    (horder : l.Pairwise fun x y => stop x ≤ start y) {x : α} (hx : x ∈ l)
    (htouch : max lo (start x) < min hi (stop x)) : ∃ t ∈ ts, t.what = some x := by
  obtain ⟨t, ht, hlo, hhi⟩ := hts.at (show lo ≤ max lo (start x) by omega) (by omega)
  refine ⟨t, ht, ?_⟩
  have htile := hok t ht
  cases hwhat : t.what with
  | none =>
      rw [TileOk, hwhat] at htile
      have := htile x hx
      omega
  | some y =>
      rw [TileOk, hwhat] at htile
      obtain ⟨hy, hylo, hyhi⟩ := htile
      by_contra hne
      have hdiff : x ≠ y := by
        rintro rfl
        exact hne rfl
      obtain ⟨i, hi', rfl⟩ := List.mem_iff_getElem.1 hx
      obtain ⟨j, hj, rfl⟩ := List.mem_iff_getElem.1 hy
      have hij : i ≠ j := by
        rintro rfl
        exact hdiff rfl
      rcases Nat.lt_or_gt_of_ne hij with hlt | hlt
      · have := List.pairwise_iff_getElem.1 horder i j hi' hj hlt
        omega
      · have := List.pairwise_iff_getElem.1 horder j i hj hi' hlt
        omega

end Walk

end UCache.Lib
