/-
Module: UCache.Core.OriginRanges
Purpose: A read of the stitched file in the coordinates of the origin: whole original ranges for
  what was moved, the read's own range for what was not.
Trusted boundary: none
Main exports: ReplicaView.originRanges, OrigMapOk, OriginAnswer
-/
import UCache.Core.ReplicaView
import UCache.Lib.Tiles

namespace UCache

open Lib

namespace ReplicaView

/-- What of `[a, b)` the origin has. -/
def passThrough (originSize a b : Nat) : List OriginRange :=
  if a < min b originSize then [⟨a, min b originSize - a⟩] else []

/-- [SRC ReplicaStore.cc:78-95] The walk over the pieces from `pos` to `stop`. -/
def originFrom (originSize stop : Nat) : Nat → List OrigRange → List OriginRange
  | pos, [] => if pos < stop then passThrough originSize pos stop else []
  | pos, r :: rest =>
      if pos < stop then
        if stop ≤ r.virtOff then passThrough originSize pos stop
        else
          let gap := if pos < r.virtOff then passThrough originSize pos r.virtOff else []
          let at' := max pos r.virtOff
          let segEnd := min stop (add64 r.virtOff r.len)
          -- the whole original range, not a part of it
          if at' < segEnd then gap ++ ⟨r.origOff, r.origLen⟩ :: originFrom originSize stop segEnd rest
          else gap ++ originFrom originSize stop at' rest
      else []

/-- [SRC ReplicaStore.cc:55-96] The walk starts at the first piece that ends after `off`. -/
def originRanges (m : ReplicaMeta) (off len : Nat) : List OriginRange :=
  if m.origMap = [] ∨ len = 0 then []
  else
    let stop := min (add64 off len) m.virtualSize
    if stop ≤ off then []
    else
      originFrom m.originSize stop off
        (m.origMap.drop (search (fun r => decide (add64 r.virtOff r.len ≤ off)) m.origMap))

end ReplicaView

/-! ### Maps in order -/

def OrigRange.stop (r : OrigRange) : Nat := r.virtOff + r.len

/-- What the map of a built overlay is: in order, apart, inside the stitched file, and the originals
inside the origin. -/
structure OrigMapOk (m : ReplicaMeta) : Prop where
  nonempty : m.origMap ≠ []
  order : m.origMap.Pairwise fun a b => a.stop ≤ b.virtOff
  virt : ∀ r ∈ m.origMap, r.stop ≤ m.virtualSize
  orig : ∀ r ∈ m.origMap, r.origOff + r.origLen ≤ m.originSize
  size : m.originSize ≤ m.virtualSize
  fits : m.virtualSize < 2 ^ 64

/-- What a part of a request is in the origin's coordinates. -/
def tileRanges (originSize : Nat) (t : Tile OrigRange) : List OriginRange :=
  match t.what with
  | some r => [⟨r.origOff, r.origLen⟩]
  | none => ReplicaView.passThrough originSize t.lo t.hi

/-- The answer for `[lo, hi)`: the range is split, in virtual order, into the parts of the pieces it
touches and the gaps; a piece gives its whole original range, a gap what of it the origin has. -/
structure OriginAnswer (m : ReplicaMeta) (lo hi : Nat) (out : List OriginRange) : Prop where
  tiled : ∃ ts, Tiled lo ts hi ∧
    (∀ t ∈ ts, TileOk OrigRange.virtOff OrigRange.stop m.origMap lo hi t) ∧
    (∀ r ∈ m.origMap, max lo r.virtOff < min hi r.stop → ∃ t ∈ ts, t.what = some r) ∧
    out = ts.flatMap (tileRanges m.originSize)
  inside : ∀ r ∈ out, r.off + r.len ≤ m.originSize

namespace ReplicaView

theorem passThrough_le {originSize a b : Nat} {r : OriginRange} (h : r ∈ passThrough originSize a b) :
    r.off + r.len ≤ originSize := by
  unfold passThrough at h
  split at h
  · rw [List.mem_singleton] at h
    rw [h]
    show a + (min b originSize - a) ≤ originSize
    omega
  · exact absurd h List.not_mem_nil

theorem passThrough_gap (originSize a b : Nat) :
    (gap a b).flatMap (tileRanges originSize) = passThrough originSize a b := by
  unfold gap
  split
  · simp [tileRanges]
  · rw [passThrough, if_neg (by omega)]
    rfl

/-- The walk gives the ranges of the parts that the request is split into. -/
theorem originFrom_tiles {originSize stop : Nat} {rest : List OrigRange} {pos : Nat}
    (hfits : ∀ r ∈ rest, r.stop < 2 ^ 64) :
    originFrom originSize stop pos rest =
      (tiles OrigRange.virtOff OrigRange.stop stop pos rest).flatMap (tileRanges originSize) := by
  induction rest generalizing pos with
  | nil =>
      rw [originFrom, tiles, passThrough_gap]
      split
      · rfl
      · rw [passThrough, if_neg (by omega)]
  | cons r rest ih =>
      have hadd : add64 r.virtOff r.len = r.stop := Nat.mod_eq_of_lt (hfits r (by simp))
      have hrest : ∀ x ∈ rest, x.stop < 2 ^ 64 := fun x hx => hfits x (by simp [hx])
      rw [originFrom, tiles]
      by_cases hlt : pos < stop
      · rw [if_pos hlt, if_neg (show ¬stop ≤ pos by omega)]
        simp only [hadd, List.flatMap_append, passThrough_gap]
        by_cases hfar : stop ≤ r.virtOff
        · rw [if_pos hfar, if_neg (show ¬max pos r.virtOff < min stop r.stop by omega),
            tiles_done (by omega)]
          have hmin : min stop r.virtOff = stop := by omega
          simp [hmin]
        · have hmin : min stop r.virtOff = r.virtOff := by omega
          have hgap : (if pos < r.virtOff then passThrough originSize pos r.virtOff else []) =
              passThrough originSize pos r.virtOff := by
            split
            · rfl
            · rw [passThrough, if_neg (by omega)]
          rw [if_neg hfar, hmin, hgap]
          by_cases hseg : max pos r.virtOff < min stop r.stop
          · have hto : max (max pos r.virtOff) (min stop r.stop) = min stop r.stop := by omega
            rw [if_pos hseg, if_pos hseg, hto, ih hrest]
            simp [tileRanges]
          · have hto : max (max pos r.virtOff) (min stop r.stop) = max pos r.virtOff := by omega
            rw [if_neg hseg, if_neg hseg, hto, ih hrest]
            simp
      · rw [if_neg hlt, if_pos (by omega)]
        rfl

/-- Everything before the place found ends at or before `off`. -/
theorem before_search {m : ReplicaMeta} (h : OrigMapOk m) {off : Nat} {r : OrigRange}
    (hr : r ∈ m.origMap.take (search (fun r => decide (add64 r.virtOff r.len ≤ off)) m.origMap)) :
    r.stop ≤ off := by
  have hfits : ∀ x ∈ m.origMap, add64 x.virtOff x.len = x.stop := by
    intro x hx
    have hvirt := h.virt x hx
    have hsize := h.fits
    exact Nat.mod_eq_of_lt (show x.stop < 2 ^ 64 by omega)
  have hdown : m.origMap.Pairwise fun x y =>
      decide (add64 y.virtOff y.len ≤ off) = true → decide (add64 x.virtOff x.len ≤ off) = true := by
    apply h.order.imp_of_mem
    intro x y hx hy hxy hright
    have hstop : y.stop ≤ off := by
      rw [← hfits y hy]
      exact of_decide_eq_true hright
    apply decide_eq_true
    rw [hfits x hx]
    unfold OrigRange.stop at hxy hstop ⊢
    omega
  obtain ⟨i, hi, rfl⟩ := List.mem_iff_getElem.1 hr
  rw [List.length_take] at hi
  rw [List.getElem_take] at hr ⊢
  have hmem : m.origMap[i] ∈ m.origMap := List.getElem_mem _
  have hright := (search_iff hdown (List.getElem?_eq_getElem (by omega : i < m.origMap.length))).2
    (by omega)
  rw [hfits _ hmem] at hright
  simpa using hright

/-- A gap behind the stitched file gives nothing. -/
theorem gap_behind {m : ReplicaMeta} (h : OrigMapOk m) {a b : Nat} (ha : m.virtualSize ≤ a) :
    (∀ t ∈ (gap a b : List (Tile OrigRange)), ∀ lo hi,
      TileOk OrigRange.virtOff OrigRange.stop m.origMap lo hi t) ∧
      (gap a b).flatMap (tileRanges m.originSize) = [] := by
  constructor
  · intro t ht lo hi
    obtain ⟨hlo, -, hnone, -⟩ := mem_gap ht
    rw [TileOk, hnone]
    intro r hr
    left
    have := h.virt r hr
    omega
  · have hsize := h.size
    rw [passThrough_gap, passThrough, if_neg (by omega)]

/-- [SRC ReplicaStore.cc:55-96] The origin coordinates of a read, for a map in order. -/
theorem originRanges_spec {m : ReplicaMeta} (h : OrigMapOk m) {off len : Nat}
    (hwrap : off + len < 2 ^ 64) : OriginAnswer m off (off + len) (originRanges m off len) := by
  have hsize := h.size
  obtain ⟨ts, hts, hok, hout⟩ : ∃ ts, Tiled off ts (off + len) ∧
      (∀ t ∈ ts, TileOk OrigRange.virtOff OrigRange.stop m.origMap off (off + len) t) ∧
        originRanges m off len = ts.flatMap (tileRanges m.originSize) := by
    have hadd : add64 off len = off + len := Nat.mod_eq_of_lt hwrap
    unfold originRanges
    simp only [hadd]
    by_cases hlen : len = 0
    · subst hlen
      rw [if_pos (Or.inr rfl)]
      exact ⟨[], rfl, by simp, rfl⟩
    rw [if_neg (by simp [h.nonempty, hlen])]
    by_cases hpast : m.virtualSize ≤ off
    · rw [if_pos (by omega)]
      obtain ⟨hgap, hnone⟩ := @gap_behind m h off (off + len) hpast
      exact ⟨gap off (off + len), tiled_gap (by omega), fun t ht => hgap t ht _ _, hnone.symm⟩
    rw [if_neg (by omega)]
    -- the part inside the stitched file, and a gap behind it
    have hall := (List.take_append_drop
      (search (fun r => decide (add64 r.virtOff r.len ≤ off)) m.origMap) m.origMap).symm
    have hrest : ∀ r ∈ m.origMap.drop
        (search (fun r => decide (add64 r.virtOff r.len ≤ off)) m.origMap), r ∈ m.origMap :=
      fun r hr => List.mem_of_mem_drop hr
    have horder := h.order.sublist (List.drop_sublist
      (search (fun r => decide (add64 r.virtOff r.len ≤ off)) m.origMap) m.origMap)
    obtain ⟨htiled, hokIn⟩ := @tiles_spec _ OrigRange.virtOff OrigRange.stop m.origMap _ _ hall
      horder (fun r _ => Nat.le_add_right _ _) off (min (off + len) m.virtualSize) off (by omega)
      (fun _ r hr => before_search h hr) (fun _ _ => rfl)
    have hfits : ∀ r ∈ m.origMap.drop
        (search (fun r => decide (add64 r.virtOff r.len ≤ off)) m.origMap), r.stop < 2 ^ 64 := by
      intro r hr
      have hvirt := h.virt r (hrest r hr)
      have hsize := h.fits
      omega
    obtain ⟨hgap, hnone⟩ := @gap_behind m h (max m.virtualSize off) (off + len) (by omega)
    have hjoin : Tiled (min (off + len) m.virtualSize)
        (gap (max m.virtualSize off) (off + len) : List (Tile OrigRange)) (off + len) := by
      by_cases hlong : m.virtualSize < off + len
      · have hmin : min (off + len) m.virtualSize = m.virtualSize := by omega
        have hmax : max m.virtualSize off = m.virtualSize := by omega
        rw [hmin, hmax]
        exact tiled_gap (by omega)
      · have hmin : min (off + len) m.virtualSize = off + len := by omega
        rw [hmin, gap, if_neg (by omega)]
        rfl
    refine ⟨_, htiled.append hjoin, ?_, ?_⟩
    · intro t ht
      rcases List.mem_append.1 ht with ht | ht
      · have htile := hokIn t ht
        cases hwhat : t.what with
        | none =>
            rw [TileOk, hwhat] at htile ⊢
            exact htile
        | some r =>
            rw [TileOk, hwhat] at htile ⊢
            obtain ⟨hr, hlo, hhi⟩ := htile
            have hvirt := h.virt r hr
            exact ⟨hr, hlo, by omega⟩
      · exact hgap t ht _ _
    · rw [List.flatMap_append, hnone, List.append_nil, originFrom_tiles hfits]
  refine ⟨⟨ts, hts, hok, fun r hr htouch => tiles_touched hts hok h.order hr htouch, hout⟩, ?_⟩
  intro r hr
  rw [hout, List.mem_flatMap] at hr
  obtain ⟨t, ht, hmem⟩ := hr
  have htile := hok t ht
  cases hwhat : t.what with
  | none =>
      rw [tileRanges, hwhat] at hmem
      exact passThrough_le hmem
  | some x =>
      rw [TileOk, hwhat] at htile
      rw [tileRanges, hwhat, List.mem_singleton] at hmem
      rw [hmem]
      exact h.orig x htile.1

end ReplicaView

end UCache
