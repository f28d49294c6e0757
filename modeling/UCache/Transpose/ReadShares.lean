/-
Module: UCache.Transpose.ReadShares
Purpose: What a request reads does not depend on how it is cut: the groups of a list of ranges are
  those with a unit half covered by the ranges together.
Trusted boundary: none
Main exports: Built, Extents, cut_free
-/
import UCache.Transpose.ReadMap
import Mathlib.Data.List.TakeWhile

namespace UCache

open Lib

/-- The unit has the position. -/
def ReadUnit.Has (u : ReadUnit) (x : Nat) : Prop := u.off ≤ x ∧ x < u.off + u.len

open Classical in
/-- How many positions of the unit are in a set. -/
noncomputable def ReadUnit.covered (u : ReadUnit) (W : Nat → Prop) : Nat :=
  ((Finset.Ico u.off (u.off + u.len)).filter W).card

namespace ReadMap

/-! ### Maps as they are built -/

variable {m : ReadMap}

/-- The maps there are. -/
inductive Built : ReadMap → Prop
  | empty : Built {}
  | tree (fm : FileMeta) : Built (fromTree fm)
  | rntuple (rm : RNTupleMeta) : Built (fromRNTuple rm)

theorem sortUnits_sorted (units : List ReadUnit) :
    (sortUnits units).Pairwise fun u v => u.off ≤ v.off := by
  unfold sortUnits
  rw [List.pairwise_map]
  refine (List.pairwise_mergeSort (fun a b c hab hbc => ?_) (fun a b => ?_) _).imp fun h => ?_
  · rw [decide_eq_true_eq] at hab hbc ⊢
    exact Nat.le_trans hab hbc
  · rw [Bool.or_eq_true, decide_eq_true_eq, decide_eq_true_eq]
    exact Nat.le_total _ _
  · exact of_decide_eq_true h

/-- The units of the sorted list come through 32 bits. -/
theorem mem_sortUnits {units : List ReadUnit} {u : ReadUnit} (h : u ∈ sortUnits units) :
    ∃ i < 2 ^ 32, u = units.getD i {} := by
  obtain ⟨i, hi, rfl⟩ := List.mem_map.1 h
  obtain ⟨j, -, rfl⟩ := List.mem_map.1 (List.mem_mergeSort.1 hi)
  exact ⟨_, Nat.mod_lt _ (by omega), rfl⟩

theorem foldl_keepFirst_sublist (l kept : List ReadUnit) :
    (l.foldl keepFirst kept).Sublist (kept ++ l) := by
  induction l generalizing kept with
  | nil => rw [List.append_nil]; exact List.Sublist.refl kept
  | cons u l ih =>
      refine (ih (keepFirst kept u)).trans ?_
      unfold keepFirst
      split
      · exact (List.Sublist.refl kept).append (List.sublist_cons_self u l)
      · rw [List.append_assoc]
        exact List.Sublist.refl _

theorem unitsOfBranch_len {b : BranchInfo} {g : Nat} {u : ReadUnit} (h : u ∈ unitsOfBranch b g) :
    u.len < 2 ^ 32 := by
  unfold unitsOfBranch at h
  split at h
  · cases h
  · obtain ⟨p, -, hp⟩ := List.mem_filterMap.1 h
    split at hp
    · cases hp
    · cases hp
      show (p.2 % 2 ^ 32).toNat < 2 ^ 32
      omega

theorem unitsOfRange_len {cr : ColumnRange} {u : ReadUnit} (h : u ∈ unitsOfRange cr) :
    u.len < 2 ^ 32 := by
  obtain ⟨p, -, hp⟩ := List.mem_filterMap.1 h
  split at hp
  · cases hp
  · cases hp
    exact Nat.mod_lt _ (by omega)

/-- Units in order stay as they are. -/
theorem sortUnits_self {units : List ReadUnit} (h : units.Pairwise fun u v => u.off ≤ v.off)
    (hlen : units.length ≤ 2 ^ 32) : sortUnits units = units := by
  have hidx : ((List.range units.length).map fun i => i % 2 ^ 32) = List.range units.length := by
    refine (List.map_congr_left fun i hi => ?_).trans (List.map_id _)
    have := List.mem_range.1 hi
    exact Nat.mod_eq_of_lt (by omega)
  have hsorted : (List.range units.length).Pairwise
      fun a b => decide ((units.getD a {}).off ≤ (units.getD b {}).off) = true := by
    rw [List.pairwise_iff_getElem]
    intro i j hi hj hij
    rw [List.length_range] at hi hj
    rw [List.getElem_range, List.getElem_range, decide_eq_true_eq, List.getD_eq_getElem _ _ hi,
      List.getD_eq_getElem _ _ hj]
    exact List.pairwise_iff_getElem.1 h i j hi hj hij
  unfold sortUnits
  simp only
  rw [hidx, List.mergeSort_of_pairwise hsorted]
  refine List.ext_getElem (by simp) fun i hi hi' => ?_
  rw [List.getElem_map, List.getElem_range, List.getD_eq_getElem _ _ hi']

/-- What every map there is has. -/
structure Ordered (units : List ReadUnit) : Prop where
  sorted : units.Pairwise fun u v => u.off ≤ v.off
  short : ∀ u ∈ units, u.len < 2 ^ 32
  indexed : ∃ f : Nat → ReadUnit, ∀ u ∈ units, ∃ i < 2 ^ 32, u = f i

theorem ordered_sortUnits {units : List ReadUnit} (h : ∀ u ∈ units, u.len < 2 ^ 32) :
    Ordered (sortUnits units) := by
  refine ⟨sortUnits_sorted units, fun u hu => ?_, fun i => units.getD i {}, fun u => mem_sortUnits⟩
  obtain ⟨i, -, rfl⟩ := mem_sortUnits hu
  rw [List.getD_eq_getElem?_getD]
  cases hi : units[i]? with
  | none => decide
  | some v => exact h v (List.mem_of_getElem? hi)

theorem Built.ordered (h : Built m) : Ordered m.units := by
  cases h with
  | empty =>
      exact ⟨List.Pairwise.nil, fun u hu => absurd hu List.not_mem_nil, fun _ => {},
        fun u hu => absurd hu List.not_mem_nil⟩
  | tree fm =>
      refine ordered_sortUnits fun u hu => ?_
      obtain ⟨p, -, hp⟩ := List.mem_flatMap.1 hu
      exact unitsOfBranch_len hp
  | rntuple rm =>
      have hall : Ordered (sortUnits (rm.ranges.flatMap unitsOfRange)) := by
        refine ordered_sortUnits fun u hu => ?_
        obtain ⟨cr, -, hcr⟩ := List.mem_flatMap.1 hu
        exact unitsOfRange_len hcr
      have hsub : (fromRNTuple rm).units.Sublist (sortUnits (rm.ranges.flatMap unitsOfRange)) :=
        foldl_keepFirst_sublist _ []
      obtain ⟨f, hf⟩ := hall.indexed
      exact ⟨hall.sorted.sublist hsub, fun u hu => hall.short u (hsub.subset hu), f,
        fun u hu => hf u (hsub.subset hu)⟩

/-! ### Units as extents of a file -/

/-- Units of one or more bytes that end in 64 bits. -/
def Extents (units : List ReadUnit) : Prop := ∀ u ∈ units, 0 < u.len ∧ u.off + u.len < 2 ^ 64

/-- No two units share a position. -/
def DisjointUnits (units : List ReadUnit) : Prop :=
  units.Pairwise fun u v => ∀ x, ¬ (u.Has x ∧ v.Has x)

/-- Disjoint extents in order. -/
structure Laid (units : List ReadUnit) : Prop where
  extents : Extents units
  short : ∀ u ∈ units, u.len < 2 ^ 32
  apart : units.Pairwise fun u v => u.off + u.len ≤ v.off
  count : units.length ≤ 2 ^ 32

theorem Ordered.laid {units : List ReadUnit} (h : Ordered units) (hext : Extents units)
    (hdis : DisjointUnits units) : Laid units := by
  have hapart : units.Pairwise fun u v => u.off + u.len ≤ v.off := by
    refine (h.sorted.and hdis).imp_of_mem ?_
    rintro u v - hv ⟨hle, hno⟩
    by_contra hlt
    have hpos := (hext v hv).1
    exact hno v.off ⟨⟨hle, by omega⟩, Nat.le_refl _, by omega⟩
  refine ⟨hext, h.short, hapart, ?_⟩
  have hnodup : units.Nodup := by
    refine hapart.imp_of_mem ?_
    rintro u v hu - hle rfl
    have := (hext u hu).1
    omega
  obtain ⟨f, hf⟩ := h.indexed
  have hsub : units ⊆ (List.range (2 ^ 32)).map f := by
    intro u hu
    obtain ⟨i, hi, rfl⟩ := hf u hu
    exact List.mem_map_of_mem (List.mem_range.2 hi)
  have hle := (hnodup.subperm hsub).length_le
  rwa [List.length_map, List.length_range] at hle

/-! ### The units of one range -/

section Range

variable {m : ReadMap} (hm : Laid m.units)
include hm

theorem stop_eq {u : ReadUnit} (hu : u ∈ m.units) : u.stop = u.off + u.len :=
  Nat.mod_eq_of_lt (hm.extents u hu).2

theorem sorted_zipIdx : m.units.zipIdx.Pairwise fun p q => p.1.off + p.1.len ≤ q.1.off := by
  have h := hm.apart
  rw [← List.zipIdx_map_fst 0 m.units, List.pairwise_map] at h
  exact h

/-- The units in front of those looked at end before the range. -/
theorem before_unitsFrom {a : Nat} {p : ReadUnit × Nat} (h : p ∈ m.units.zipIdx.take (m.firstUnit a)) :
    p.1.off + p.1.len ≤ a := by
  have hmono : m.units.Pairwise fun u v =>
      decide (v.off ≤ a) = true → decide (u.off ≤ a) = true := by
    refine hm.apart.imp fun huv hv => ?_
    rw [decide_eq_true_eq] at hv ⊢
    omega
  obtain ⟨i, hi, rfl⟩ := List.mem_take_iff_getElem.1 h
  have hlt : i < m.firstUnit a := by omega
  have hlen : i < m.units.length := by
    rw [List.length_zipIdx] at hi
    omega
  have hspec := (search_spec (fun u => decide (u.off ≤ a)) m.units).before (m.firstUnit a) (by
    unfold firstUnit at hlt ⊢
    omega)
  obtain ⟨v, hv, hright⟩ := hspec
  rw [decide_eq_true_eq] at hright
  obtain ⟨hj, hvj⟩ := List.getElem?_eq_some_iff.1 hv
  have hle := List.pairwise_iff_getElem.1 hm.apart i (m.firstUnit a) hlen hj hlt
  rw [hvj] at hle
  rw [List.getElem_zipIdx]
  simp only
  omega

/-- The overlap of a range and a unit. -/
def overlap (r : Nat × Nat) (u : ReadUnit) : Nat := min r.2 (u.off + u.len) - max r.1 u.off

/-- What is covered of a unit: nothing is in the list where there is no overlap. -/
def coverage (r : Nat × Nat) (p : ReadUnit × Nat) : Option (Nat × Nat) :=
  if overlap r p.1 = 0 then none else some (p.2, overlap r p.1)

/-- The search leaves out no unit that overlaps the range. -/
theorem coveredBy_eq {r : Nat × Nat} (hr : r.1 < r.2) (hr64 : r.2 < 2 ^ 64) :
    m.coveredBy r = m.units.zipIdx.filterMap (coverage r) := by
  have hmem : ∀ p ∈ m.units.zipIdx, p.1 ∈ m.units ∧ p.2 < m.units.length := by
    rintro ⟨u, k⟩ hp
    have hat := List.mem_zipIdx_iff_getElem?.1 hp
    exact ⟨List.mem_of_getElem? hat, (List.getElem?_eq_some_iff.1 hat).1⟩
  have hskip : ∀ l : List (ReadUnit × Nat), (∀ p ∈ l, overlap r p.1 = 0) →
      l.filterMap (coverage r) = [] := by
    intro l hl
    rw [List.filterMap_eq_nil_iff]
    exact fun p hp => if_pos (hl p hp)
  have hsplit : m.units.zipIdx = m.units.zipIdx.take (m.firstUnit r.1) ++ (m.unitsFrom r ++
      (m.units.zipIdx.drop (m.firstUnit r.1)).dropWhile fun p => p.1.off < r.2) := by
    unfold unitsFrom
    rw [List.takeWhile_append_dropWhile, List.take_append_drop]
  have hfront : (m.units.zipIdx.take (m.firstUnit r.1)).filterMap (coverage r) = [] := by
    refine hskip _ fun p hp => ?_
    have := before_unitsFrom hm hp
    unfold overlap
    omega
  have hback : ((m.units.zipIdx.drop (m.firstUnit r.1)).dropWhile fun p => p.1.off < r.2).filterMap
      (coverage r) = [] := by
    refine hskip _ fun p hp => ?_
    have hsorted := ((sorted_zipIdx hm).drop (i := m.firstUnit r.1)).sublist
      (List.dropWhile_sublist fun p => decide (p.1.off < r.2))
    have hstop : r.2 ≤ p.1.off := by
      cases hrest : (m.units.zipIdx.drop (m.firstUnit r.1)).dropWhile
          fun p => decide (p.1.off < r.2) with
      | nil =>
          rw [hrest] at hp
          cases hp
      | cons q rest =>
          have hq : ¬ q.1.off < r.2 := by
            have := List.head?_dropWhile_not (fun p : ReadUnit × Nat => decide (p.1.off < r.2))
              (m.units.zipIdx.drop (m.firstUnit r.1))
            rw [hrest] at this
            simpa using this
          rw [hrest] at hp hsorted
          rcases List.mem_cons.1 hp with rfl | hp
          · omega
          · have := (List.pairwise_cons.1 hsorted).1 p hp
            omega
    unfold overlap
    omega
  unfold coveredBy
  rw [hsplit, List.filterMap_append, List.filterMap_append, hfront, hback, List.nil_append,
    List.append_nil]
  refine List.filterMap_congr fun p hp => ?_
  unfold unitsFrom at hp
  have hlt : p.1.off < r.2 := by
    simpa using List.mem_takeWhile_imp hp
  obtain ⟨hu, hk⟩ := hmem p (List.mem_of_mem_drop ((List.takeWhile_sublist _).subset hp))
  have hpos := (hm.extents _ hu).1
  have hend := (hm.extents _ hu).2
  have hcount := hm.count
  rw [stop_eq hm hu]
  unfold coverage overlap
  by_cases hin : r.1 < p.1.off + p.1.len
  · rw [if_pos hin, if_neg (by omega), Nat.mod_eq_of_lt (by omega),
      sub64_of_le (by omega) (by omega)]
  · rw [if_neg hin, if_pos (by omega)]

end Range

/-- What is covered of the unit of a number. -/
theorem keySum_coverage (r : Nat × Nat) (units : List ReadUnit) (k : Nat) :
    keySum k (units.zipIdx.filterMap (coverage r)) =
      ((units[k]?).map (overlap r)).getD 0 := by
  have hfrom : ∀ (l : List ReadUnit) (n : Nat),
      keySum (n + k) ((l.zipIdx n).filterMap (coverage r)) = ((l[k]?).map (overlap r)).getD 0 := by
    intro l
    induction l generalizing k with
    | nil => exact fun _ => rfl
    | cons u l ih =>
        intro n
        have hfirst : keySum (n + k) (coverage r (u, n)).toList =
            if k = 0 then overlap r u else 0 := by
          unfold coverage
          by_cases hover : overlap r u = 0
          · rw [if_pos hover, hover]
            simp [keySum]
          · rw [if_neg hover]
            by_cases hk : k = 0 <;> simp [keySum, hk]
        have hcons : ((u :: l).zipIdx n).filterMap (coverage r) =
            (coverage r (u, n)).toList ++ (l.zipIdx (n + 1)).filterMap (coverage r) := by
          rw [List.zipIdx_cons, List.filterMap_cons]
          cases coverage r (u, n) <;> rfl
        rw [hcons, keySum_append, hfirst]
        cases k with
        | zero =>
            have hrest : keySum (n + 0) ((l.zipIdx (n + 1)).filterMap (coverage r)) = 0 := by
              refine keySum_eq_zero fun q hq => ?_
              obtain ⟨p, hp, hpq⟩ := List.mem_filterMap.1 hq
              have hle := (List.mem_zipIdx hp).1
              unfold coverage at hpq
              split at hpq
              · cases hpq
              · cases hpq
                simp only
                omega
            rw [hrest]
            rfl
        | succ k =>
            have hnext := ih k (n + 1)
            rw [show n + 1 + k = n + (k + 1) by omega] at hnext
            rw [hnext, if_neg (Nat.succ_ne_zero k), Nat.zero_add, List.getElem?_cons_succ]
  simpa using hfrom units 0

/-! ### Merged ranges -/

theorem sorted_pairs (l : List (Nat × Nat)) :
    (l.mergeSort fun p q => decide (p.1 < q.1) || (decide (p.1 = q.1) && decide (p.2 ≤ q.2))).Pairwise
      fun p q => p.1 ≤ q.1 := by
  refine (List.pairwise_mergeSort (fun p q r hpq hqr => ?_) (fun p q => ?_) l).imp fun h => ?_
  · simp only [Bool.or_eq_true, Bool.and_eq_true, decide_eq_true_eq] at hpq hqr ⊢
    omega
  · simp only [Bool.or_eq_true, Bool.and_eq_true, decide_eq_true_eq]
    omega
  · simp only [Bool.or_eq_true, Bool.and_eq_true, decide_eq_true_eq] at h
    omega

/-- Ranges that end in 64 bits. -/
def Bounded (ranges : List (Nat × Nat)) : Prop := ∀ r ∈ ranges, r.1 + r.2 < 2 ^ 64

/-- The positions the ranges have together, from the head on that is not counted. -/
def Asked (m : ReadMap) (ranges : List (Nat × Nat)) (x : Nat) : Prop :=
  m.headSkip ≤ x ∧ ∃ r ∈ ranges, r.1 ≤ x ∧ x < r.1 + r.2

theorem clip_eq {r : Nat × Nat} (h : r.1 + r.2 < 2 ^ 64) : m.clip r =
    if max r.1 m.headSkip < r.1 + r.2 then some (max r.1 m.headSkip, r.1 + r.2) else none := by
  unfold clip
  rw [add64, Nat.mod_eq_of_lt h]
  by_cases hr : r.2 = 0
  · rw [if_pos (.inl hr), if_neg (by omega)]
  · rw [if_neg (by omega)]

theorem mergeRanges_spec {ranges : List (Nat × Nat)} (h : Bounded ranges) :
    Coalesced (m.mergeRanges ranges) ∧ (∀ x, Within (m.mergeRanges ranges) x ↔ Asked m ranges x) ∧
      ∀ r ∈ m.mergeRanges ranges, r.1 < r.2 ∧ r.2 < 2 ^ 64 := by
  have hspan : ∀ s ∈ ranges.filterMap m.clip, s.1 < s.2 ∧ s.2 < 2 ^ 64 := by
    intro s hs
    obtain ⟨r, hr, hclip⟩ := List.mem_filterMap.1 hs
    rw [clip_eq (h r hr)] at hclip
    split at hclip
    · rename_i hlt
      cases hclip
      exact ⟨hlt, h r hr⟩
    · cases hclip
  have hasked : ∀ x, Within (ranges.filterMap m.clip) x ↔ Asked m ranges x := by
    intro x
    constructor
    · rintro ⟨s, hs, h1, h2⟩
      obtain ⟨r, hr, hclip⟩ := List.mem_filterMap.1 hs
      rw [clip_eq (h r hr)] at hclip
      split at hclip
      · cases hclip
        simp only at h1 h2
        exact ⟨by omega, r, hr, by omega, h2⟩
      · cases hclip
    · rintro ⟨hskip, r, hr, h1, h2⟩
      refine ⟨(max r.1 m.headSkip, r.1 + r.2), List.mem_filterMap.2 ⟨r, hr, ?_⟩, by simp only; omega,
        h2⟩
      rw [clip_eq (h r hr), if_pos (by omega)]
  unfold mergeRanges
  have hperm := List.mergeSort_perm (ranges.filterMap m.clip)
    fun p q => decide (p.1 < q.1) || (decide (p.1 = q.1) && decide (p.2 ≤ q.2))
  have hsorted := sorted_pairs (ranges.filterMap m.clip)
  generalize (ranges.filterMap m.clip).mergeSort
    (fun p q => decide (p.1 < q.1) || (decide (p.1 = q.1) && decide (p.2 ≤ q.2))) = spans
    at hperm hsorted ⊢
  have hspan' : ∀ s ∈ spans, s.1 < s.2 ∧ s.2 < 2 ^ 64 := fun s hs => hspan s (hperm.mem_iff.1 hs)
  have hnil : Coalesced [] := ⟨by simp, List.Pairwise.nil⟩
  obtain ⟨hco, hwithin⟩ := foldl_addSpan hnil (fun s hs => Nat.le_of_lt (hspan' s hs).1) hsorted
    (by simp)
  refine ⟨hco, fun x => ?_, fun r hr => ⟨?_, ?_⟩⟩
  · rw [hwithin, ← hasked]
    simp only [within_nil, false_or]
    exact exists_congr fun s => and_congr_left' hperm.mem_iff
  · exact foldl_addSpan_strict hnil (by simp) (fun s hs => (hspan' s hs).1) r hr
  · obtain ⟨-, s, hs, heq⟩ := foldl_addSpan_mem hnil
      (fun s hs => Nat.le_of_lt (hspan' s hs).1) hr
    rw [← heq]
    exact (hspan' s hs).2

/-! ### The groups read -/

theorem keySum_flatMap (k : Nat) (l : List (Nat × Nat)) (f : Nat × Nat → List (Nat × Nat)) :
    keySum k (l.flatMap f) = (l.map fun r => keySum k (f r)).sum := by
  induction l with
  | nil => rfl
  | cons r l ih => rw [List.flatMap_cons, keySum_append, ih, List.map_cons, List.sum_cons]

section Groups

variable {m : ReadMap} (hm : Laid m.units) {ranges : List (Nat × Nat)} (hr : Bounded ranges)
include hm hr

/-- What the loop over the merged ranges counts for a unit is what they cover of it together. -/
theorem keySum_covered (k : Nat) : keySum k ((m.mergeRanges ranges).flatMap m.coveredBy) =
    ((m.units[k]?).map fun u => u.covered (Asked m ranges)).getD 0 := by
  obtain ⟨hco, hwithin, hrange⟩ := mergeRanges_spec (m := m) hr
  have heach : ∀ r ∈ m.mergeRanges ranges, keySum k (m.coveredBy r) =
      ((m.units[k]?).map (overlap r)).getD 0 := by
    intro r hr
    rw [coveredBy_eq hm (hrange r hr).1 (hrange r hr).2, keySum_coverage]
  rw [keySum_flatMap, List.map_congr_left heach]
  cases hk : m.units[k]? with
  | none => simp
  | some u =>
      have hset : Within (m.mergeRanges ranges) = Asked m ranges := funext fun x => propext (hwithin x)
      simp only [Option.map_some, Option.getD_some]
      unfold ReadUnit.covered
      rw [← hset, hco.card_within]
      refine congrArg List.sum (List.map_congr_left fun r _ => ?_)
      unfold overlap
      rw [Nat.min_comm, Nat.max_comm]

omit hm hr in
open Classical in
theorem covered_le (u : ReadUnit) (W : Nat → Prop) : u.covered W ≤ u.len := by
  unfold ReadUnit.covered
  refine (Finset.card_filter_le _ _).trans ?_
  rw [Nat.card_Ico]
  omega

/-- The groups found are those with a unit at least half of which the ranges have together. -/
theorem mem_groupsOf {g : Nat} : g ∈ m.groupsOf ranges ↔
    ∃ u ∈ m.units, u.group = g ∧ u.len ≤ 2 * u.covered (Asked m ranges) := by
  let covered := (m.mergeRanges ranges).flatMap m.coveredBy
  let sorted := covered.mergeSort
    fun p q => decide (p.1 < q.1) || (decide (p.1 = q.1) && decide (p.2 ≤ q.2))
  have hperm : sorted.Perm covered := List.mergeSort_perm _ _
  have hsum : ∀ k, keySum k sorted =
      ((m.units[k]?).map fun u => u.covered (Asked m ranges)).getD 0 := fun k =>
    (keySum_perm k hperm).trans (keySum_covered hm hr k)
  have hsmall : ∀ k, keySum k sorted < 2 ^ 64 := by
    intro k
    rw [hsum]
    cases hk : m.units[k]? with
    | none => exact Nat.two_pow_pos 64
    | some u =>
        have hle := covered_le u (Asked m ranges)
        have hlen := (hm.extents u (List.mem_of_getElem? hk)).2
        simp only [Option.map_some, Option.getD_some]
        omega
  have hsums := foldl_addByKey (sorted_pairs covered) hsmall
  have hgroups : g ∈ m.groupsOf ranges ↔
      ∃ p ∈ sorted.foldl (addByKey (2 ^ 64)) [], m.halfCovered p = some g := by
    unfold groupsOf
    simp only
    rw [mem_unique, List.mem_mergeSort, List.mem_filterMap]
    simp only [List.mem_reverse]
    rfl
  rw [hgroups]
  constructor
  · rintro ⟨⟨k, n⟩, hp, hhalf⟩
    obtain ⟨-, rfl⟩ := (hsums.mem k n).1 hp
    unfold halfCovered at hhalf
    cases hk : m.units[k]? with
    | none =>
        simp only [hk] at hhalf
        cases hhalf
    | some u =>
        simp only [hk] at hhalf
        split at hhalf
        · rename_i hle
          refine ⟨u, List.mem_of_getElem? hk, Option.some.inj hhalf, ?_⟩
          have hcov := hsum k
          rw [hk] at hcov
          simp only [Option.map_some, Option.getD_some] at hcov
          rw [hcov] at hle
          have hmod := Nat.mod_le (2 * u.covered (Asked m ranges)) (2 ^ 64)
          omega
        · cases hhalf
  · rintro ⟨u, hu, rfl, hhalf⟩
    obtain ⟨k, hk⟩ := List.mem_iff_getElem?.1 hu
    have hcov := hsum k
    rw [hk] at hcov
    simp only [Option.map_some, Option.getD_some] at hcov
    have hpos := (hm.extents u hu).1
    have hshort := hm.short u hu
    have hle := covered_le u (Asked m ranges)
    have hin : ∃ p ∈ sorted, p.1 = k := by
      by_contra hno
      have hzero : keySum k sorted = 0 := keySum_eq_zero fun p hp heq => hno ⟨p, hp, heq⟩
      omega
    refine ⟨(k, keySum k sorted), (hsums.mem k _).2 ⟨hin, rfl⟩, ?_⟩
    unfold halfCovered
    simp only [hk]
    rw [hcov, if_pos (by omega)]

omit hm hr in
theorem groupsOf_ascending : Ascending (m.groupsOf ranges) := by
  unfold groupsOf
  simp only
  refine unique_ascending ((List.pairwise_mergeSort (fun a b c hab hbc => ?_) (fun a b => ?_)
    _).imp fun h => of_decide_eq_true h)
  · rw [decide_eq_true_eq] at hab hbc ⊢
    omega
  · rw [Bool.or_eq_true, decide_eq_true_eq, decide_eq_true_eq]
    omega

end Groups

/-! ### Touching data -/

section Touches

variable {m : ReadMap} (hm : Laid m.units)
include hm

theorem dataRuns_spec : Coalesced m.dataRuns ∧
    ∀ x, Within m.dataRuns x ↔ m.headSkip ≤ x ∧ ∃ u ∈ m.units, u.Has x := by
  let runOf (u : ReadUnit) : Option (Nat × Nat) :=
    if u.stop ≤ max u.off m.headSkip then none else some (max u.off m.headSkip, u.stop)
  have hfold : ∀ (l : List ReadUnit) (runs : List (Nat × Nat)),
      l.foldl (fun runs u => if u.stop ≤ max u.off m.headSkip then runs
        else addSpan runs (max u.off m.headSkip, u.stop)) runs =
      (l.filterMap runOf).foldl addSpan runs := by
    intro l
    induction l with
    | nil => exact fun _ => rfl
    | cons u l ih =>
        intro runs
        rw [List.foldl_cons, ih, List.filterMap_cons]
        by_cases hu : u.stop ≤ max u.off m.headSkip
        · simp only [runOf, if_pos hu]
        · simp only [runOf, if_neg hu, List.foldl_cons]
  have hrun : ∀ s ∈ m.units.filterMap runOf, ∃ u ∈ m.units,
      s = (max u.off m.headSkip, u.off + u.len) ∧ s.1 < s.2 := by
    intro s hs
    obtain ⟨u, hu, hsome⟩ := List.mem_filterMap.1 hs
    have hstop := stop_eq hm hu
    simp only [runOf] at hsome
    split at hsome
    · cases hsome
    · cases hsome
      exact ⟨u, hu, by rw [hstop], by simp only; omega⟩
  have hsorted : (m.units.filterMap runOf).Pairwise fun a b => a.1 ≤ b.1 := by
    refine List.Pairwise.filterMap _ (fun u v huv s hs t ht => ?_) hm.apart
    simp only [runOf] at hs ht
    split at hs
    · cases hs
    · cases hs
      split at ht
      · cases ht
      · cases ht
        simp only
        omega
  unfold dataRuns
  rw [hfold]
  obtain ⟨hco, hwithin⟩ := @foldl_addSpan (m.units.filterMap runOf) [] ⟨by simp, List.Pairwise.nil⟩
    (fun s hs => by obtain ⟨-, -, -, h⟩ := hrun s hs; exact Nat.le_of_lt h) hsorted (by simp)
  refine ⟨hco, fun x => ?_⟩
  rw [hwithin]
  simp only [within_nil, false_or]
  constructor
  · rintro ⟨s, hs, h1, h2⟩
    obtain ⟨u, hu, rfl, -⟩ := hrun s hs
    exact ⟨by simp only at h1; omega, u, hu, by simp only at h1; omega, h2⟩
  · rintro ⟨hskip, u, hu, h1, h2⟩
    refine ⟨(max u.off m.headSkip, u.off + u.len), List.mem_filterMap.2 ⟨u, hu, ?_⟩, ?_, h2⟩
    · simp only [runOf]
      rw [stop_eq hm hu, if_neg (by omega)]
    · simp only
      omega

/-- A stretch touches a unit when it has a position of one. -/
theorem touches_iff {off len : Nat} (h : off + len < 2 ^ 64) : m.touches off len = true ↔
    ∃ x, off ≤ x ∧ x < off + len ∧ m.headSkip ≤ x ∧ ∃ u ∈ m.units, u.Has x := by
  have hadd : add64 off len = off + len := Nat.mod_eq_of_lt h
  unfold touches
  by_cases hnone : m.units = [] ∨ len = 0
  · rw [if_pos hnone]
    refine ⟨fun hfalse => (by cases hfalse), ?_⟩
    rintro ⟨x, h1, h2, -, u, hu, -⟩
    rcases hnone with hnil | rfl
    · rw [hnil] at hu
      cases hu
    · omega
  · rw [if_neg hnone, hadd]
    by_cases hempty : off + len ≤ max off m.headSkip
    · rw [if_pos hempty]
      refine ⟨fun hfalse => (by cases hfalse), ?_⟩
      rintro ⟨x, h1, h2, h3, -⟩
      omega
    · rw [if_neg hempty]
      have hcov := coveredBy_eq hm (r := (max off m.headSkip, off + len)) (by simp only; omega) h
      have hany : ((m.unitsFrom (max off m.headSkip, off + len)).any fun p =>
          decide (max off m.headSkip < p.1.stop)) = true ↔
            m.coveredBy (max off m.headSkip, off + len) ≠ [] := by
        unfold coveredBy
        rw [List.any_eq_true, Ne, List.filterMap_eq_nil_iff]
        constructor
        · rintro ⟨p, hp, hlt⟩ hall
          have hnil := hall p hp
          rw [if_pos (of_decide_eq_true hlt)] at hnil
          cases hnil
        · intro hno
          by_contra hnone
          refine hno fun p hp => if_neg fun hlt => hnone ⟨p, hp, decide_eq_true hlt⟩
      rw [hany, hcov, Ne, List.filterMap_eq_nil_iff]
      constructor
      · intro hno
        by_contra hnone
        refine hno fun p hp => if_pos ?_
        by_contra hover
        have hu := List.mem_of_getElem? (List.mem_zipIdx_iff_getElem?.1 hp)
        unfold overlap at hover
        simp only at hover
        exact hnone ⟨max (max off m.headSkip) p.1.off, by omega, by omega, by omega, p.1, hu,
          by omega, by omega⟩
      · rintro ⟨x, h1, h2, h3, u, hu, hx₁, hx₂⟩ hall
        obtain ⟨k, hk⟩ := List.mem_iff_getElem?.1 hu
        have hnil := hall (u, k) (List.mem_zipIdx_iff_getElem?.2 hk)
        have hover : overlap (max off m.headSkip, off + len) u ≠ 0 := by
          unfold overlap
          simp only
          omega
        unfold coverage at hnil
        rw [if_neg hover] at hnil
        cases hnil

end Touches

/-! ### Steps -/

/-- A call of `step` with its ranges and its limit. -/
abbrev StepCall := List (Nat × Nat) × Int

/-- The groups seen after calls of `step`. -/
def seenAfter (m : ReadMap) (seen : List Nat) (calls : List StepCall) : List Nat :=
  calls.foldl (fun seen c => (m.step seen c.1 c.2).2.1) seen

theorem step_seen (m : ReadMap) (seen : List Nat) (ranges : List (Nat × Nat)) (limit : Int) :
    (m.step seen ranges limit).2.1 = seen ∨
      (m.step seen ranges limit).2.1 = setUnion seen (m.groupsOf ranges) := by
  unfold step
  dsimp only
  split
  · exact .inl rfl
  · refine .inr ?_
    split
    · rfl
    · split <;> rfl

theorem step_grows {seen : List Nat} (h : Ascending seen) (ranges : List (Nat × Nat))
    (limit : Int) : Ascending (m.step seen ranges limit).2.1 ∧
      ∀ g ∈ seen, g ∈ (m.step seen ranges limit).2.1 := by
  rcases step_seen m seen ranges limit with heq | heq
  · rw [heq]
    exact ⟨h, fun g hg => hg⟩
  · rw [heq]
    exact ⟨setUnion_ascending h groupsOf_ascending, fun g hg => mem_setUnion.2 (.inl hg)⟩

theorem seenAfter_grows {seen : List Nat} (h : Ascending seen) (calls : List StepCall) :
    Ascending (m.seenAfter seen calls) ∧ ∀ g ∈ seen, g ∈ m.seenAfter seen calls := by
  induction calls generalizing seen with
  | nil => exact ⟨h, fun g hg => hg⟩
  | cons c calls ih =>
      obtain ⟨hstep, hkeep⟩ := step_grows (m := m) h c.1 c.2
      obtain ⟨hasc, hrest⟩ := ih hstep
      exact ⟨hasc, fun g hg => hrest g (hkeep g hg)⟩

/-! ### The rule -/

/-- What a request reads does not depend on how it is cut. -/
structure CutFree (m : ReadMap) : Prop where
  ascending : ∀ ranges, Ascending (m.groupsOf ranges)
  exact : ∀ ranges, Bounded ranges → ∀ g, g ∈ m.groupsOf ranges ↔
    ∃ u ∈ m.units, u.group = g ∧ u.len ≤ 2 * u.covered (Asked m ranges)
  union : ∀ ranges ranges', Bounded ranges → Bounded ranges' →
    (∀ x, (∃ r ∈ ranges, r.1 ≤ x ∧ x < r.1 + r.2) ↔ ∃ r ∈ ranges', r.1 ≤ x ∧ x < r.1 + r.2) →
      m.groupsOf ranges = m.groupsOf ranges'
  touches : ∀ off len, off + len < 2 ^ 64 → (m.touches off len = true ↔
    ∃ r ∈ m.dataRuns, ∃ x, off ≤ x ∧ x < off + len ∧ r.1 ≤ x ∧ x < r.2)
  steps : ∀ seen, Ascending seen → ∀ calls more, Ascending (m.seenAfter seen calls) ∧
    ∀ g ∈ m.seenAfter seen calls, g ∈ m.seenAfter seen (calls ++ more)

/-- For every map there is whose units are extents that share no position. -/
theorem cut_free {m : ReadMap} (hbuilt : Built m) (hext : Extents m.units)
    (hdis : DisjointUnits m.units) : CutFree m := by
  have hm := hbuilt.ordered.laid hext hdis
  refine ⟨fun _ => groupsOf_ascending, fun ranges hr g => mem_groupsOf hm hr, ?_, ?_, ?_⟩
  · intro ranges ranges' hr hr' hsame
    refine groupsOf_ascending.eq groupsOf_ascending fun g => ?_
    have hasked : Asked m ranges = Asked m ranges' := by
      funext x
      exact propext (and_congr_right fun _ => hsame x)
    rw [mem_groupsOf hm hr, mem_groupsOf hm hr', hasked]
  · intro off len h
    rw [touches_iff hm h]
    obtain ⟨-, hwithin⟩ := dataRuns_spec hm
    constructor
    · rintro ⟨x, h1, h2, hx⟩
      obtain ⟨r, hr, h3, h4⟩ := (hwithin x).2 hx
      exact ⟨r, hr, x, h1, h2, h3, h4⟩
    · rintro ⟨r, hr, x, h1, h2, h3, h4⟩
      exact ⟨x, h1, h2, (hwithin x).1 ⟨r, hr, h3, h4⟩⟩
  · intro seen hseen calls more
    obtain ⟨hasc, -⟩ := seenAfter_grows (m := m) hseen calls
    refine ⟨hasc, fun g hg => ?_⟩
    have happend : m.seenAfter seen (calls ++ more) = m.seenAfter (m.seenAfter seen calls) more :=
      List.foldl_append
    rw [happend]
    exact (seenAfter_grows hasc more).2 g hg

/-- Two branches with baskets side by side. -/
def twoBranches : ReadMap :=
  fromTree { branches := [{ basketSeek := [100], basketBytes := [100] },
                          { basketSeek := [200], basketBytes := [400] }] }

/-- The shares of two branches do not depend on how reads are cut. -/
theorem twoBranches_cut_free : CutFree twoBranches := by
  have hunits : twoBranches.units = [⟨100, 100, 0⟩, ⟨200, 400, 1⟩] :=
    @sortUnits_self [⟨100, 100, 0⟩, ⟨200, 400, 1⟩] (by simp) (by decide)
  refine cut_free (.tree _) ?_ ?_
  · show Extents twoBranches.units
    rw [hunits]
    simp [Extents]
  · show DisjointUnits twoBranches.units
    rw [hunits]
    refine List.pairwise_pair.2 fun x hx => ?_
    simp only [ReadUnit.Has] at hx
    omega

/-- A page of an offset so near the end of 64 bits that its end wraps. -/
def wrappingPage : ReadMap :=
  fromRNTuple { ranges := [{ columnId := 7, pages := [{ offset := 2 ^ 64 - 60, nbytes := 100 }] }] }

/-- A page of a length that wraps with its checksum. -/
def emptyPage : ReadMap :=
  fromRNTuple { ranges := [{ columnId := 7,
                             pages := [{ nbytes := 2 ^ 32 - 8, hasChecksum := true }] }] }

open Classical in
theorem half_of_wrapping : (⟨2 ^ 64 - 60, 100, 7⟩ : ReadUnit).len ≤
    2 * (⟨2 ^ 64 - 60, 100, 7⟩ : ReadUnit).covered (Asked wrappingPage [(2 ^ 64 - 60, 59)]) := by
  have hsub : Finset.Ico (2 ^ 64 - 60) (2 ^ 64 - 1) ⊆
      (Finset.Ico (2 ^ 64 - 60) (2 ^ 64 - 60 + 100)).filter
        (Asked wrappingPage [(2 ^ 64 - 60, 59)]) := by
    intro x hx
    rw [Finset.mem_Ico] at hx
    refine Finset.mem_filter.2 ⟨Finset.mem_Ico.2 (by omega), ?_, (2 ^ 64 - 60, 59),
      List.mem_singleton_self _, by simp only; omega, by simp only; omega⟩
    show kRNTupleHead ≤ x
    unfold kRNTupleHead
    omega
  have hcard := Finset.card_le_card hsub
  rw [Nat.card_Ico] at hcard
  unfold ReadUnit.covered
  simp only
  omega

/-- A unit that wraps, and one without a byte, of which the shares depend on the cuts. -/
theorem wrapping_units :
    (Built wrappingPage ∧ DisjointUnits wrappingPage.units ∧ ¬ CutFree wrappingPage) ∧
      Built emptyPage ∧ DisjointUnits emptyPage.units ∧ ¬ CutFree emptyPage := by
  have hunits : wrappingPage.units = [⟨2 ^ 64 - 60, 100, 7⟩] := by
    show (sortUnits [⟨2 ^ 64 - 60, 100, 7⟩]).foldl keepFirst [] = _
    rw [sortUnits_self (List.pairwise_singleton _ _) (by decide)]
    rfl
  have hunits' : emptyPage.units = [⟨0, 0, 7⟩] := by
    show (sortUnits [⟨0, 0, 7⟩]).foldl keepFirst [] = _
    rw [sortUnits_self (List.pairwise_singleton _ _) (by decide)]
    rfl
  refine ⟨⟨.rntuple _, ?_, fun h => ?_⟩, .rntuple _, ?_, fun h => ?_⟩
  · rw [hunits]
    exact List.pairwise_singleton _ _
  · -- 59 bytes of the 100 are asked for, and none is counted.
    have hmerge : wrappingPage.mergeRanges [(2 ^ 64 - 60, 59)] = [(2 ^ 64 - 60, 2 ^ 64 - 1)] := by
      have hclip : [(2 ^ 64 - 60, 59)].filterMap wrappingPage.clip =
          [(2 ^ 64 - 60, 2 ^ 64 - 1)] := by
        decide
      unfold mergeRanges
      rw [hclip, List.mergeSort_singleton]
      rfl
    have hcovered : wrappingPage.coveredBy (2 ^ 64 - 60, 2 ^ 64 - 1) = [] := by
      unfold coveredBy unitsFrom firstUnit
      rw [hunits]
      decide +kernel
    have hnone : wrappingPage.groupsOf [(2 ^ 64 - 60, 59)] = [] := by
      unfold groupsOf
      rw [hmerge, List.flatMap_cons, hcovered]
      simp [unique]
    have hbounded : Bounded [(2 ^ 64 - 60, 59)] := by
      intro r hr
      rw [List.mem_singleton.1 hr]
      decide
    have hexact := (h.exact _ hbounded 7).2
      ⟨⟨2 ^ 64 - 60, 100, 7⟩, by rw [hunits]; exact List.mem_singleton_self _, rfl,
        half_of_wrapping⟩
    rw [hnone] at hexact
    cases hexact
  · rw [hunits']
    exact List.pairwise_singleton _ _
  · have hnone : emptyPage.groupsOf [] = [] := by
      simp [groupsOf, mergeRanges, unique]
    have hexact := (h.exact [] (fun r hr => absurd hr List.not_mem_nil) 7).2
      ⟨⟨0, 0, 7⟩, by rw [hunits']; exact List.mem_singleton_self _, rfl, Nat.zero_le _⟩
    rw [hnone] at hexact
    cases hexact

end ReadMap

end UCache
