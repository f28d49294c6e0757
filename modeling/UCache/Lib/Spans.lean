/-
Module: UCache.Lib.Spans
Purpose: Half-open ranges of positions, the coalescing of a sorted list of them, and the maximal
  ranges of a set of positions.
Trusted boundary: none
Main exports: Within, addSpan, Coalesced
-/
import Mathlib.Algebra.BigOperators.Group.Finset.Basic
import Mathlib.Algebra.GroupWithZero.Nat
import Mathlib.Data.Finset.Prod
import Mathlib.Order.Interval.Finset.Nat

namespace UCache.Lib

/-- Some range of the list has the position. -/
def Within (spans : List (Nat × Nat)) (b : Nat) : Prop := ∃ s ∈ spans, s.1 ≤ b ∧ b < s.2

@[simp] theorem within_nil (b : Nat) : ¬ Within [] b := by simp [Within]

theorem within_append {spans spans' : List (Nat × Nat)} {b : Nat} :
    Within (spans ++ spans') b ↔ Within spans b ∨ Within spans' b := by
  simp [Within, List.mem_append, or_and_right, exists_or]

theorem within_singleton {s : Nat × Nat} {b : Nat} : Within [s] b ↔ s.1 ≤ b ∧ b < s.2 := by
  simp [Within]

/-! ### Coalescing -/

variable {runs : List (Nat × Nat)}

/-- Add a range that starts no earlier than the last one: ranges that touch become one. -/
def addSpan (runs : List (Nat × Nat)) (iv : Nat × Nat) : List (Nat × Nat) :=
  match runs.getLast? with
  | some (s, e) => if iv.1 ≤ e then runs.dropLast ++ [(s, max e iv.2)] else runs ++ [iv]
  | none => [iv]

/-- Ranges in order, with a gap between any two. -/
structure Coalesced (runs : List (Nat × Nat)) : Prop where
  proper : ∀ r ∈ runs, r.1 ≤ r.2
  apart : runs.Pairwise fun a b => a.2 < b.1

/-- The range lengthens the last one, or it is kept as it is behind all of them. -/
theorem addSpan_cases (hc : Coalesced runs) (iv : Nat × Nat) :
    (∃ init s e, runs = init ++ [(s, e)] ∧ iv.1 ≤ e ∧
      addSpan runs iv = init ++ [(s, max e iv.2)]) ∨
    (addSpan runs iv = runs ++ [iv] ∧ ∀ r ∈ runs, r.2 < iv.1) := by
  rcases List.eq_nil_or_concat runs with rfl | ⟨init, ⟨s, e⟩, rfl⟩
  · exact .inr ⟨rfl, by simp⟩
  · rw [List.concat_eq_append] at hc ⊢
    have heq : addSpan (init ++ [(s, e)]) iv =
        if iv.1 ≤ e then init ++ [(s, max e iv.2)] else init ++ [(s, e)] ++ [iv] := by
      simp [addSpan]
    by_cases hle : iv.1 ≤ e
    · exact .inl ⟨init, s, e, rfl, hle, by rw [heq, if_pos hle]⟩
    · refine .inr ⟨by rw [heq, if_neg hle], ?_⟩
      intro r hr
      rcases List.mem_append.1 hr with hr | hr
      · have hlast := (List.pairwise_append.1 hc.apart).2.2 r hr (s, e) (by simp)
        have hproper := hc.proper (s, e) (by simp)
        simp only at hlast hproper
        omega
      · obtain rfl : r = (s, e) := by simpa using hr
        simp only
        omega

theorem addSpan_coalesced (hc : Coalesced runs) {iv : Nat × Nat} (hiv : iv.1 ≤ iv.2) :
    Coalesced (addSpan runs iv) := by
  rcases addSpan_cases hc iv with ⟨init, s, e, rfl, hle, heq⟩ | ⟨heq, hlast⟩
  · rw [heq]
    have hproper := hc.proper (s, e) (by simp)
    obtain ⟨hinit, -, hcross⟩ := List.pairwise_append.1 hc.apart
    refine ⟨?_, List.pairwise_append.2 ⟨hinit, by simp, ?_⟩⟩
    · intro r hr
      rcases List.mem_append.1 hr with hr | hr
      · exact hc.proper r (by simp [hr])
      · obtain rfl : r = (s, max e iv.2) := by simpa using hr
        exact le_max_of_le_left hproper
    · intro a ha b hb
      obtain rfl : b = (s, max e iv.2) := by simpa using hb
      exact hcross a ha (s, e) (by simp)
  · rw [heq]
    refine ⟨?_, List.pairwise_append.2 ⟨hc.apart, by simp, ?_⟩⟩
    · intro r hr
      rcases List.mem_append.1 hr with hr | hr
      · exact hc.proper r hr
      · obtain rfl : r = iv := by simpa using hr
        exact hiv
    · intro a ha b hb
      obtain rfl : b = iv := by simpa using hb
      exact hlast a ha

theorem within_addSpan (hc : Coalesced runs) {iv : Nat × Nat} (hstart : ∀ r ∈ runs, r.1 ≤ iv.1)
    {b : Nat} : Within (addSpan runs iv) b ↔ Within runs b ∨ (iv.1 ≤ b ∧ b < iv.2) := by
  rcases addSpan_cases hc iv with ⟨init, s, e, rfl, hle, heq⟩ | ⟨heq, -⟩
  · have hs := hstart (s, e) (by simp)
    simp only at hs
    rw [heq, within_append, within_append, within_singleton, within_singleton]
    simp only [or_assoc]
    refine or_congr_right ?_
    omega
  · rw [heq, within_append, within_singleton]

/-- A coalesced range starts where some range did, and ends where some range did. -/
theorem addSpan_mem (hc : Coalesced runs) {iv r : Nat × Nat} (hr : r ∈ addSpan runs iv) :
    (∃ s ∈ runs ++ [iv], s.1 = r.1) ∧ ∃ s ∈ runs ++ [iv], s.2 = r.2 := by
  rcases addSpan_cases hc iv with ⟨init, s, e, rfl, -, heq⟩ | ⟨heq, -⟩
  · rw [heq] at hr
    rcases List.mem_append.1 hr with hr | hr
    · exact ⟨⟨r, by simp [hr], rfl⟩, r, by simp [hr], rfl⟩
    · obtain rfl : r = (s, max e iv.2) := by simpa using hr
      refine ⟨⟨(s, e), by simp, rfl⟩, ?_⟩
      rcases max_choice e iv.2 with hmax | hmax
      · exact ⟨(s, e), by simp, hmax.symm⟩
      · exact ⟨iv, by simp, hmax.symm⟩
  · rw [heq] at hr
    exact ⟨⟨r, hr, rfl⟩, r, hr, rfl⟩

/-- No range ends behind all of those it is made of. -/
theorem foldl_addSpan_ends {spans runs : List (Nat × Nat)} {n : Nat}
    (hruns : ∀ r ∈ runs, r.2 ≤ n) (hspans : ∀ s ∈ spans, s.2 ≤ n) :
    ∀ r ∈ spans.foldl addSpan runs, r.2 ≤ n := by
  induction spans generalizing runs with
  | nil => exact hruns
  | cons iv rest ih =>
      refine ih ?_ fun s hs => hspans s (by simp [hs])
      have hiv := hspans iv (by simp)
      rcases List.eq_nil_or_concat runs with rfl | ⟨init, ⟨s, e⟩, rfl⟩
      · simpa [addSpan] using hiv
      rw [List.concat_eq_append] at hruns ⊢
      have hlast := hruns (s, e) (by simp)
      intro r hr
      have hmem : r ∈ init ++ [(s, e)] ∨ r = (s, max e iv.2) ∨ r = iv := by
        simp only [addSpan, List.getLast?_concat, List.dropLast_concat] at hr
        split at hr <;> grind
      rcases hmem with hmem | rfl | rfl
      · exact hruns r hmem
      · exact max_le hlast hiv
      · exact hiv

/-- Ranges that are not empty stay so. -/
theorem foldl_addSpan_strict {spans : List (Nat × Nat)} (hc : Coalesced runs)
    (hruns : ∀ r ∈ runs, r.1 < r.2) (hspans : ∀ s ∈ spans, s.1 < s.2) :
    ∀ r ∈ spans.foldl addSpan runs, r.1 < r.2 := by
  induction spans generalizing runs with
  | nil => exact hruns
  | cons iv rest ih =>
      have hiv := hspans iv (by simp)
      refine ih (addSpan_coalesced hc hiv.le) ?_ fun s hs => hspans s (by simp [hs])
      intro r hr
      rcases addSpan_cases hc iv with ⟨init, s, e, rfl, -, heq⟩ | ⟨heq, -⟩
      · rw [heq] at hr
        rcases List.mem_append.1 hr with hr | hr
        · exact hruns r (by simp [hr])
        · obtain rfl : r = (s, max e iv.2) := by simpa using hr
          exact lt_max_of_lt_left (hruns (s, e) (by simp))
      · rw [heq] at hr
        rcases List.mem_append.1 hr with hr | hr
        · exact hruns r hr
        · obtain rfl : r = iv := by simpa using hr
          exact hiv

theorem foldl_addSpan_mem {spans : List (Nat × Nat)} (hc : Coalesced runs)
    (hproper : ∀ s ∈ spans, s.1 ≤ s.2) {r : Nat × Nat} (hr : r ∈ spans.foldl addSpan runs) :
    (∃ s ∈ runs ++ spans, s.1 = r.1) ∧ ∃ s ∈ runs ++ spans, s.2 = r.2 := by
  induction spans generalizing runs with
  | nil => exact ⟨⟨r, by simpa using hr, rfl⟩, r, by simpa using hr, rfl⟩
  | cons iv rest ih =>
      have hold : ∀ q ∈ addSpan runs iv ++ rest,
          (∃ s ∈ runs ++ iv :: rest, s.1 = q.1) ∧ ∃ s ∈ runs ++ iv :: rest, s.2 = q.2 := by
        intro q hq
        rcases List.mem_append.1 hq with hq | hq
        · obtain ⟨⟨s, hs, h1⟩, t, ht, h2⟩ := addSpan_mem hc hq
          rw [List.mem_append, List.mem_singleton] at hs ht
          exact ⟨⟨s, by grind, h1⟩, t, by grind, h2⟩
        · exact ⟨⟨q, by simp [hq], rfl⟩, q, by simp [hq], rfl⟩
      obtain ⟨⟨q, hq, h1⟩, t, ht, h2⟩ := ih (addSpan_coalesced hc (hproper iv (by simp)))
        (fun s hs => hproper s (by simp [hs])) hr
      obtain ⟨⟨s, hs, hsq⟩, -⟩ := hold q hq
      obtain ⟨-, u, hu, hut⟩ := hold t ht
      exact ⟨⟨s, hs, hsq.trans h1⟩, u, hu, hut.trans h2⟩

/-- What the coalescing of a sorted list of ranges leaves: ranges with gaps, and the same
positions. -/
theorem foldl_addSpan {spans runs : List (Nat × Nat)} (hc : Coalesced runs)
    (hproper : ∀ s ∈ spans, s.1 ≤ s.2) (hsorted : spans.Pairwise fun a b => a.1 ≤ b.1)
    (hstart : ∀ r ∈ runs, ∀ s ∈ spans, r.1 ≤ s.1) :
    Coalesced (spans.foldl addSpan runs) ∧
      ∀ b, Within (spans.foldl addSpan runs) b ↔ Within runs b ∨ Within spans b := by
  induction spans generalizing runs with
  | nil => exact ⟨hc, by simp⟩
  | cons iv rest ih =>
      obtain ⟨hfirst, hrest⟩ := List.pairwise_cons.1 hsorted
      have hnext : ∀ r ∈ addSpan runs iv, ∀ s ∈ rest, r.1 ≤ s.1 := by
        intro r hr s hs
        obtain ⟨⟨q, hq, hqr⟩, -⟩ := addSpan_mem hc hr
        rw [← hqr]
        rcases List.mem_append.1 hq with hq | hq
        · exact hstart q hq s (by simp [hs])
        · obtain rfl : q = iv := by simpa using hq
          exact hfirst s hs
      obtain ⟨hco, hwithin⟩ := ih (addSpan_coalesced hc (hproper iv (by simp)))
        (fun s hs => hproper s (by simp [hs])) hrest hnext
      refine ⟨hco, fun b => ?_⟩
      rw [List.foldl_cons, hwithin, within_addSpan hc fun r hr => hstart r hr iv (by simp), or_assoc]
      refine or_congr_right ?_
      rw [← within_singleton, ← within_append]
      rfl

/-- Ranges with gaps stay as they are. -/
theorem foldl_addSpan_apart {spans runs : List (Nat × Nat)} (hc : Coalesced (runs ++ spans)) :
    spans.foldl addSpan runs = runs ++ spans := by
  induction spans generalizing runs with
  | nil => simp
  | cons iv rest ih =>
      obtain ⟨hruns, -, hcross⟩ := List.pairwise_append.1 hc.apart
      have hadd : addSpan runs iv = runs ++ [iv] := by
        have hold : Coalesced runs := ⟨fun r hr => hc.proper r (by simp [hr]), hruns⟩
        rcases addSpan_cases hold iv with ⟨init, s, e, rfl, hle, -⟩ | ⟨heq, -⟩
        · have := hcross (s, e) (by simp) iv (by simp)
          simp only at this
          omega
        · exact heq
      rw [List.foldl_cons, hadd, ih (by simpa using hc), List.append_assoc]
      rfl

/-! ### Maximal ranges -/

/-- A maximal range of the positions in `W`. -/
def IsRun (W : Nat → Prop) (r : Nat × Nat) : Prop :=
  r.1 < r.2 ∧ (∀ b, r.1 ≤ b → b < r.2 → W b) ∧ ¬ W r.2 ∧ ∀ b, b + 1 = r.1 → ¬ W b

open Classical in
/-- The maximal ranges of `W` that end by position `n`. -/
noncomputable def runsOf (W : Nat → Prop) (n : Nat) : Finset (Nat × Nat) :=
  (Finset.range (n + 1) ×ˢ Finset.range (n + 1)).filter (IsRun W)

theorem mem_runsOf {W : Nat → Prop} {n : Nat} {r : Nat × Nat} :
    r ∈ runsOf W n ↔ r.2 ≤ n ∧ IsRun W r := by
  classical
  rw [runsOf, Finset.mem_filter, Finset.mem_product, Finset.mem_range, Finset.mem_range]
  constructor
  · rintro ⟨⟨-, h2⟩, hr⟩
    exact ⟨by omega, hr⟩
  · rintro ⟨h2, hr⟩
    have := hr.1
    exact ⟨⟨by omega, by omega⟩, hr⟩

namespace Coalesced

variable {runs : List (Nat × Nat)}

/-- Two ranges with gaps that share a position are the same. -/
theorem eq_of_mem (hc : Coalesced runs) {a b : Nat × Nat} (ha : a ∈ runs) (hb : b ∈ runs) {p : Nat}
    (hpa : a.1 ≤ p ∧ p ≤ a.2) (hpb : b.1 ≤ p ∧ p ≤ b.2) : a = b := by
  by_contra hne
  rcases List.Pairwise.forall_of_forall_of_flip (R := fun a b => a ≠ b → a.2 < b.1 ∨ b.2 < a.1)
    (by simp) (hc.apart.imp fun h _ => .inl h) (hc.apart.imp fun h _ => .inr h) ha hb hne with h | h
  · omega
  · omega

/-- The nonempty ranges with gaps are the maximal ranges of what they have. -/
theorem mem_iff_isRun (hc : Coalesced runs) {r : Nat × Nat} :
    r ∈ runs ∧ r.1 < r.2 ↔ IsRun (Within runs) r := by
  constructor
  · rintro ⟨hr, hlt⟩
    refine ⟨hlt, fun b h1 h2 => ⟨r, hr, h1, h2⟩, ?_, ?_⟩
    · rintro ⟨q, hq, h1, h2⟩
      have heq := hc.eq_of_mem hq hr (p := r.2) ⟨h1, by omega⟩ ⟨by omega, le_refl _⟩
      subst heq
      omega
    · rintro b hb ⟨q, hq, h1, h2⟩
      have heq := hc.eq_of_mem hq hr (p := r.1) ⟨by omega, by omega⟩ ⟨le_refl _, by omega⟩
      subst heq
      omega
  · rintro ⟨hlt, hall, hend, hbefore⟩
    obtain ⟨q, hq, h1, h2⟩ := hall r.1 (le_refl _) hlt
    have hstart : q.1 = r.1 := by
      by_contra hne
      exact hbefore (r.1 - 1) (by omega) ⟨q, hq, by omega, by omega⟩
    have hstop : q.2 = r.2 := by
      by_contra hne
      rcases Nat.lt_or_gt_of_ne hne with hlt' | hgt
      · -- the position behind `q` is in another range, which touches `q`
        obtain ⟨p, hp, h3, h4⟩ := hall q.2 (by omega) hlt'
        have heq := hc.eq_of_mem hp hq (p := q.2) ⟨h3, by omega⟩ ⟨by omega, le_refl _⟩
        subst heq
        omega
      · exact hend ⟨q, hq, by omega, hgt⟩
    have hqr : q = r := Prod.ext hstart hstop
    rw [← hqr]
    exact ⟨hq, by omega⟩

/-- A sum over ranges with gaps is a sum over the maximal ranges of what they have. -/
theorem sum_runsOf (hc : Coalesced runs) {n : Nat} (hn : ∀ r ∈ runs, r.2 ≤ n) {f : Nat × Nat → Nat}
    (hf : ∀ r : Nat × Nat, r.2 ≤ r.1 → f r = 0) :
    (runs.map f).sum = ∑ r ∈ runsOf (Within runs) n, f r := by
  have hnodup : (runs.filter fun r => r.1 < r.2).Nodup := by
    refine (hc.apart.filter _).imp_of_mem ?_
    rintro a b ha - hab rfl
    have := (List.mem_filter.1 ha).2
    simp at this
    omega
  have hset : runsOf (Within runs) n = (runs.filter fun r => r.1 < r.2).toFinset := by
    ext r
    rw [mem_runsOf, ← hc.mem_iff_isRun, List.mem_toFinset, List.mem_filter, decide_eq_true_eq]
    exact ⟨fun h => h.2, fun h => ⟨hn r h.1, h⟩⟩
  rw [hset, List.sum_toFinset f hnodup]
  clear hset hnodup hn hc
  induction runs with
  | nil => rfl
  | cons r rest ih =>
      rw [List.map_cons, List.sum_cons, ih, List.filter_cons]
      split
      · rfl
      · rename_i hr
        rw [hf r (by simpa using hr), Nat.zero_add]

open Classical in
/-- The positions of a stretch that ranges with gaps have are counted range by range. -/
theorem card_within (hc : Coalesced runs) (lo hi : Nat) :
    ((Finset.Ico lo hi).filter (Within runs)).card =
      (runs.map fun r => min hi r.2 - max lo r.1).sum := by
  induction runs with
  | nil => simp
  | cons r rest ih =>
      obtain ⟨hr, hrest⟩ := List.pairwise_cons.1 hc.apart
      have hproper := hc.proper r (List.mem_cons_self ..)
      have hsplit : (Finset.Ico lo hi).filter (Within (r :: rest)) =
          Finset.Ico (max lo r.1) (min hi r.2) ∪ (Finset.Ico lo hi).filter (Within rest) := by
        ext b
        have hcons : Within (r :: rest) b ↔ (r.1 ≤ b ∧ b < r.2) ∨ Within rest b := by
          simp [Within]
        simp only [Finset.mem_union, Finset.mem_filter, Finset.mem_Ico, hcons]
        constructor
        · rintro ⟨hb, h | h⟩
          · exact .inl (by omega)
          · exact .inr ⟨hb, h⟩
        · rintro (h | ⟨hb, h⟩)
          · exact ⟨by omega, .inl (by omega)⟩
          · exact ⟨hb, .inr h⟩
      have hdisjoint : Disjoint (Finset.Ico (max lo r.1) (min hi r.2))
          ((Finset.Ico lo hi).filter (Within rest)) := by
        rw [Finset.disjoint_left]
        intro b hb hw
        obtain ⟨-, q, hq, h1, -⟩ := Finset.mem_filter.1 hw
        have := hr q hq
        rw [Finset.mem_Ico] at hb
        omega
      rw [hsplit, Finset.card_union_of_disjoint hdisjoint, Nat.card_Ico,
        ih ⟨fun q hq => hc.proper q (List.mem_cons_of_mem r hq), hrest⟩, List.map_cons,
        List.sum_cons]

end Coalesced

end UCache.Lib
