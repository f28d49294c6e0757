/-
Module: UCache.Lib.SortedLists
Purpose: Sorted lists of numbers without duplicates, their unions, and the sums of a sorted list of
  pairs by key.
Trusted boundary: none
Main exports: Ascending, unique, setUnion
-/
import Mathlib.Algebra.GroupWithZero.Nat
import Mathlib.Data.List.Induction

namespace UCache.Lib

/-- Strictly ascending. -/
def Ascending (l : List Nat) : Prop := l.Pairwise (· < ·)

theorem Ascending.eq {l l' : List Nat} (h : Ascending l) (h' : Ascending l')
    (hmem : ∀ x, x ∈ l ↔ x ∈ l') : l = l' := by
  induction l generalizing l' with
  | nil =>
      cases l' with
      | nil => rfl
      | cons y l' => exact absurd ((hmem y).2 (List.mem_cons_self ..)) List.not_mem_nil
  | cons x l ih =>
      cases l' with
      | nil => exact absurd ((hmem x).1 (List.mem_cons_self ..)) List.not_mem_nil
      | cons y l' =>
          obtain ⟨hx, hl⟩ := List.pairwise_cons.1 h
          obtain ⟨hy, hl'⟩ := List.pairwise_cons.1 h'
          have hxy : x = y := by
            rcases List.mem_cons.1 ((hmem x).1 (List.mem_cons_self ..)) with h1 | h1
            · exact h1
            · rcases List.mem_cons.1 ((hmem y).2 (List.mem_cons_self ..)) with h2 | h2
              · exact h2.symm
              · have := hx y h2
                have := hy x h1
                omega
          subst hxy
          congr 1
          refine ih hl hl' fun z => ⟨fun hz => ?_, fun hz => ?_⟩
          · refine (List.mem_cons.1 ((hmem z).1 (List.mem_cons_of_mem x hz))).resolve_left ?_
            rintro rfl
            exact absurd (hx z hz) (by omega)
          · refine (List.mem_cons.1 ((hmem z).2 (List.mem_cons_of_mem x hz))).resolve_left ?_
            rintro rfl
            exact absurd (hy z hz) (by omega)

/-- One of each group of equal neighbours. -/
def unique : List Nat → List Nat
  | a :: b :: l => if a = b then unique (b :: l) else a :: unique (b :: l)
  | l => l

theorem mem_unique {l : List Nat} {x : Nat} : x ∈ unique l ↔ x ∈ l := by
  fun_induction unique l with
  | case1 b l ih =>
      rw [ih]
      simp
  | case2 a b l hne ih =>
      rw [List.mem_cons, ih, List.mem_cons (a := x) (b := a)]
  | case3 l => rfl

theorem unique_ascending {l : List Nat} (h : l.Pairwise (· ≤ ·)) : Ascending (unique l) := by
  fun_induction unique l with
  | case1 b l ih => exact ih (List.pairwise_cons.1 h).2
  | case2 a b l hne ih =>
      obtain ⟨ha, hl⟩ := List.pairwise_cons.1 h
      refine List.pairwise_cons.2 ⟨fun x hx => ?_, ih hl⟩
      have hb := ha b (List.mem_cons_self ..)
      rcases List.mem_cons.1 (mem_unique.1 hx) with rfl | hx
      · omega
      · have := (List.pairwise_cons.1 hl).1 x hx
        omega
  | case3 l hl =>
      match l, hl with
      | [], _ => exact List.Pairwise.nil
      | [x], _ => exact List.pairwise_singleton _ _
      | a :: b :: l, hl => exact absurd rfl (hl a b l)

/-! ### Unions -/

/-- The merge of two ascending lists, with one of what both have. -/
def setUnion : List Nat → List Nat → List Nat
  | [], l' => l'
  | l, [] => l
  | x :: l, y :: l' =>
      if x < y then x :: setUnion l (y :: l')
      else if y < x then y :: setUnion (x :: l) l' else x :: setUnion l l'
termination_by l l' => l.length + l'.length

theorem mem_setUnion {l l' : List Nat} {z : Nat} : z ∈ setUnion l l' ↔ z ∈ l ∨ z ∈ l' := by
  fun_induction setUnion l l' with
  | case1 l' => simp
  | case2 l hl => simp
  | case3 x l y l' hxy ih =>
      rw [List.mem_cons, ih, List.mem_cons (b := x), or_assoc]
  | case4 x l y l' hxy hyx ih =>
      rw [List.mem_cons, ih, List.mem_cons (b := y)]
      tauto
  | case5 x l y l' hxy hyx ih =>
      obtain rfl : x = y := by omega
      rw [List.mem_cons, ih, List.mem_cons, List.mem_cons]
      tauto

theorem setUnion_ascending {l l' : List Nat} (h : Ascending l) (h' : Ascending l') :
    Ascending (setUnion l l') := by
  fun_induction setUnion l l' with
  | case1 l' => exact h'
  | case2 l hl => exact h
  | case3 x l y l' hxy ih =>
      obtain ⟨hx, hl⟩ := List.pairwise_cons.1 h
      refine List.pairwise_cons.2 ⟨fun z hz => ?_, ih hl h'⟩
      rcases mem_setUnion.1 hz with hz | hz
      · exact hx z hz
      · rcases List.mem_cons.1 hz with rfl | hz
        · exact hxy
        · exact Nat.lt_trans hxy ((List.pairwise_cons.1 h').1 z hz)
  | case4 x l y l' hxy hyx ih =>
      obtain ⟨hy, hl'⟩ := List.pairwise_cons.1 h'
      refine List.pairwise_cons.2 ⟨fun z hz => ?_, ih h hl'⟩
      rcases mem_setUnion.1 hz with hz | hz
      · rcases List.mem_cons.1 hz with rfl | hz
        · exact hyx
        · exact Nat.lt_trans hyx ((List.pairwise_cons.1 h).1 z hz)
      · exact hy z hz
  | case5 x l y l' hxy hyx ih =>
      obtain rfl : x = y := by omega
      obtain ⟨hx, hl⟩ := List.pairwise_cons.1 h
      obtain ⟨hy, hl'⟩ := List.pairwise_cons.1 h'
      refine List.pairwise_cons.2 ⟨fun z hz => ?_, ih hl hl'⟩
      rcases mem_setUnion.1 hz with hz | hz
      · exact hx z hz
      · exact hy z hz

/-! ### Sums by key -/

variable {l : List (Nat × Nat)}

/-- One more pair of a list in the order of its keys.  `acc` has the sums so far, modulo `m`, that of
the last key first. -/
def addByKey (m : Nat) (acc : List (Nat × Nat)) (p : Nat × Nat) : List (Nat × Nat) :=
  match acc with
  | q :: rest => if p.1 = q.1 then (q.1, (q.2 + p.2) % m) :: rest else p :: acc
  | [] => [p]

/-- The sum of a key's pairs. -/
def keySum (k : Nat) (l : List (Nat × Nat)) : Nat := ((l.filter fun p => p.1 = k).map Prod.snd).sum

theorem keySum_append (k : Nat) (l l' : List (Nat × Nat)) :
    keySum k (l ++ l') = keySum k l + keySum k l' := by
  simp [keySum]

theorem keySum_perm (k : Nat) {l' : List (Nat × Nat)} (h : l.Perm l') : keySum k l = keySum k l' :=
  ((h.filter _).map _).sum_nat

theorem keySum_eq_zero {k : Nat} (h : ∀ p ∈ l, p.1 ≠ k) : keySum k l = 0 := by
  have hnone : (l.filter fun p => p.1 = k) = [] := by
    rw [List.filter_eq_nil_iff]
    exact fun p hp => by simpa using h p hp
  rw [keySum, hnone]
  rfl

/-- The sums of the keys of a sorted list, the last key first. -/
structure SumsOf (l acc : List (Nat × Nat)) : Prop where
  keys : acc.Pairwise fun p q => q.1 < p.1
  last : ∀ p ∈ l, ∃ q, acc.head? = some q ∧ p.1 ≤ q.1
  mem : ∀ k s, (k, s) ∈ acc ↔ (∃ p ∈ l, p.1 = k) ∧ s = keySum k l

theorem SumsOf.add {m : Nat} {acc : List (Nat × Nat)} {p : Nat × Nat} (h : SumsOf l acc)
    (hlast : ∀ q ∈ l, q.1 ≤ p.1) (hsum : keySum p.1 l + p.2 < m) :
    SumsOf (l ++ [p]) (addByKey m acc p) := by
  have hnew : ∀ k, keySum k (l ++ [p]) = keySum k l + if p.1 = k then p.2 else 0 := by
    intro k
    rw [keySum_append]
    congr 1
    by_cases hk : p.1 = k <;> simp [keySum, hk]
  have hex : ∀ k, (∃ q ∈ l ++ [p], q.1 = k) ↔ (∃ q ∈ l, q.1 = k) ∨ p.1 = k := by
    intro k
    simp [or_and_right, exists_or]
  cases acc with
  | nil =>
      have hl : l = [] := by
        cases l with
        | nil => rfl
        | cons q l =>
            obtain ⟨r, hr, -⟩ := h.last q (List.mem_cons_self ..)
            cases hr
      subst hl
      refine ⟨List.pairwise_singleton _ _, fun q hq => ⟨p, rfl, ?_⟩, fun k s => ?_⟩
      · exact Nat.le_of_eq (congrArg Prod.fst (List.mem_singleton.1 hq))
      · rw [hex, hnew]
        obtain ⟨k₀, n⟩ := p
        simp only [addByKey, List.mem_singleton, Prod.mk.injEq, keySum, List.filter_nil,
          List.map_nil, List.sum_nil, List.not_mem_nil, false_and, exists_false, false_or]
        constructor
        · rintro ⟨rfl, rfl⟩
          simp
        · rintro ⟨rfl, rfl⟩
          simp
  | cons q rest =>
      obtain ⟨hq, hrest⟩ := List.pairwise_cons.1 h.keys
      obtain ⟨⟨q', hq', hkey⟩, hqsum⟩ := (h.mem q.1 q.2).1 (List.mem_cons_self ..)
      rw [addByKey]
      by_cases hpq : p.1 = q.1
      · rw [if_pos hpq]
        have hmod : (q.2 + p.2) % m = q.2 + p.2 := by
          rw [hqsum, ← hpq]
          exact Nat.mod_eq_of_lt hsum
        refine ⟨List.pairwise_cons.2 ⟨hq, hrest⟩, fun r hr => ⟨_, rfl, ?_⟩, fun k s => ?_⟩
        · rcases List.mem_append.1 hr with hr | hr
          · exact hpq ▸ hlast r hr
          · rw [List.mem_singleton.1 hr]
            exact Nat.le_of_eq hpq
        · rw [hex, hnew, hmod, List.mem_cons]
          by_cases hk : p.1 = k
          · subst hk
            rw [if_pos rfl]
            constructor
            · rintro (heq | hmem)
              · refine ⟨.inr rfl, ?_⟩
                rw [(Prod.mk.inj heq).2, hqsum, hpq]
              · have := hq _ hmem
                simp only at this
                omega
            · rintro ⟨-, rfl⟩
              rw [hqsum, hpq]
              exact .inl rfl
          · rw [if_neg hk, Nat.add_zero]
            have hold := h.mem k s
            rw [List.mem_cons] at hold
            have hne : ∀ n, (k, s) ≠ (q.1, n) := by
              rintro n heq
              exact hk (hpq.trans (Prod.mk.inj heq).1.symm)
            constructor
            · rintro (heq | hmem)
              · exact absurd heq (hne _)
              · obtain ⟨hin, hs⟩ := hold.1 (.inr hmem)
                exact ⟨.inl hin, hs⟩
            · rintro ⟨hin | hin, hs⟩
              · exact .inr ((hold.2 ⟨hin, hs⟩).resolve_left (hne q.2))
              · exact absurd hin hk
      · rw [if_neg hpq]
        have hlt : q.1 < p.1 := by
          have := hlast q' hq'
          omega
        have hfresh : ∀ r ∈ l, r.1 ≠ p.1 := by
          intro r hr heq
          obtain ⟨q'', hhead, hle⟩ := h.last r hr
          cases hhead
          omega
        refine ⟨List.pairwise_cons.2 ⟨fun r hr => ?_, h.keys⟩, fun r hr => ⟨p, rfl, ?_⟩,
          fun k s => ?_⟩
        · rcases List.mem_cons.1 hr with rfl | hr
          · exact hlt
          · exact Nat.lt_trans (hq r hr) hlt
        · rcases List.mem_append.1 hr with hr | hr
          · exact hlast r hr
          · exact Nat.le_of_eq (congrArg Prod.fst (List.mem_singleton.1 hr))
        · rw [hex, hnew, List.mem_cons, h.mem]
          by_cases hk : p.1 = k
          · subst hk
            rw [if_pos rfl, keySum_eq_zero hfresh]
            constructor
            · rintro (heq | ⟨⟨r, hr, hrk⟩, -⟩)
              · rw [← heq]
                exact ⟨.inr rfl, (Nat.zero_add _).symm⟩
              · exact absurd hrk (hfresh r hr)
            · rintro ⟨-, rfl⟩
              rw [Nat.zero_add]
              exact .inl rfl
          · rw [if_neg hk, Nat.add_zero]
            constructor
            · rintro (heq | ⟨hin, hs⟩)
              · exact absurd (congrArg Prod.fst heq).symm hk
              · exact ⟨.inl hin, hs⟩
            · rintro ⟨hin | hin, hs⟩
              · exact .inr ⟨hin, hs⟩
              · exact absurd hin hk

/-- The loop over a sorted list finds each key with its sum. -/
theorem foldl_addByKey {m : Nat} (h : l.Pairwise fun p q => p.1 ≤ q.1)
    (hsum : ∀ k, keySum k l < m) : SumsOf l (l.foldl (addByKey m) []) := by
  induction l using List.reverseRecOn with
  | nil => exact ⟨List.Pairwise.nil, fun p hp => absurd hp List.not_mem_nil, by simp⟩
  | append_singleton l p ih =>
      obtain ⟨hl, -, hlast⟩ := List.pairwise_append.1 h
      have hless : ∀ k, keySum k l < m := by
        intro k
        have := hsum k
        rw [keySum_append] at this
        omega
      rw [List.foldl_append, List.foldl_cons, List.foldl_nil]
      refine (ih hl hless).add (fun q hq => hlast q hq p (List.mem_singleton_self p)) ?_
      have hp := hsum p.1
      rw [keySum_append] at hp
      simpa [keySum] using hp

end UCache.Lib
