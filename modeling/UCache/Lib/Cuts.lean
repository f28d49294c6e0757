/-
Module: UCache.Lib.Cuts
Purpose: A list cut at the first or the last place of an element, or at the first place of another
  list.
Trusted boundary: none
Main exports: cutFirst, cutLast, cutAt
-/
import UCache.Lib.Needle

namespace UCache.Lib

universe u

variable {α : Type u} [DecidableEq α]

/-- What is before and what is behind the first `c`. -/
def cutFirst (c : α) : List α → Option (List α × List α)
  | [] => none
  | b :: s => if b = c then some ([], s) else (cutFirst c s).map fun p => (b :: p.1, p.2)

/-- What is before and what is behind the last `c`. -/
def cutLast (c : α) : List α → Option (List α × List α)
  | [] => none
  | b :: s =>
      match cutLast c s with
      | some (x, y) => some (b :: x, y)
      | none => if b = c then some ([], s) else none

/-- What is before and what is behind the first place of `needle`. -/
def cutAt (needle : List α) : List α → Option (List α × List α)
  | [] => if needle = [] then some ([], []) else none
  | x :: s =>
      if needle <+: x :: s then some ([], (x :: s).drop needle.length)
      else (cutAt needle s).map fun p => (x :: p.1, p.2)

variable {c : α} {s x y needle : List α}

theorem cutFirst_iff : cutFirst c s = some (x, y) ↔ s = x ++ c :: y ∧ c ∉ x := by
  induction s generalizing x with
  | nil => simp [cutFirst]
  | cons b s ih =>
      rw [cutFirst]
      by_cases hb : b = c
      · subst hb
        rw [if_pos rfl]
        constructor
        · rintro ⟨⟩
          exact ⟨rfl, List.not_mem_nil⟩
        · rintro ⟨hs, hx⟩
          cases x with
          | nil =>
              cases hs
              rfl
          | cons a x =>
              have hab : b = a := (List.cons.inj hs).1
              exact absurd (List.mem_cons.2 (.inl hab)) hx
      · rw [if_neg hb, Option.map_eq_some_iff]
        constructor
        · rintro ⟨⟨x', y'⟩, hcut, heq⟩
          cases heq
          obtain ⟨rfl, hx⟩ := ih.1 hcut
          exact ⟨rfl, List.not_mem_cons_of_ne_of_not_mem (Ne.symm hb) hx⟩
        · rintro ⟨hs, hx⟩
          cases x with
          | nil => exact absurd (List.cons.inj hs).1 hb
          | cons a x =>
              obtain ⟨rfl, rfl⟩ := List.cons.inj hs
              exact ⟨(x, y), ih.2 ⟨rfl, List.not_mem_of_not_mem_cons hx⟩, rfl⟩

theorem cutFirst_eq_none : cutFirst c s = none ↔ c ∉ s := by
  induction s with
  | nil => simp [cutFirst]
  | cons b s ih =>
      rw [cutFirst]
      by_cases hb : b = c
      · rw [if_pos hb]
        simp [hb]
      · rw [if_neg hb, Option.map_eq_none_iff, ih]
        simp [Ne.symm hb]

theorem cutLast_eq_none : cutLast c s = none ↔ c ∉ s := by
  induction s with
  | nil => simp [cutLast]
  | cons b s ih =>
      rw [cutLast]
      cases hs : cutLast c s with
      | some p =>
          have hmem : c ∈ s := by
            by_contra hno
            rw [ih.2 hno] at hs
            cases hs
          simp [hmem]
      | none =>
          have hno := ih.1 hs
          by_cases hb : b = c
          · simp [hb]
          · simp [hb, Ne.symm hb, hno]

theorem cutLast_iff : cutLast c s = some (x, y) ↔ s = x ++ c :: y ∧ c ∉ y := by
  induction s generalizing x y with
  | nil => simp [cutLast]
  | cons b s ih =>
      rw [cutLast]
      cases hs : cutLast c s with
      | none =>
          have hno := cutLast_eq_none.1 hs
          constructor
          · intro h
            by_cases hb : b = c
            · subst hb
              cases (if_pos rfl).symm.trans h
              exact ⟨rfl, hno⟩
            · cases (if_neg hb).symm.trans h
          · rintro ⟨h, hy⟩
            cases x with
            | nil =>
                obtain ⟨rfl, rfl⟩ := List.cons.inj h
                exact if_pos rfl
            | cons a x =>
                have hmem : c ∈ s := by
                  rw [(List.cons.inj h).2]
                  exact List.mem_append_right _ (List.mem_cons_self ..)
                exact absurd hmem hno
      | some p =>
          obtain ⟨x', y'⟩ := p
          obtain ⟨hshape, hy'⟩ := ih.1 hs
          constructor
          · rintro ⟨⟩
            exact ⟨congrArg (b :: ·) hshape, hy'⟩
          · rintro ⟨h, hy⟩
            cases x with
            | nil =>
                have hmem : c ∈ y := by
                  rw [← (List.cons.inj h).2, hshape]
                  exact List.mem_append_right _ (List.mem_cons_self ..)
                exact absurd hmem hy
            | cons a x =>
                obtain ⟨rfl, htail⟩ := List.cons.inj h
                have hcut := ih.2 ⟨htail, hy⟩
                rw [hs] at hcut
                cases hcut
                rfl

theorem cutAt_iff : cutAt needle s = some (x, y) ↔
    s = x ++ (needle ++ y) ∧ NeverStarts needle x (needle ++ y) := by
  induction s generalizing x with
  | nil =>
      rw [cutAt]
      constructor
      · intro h
        split at h
        · rename_i hn
          cases h
          subst hn
          exact ⟨rfl, trivial⟩
        · cases h
      · rintro ⟨h, -⟩
        obtain ⟨rfl, hrest⟩ := List.append_eq_nil_iff.1 h.symm
        obtain ⟨rfl, rfl⟩ := List.append_eq_nil_iff.1 hrest
        rfl
  | cons b s ih =>
      rw [cutAt]
      by_cases hpre : needle <+: b :: s
      · rw [if_pos hpre]
        obtain ⟨t, ht⟩ := hpre
        constructor
        · rintro ⟨⟩
          rw [← ht, List.drop_left]
          exact ⟨rfl, trivial⟩
        · rintro ⟨h, hx⟩
          cases x with
          | nil =>
              rw [h]
              simp
          | cons a x =>
              rw [List.cons_append] at h
              obtain ⟨rfl, rfl⟩ := List.cons.inj h
              exact absurd ⟨t, ht⟩ hx.1
      · rw [if_neg hpre, Option.map_eq_some_iff]
        constructor
        · rintro ⟨⟨x', y'⟩, hcut, heq⟩
          cases heq
          obtain ⟨rfl, hx⟩ := ih.1 hcut
          exact ⟨rfl, hpre, hx⟩
        · rintro ⟨h, hx⟩
          cases x with
          | nil => exact absurd ⟨y, h.symm⟩ hpre
          | cons a x =>
              obtain ⟨rfl, htail⟩ := List.cons.inj h
              exact ⟨(x, y), ih.2 ⟨htail, hx.2⟩, rfl⟩

/-! ### Other texts behind -/

omit [DecidableEq α] in
/-- Behind an element the needle does not have, the text is without influence. -/
theorem NeverStarts.behind {t t' : List α} (h : NeverStarts needle x (c :: t)) (hc : c ∉ needle) :
    NeverStarts needle x (c :: t') := by
  induction x with
  | nil => trivial
  | cons a x ih =>
      refine ⟨fun hpre => h.1 ?_, ih h.2⟩
      have hshort : needle <+: a :: x := by
        rcases Nat.le_total needle.length (a :: x).length with hle | hle
        · exact List.prefix_of_prefix_length_le hpre (List.prefix_append (a :: x) (c :: t')) hle
        · obtain ⟨r, rfl⟩ :=
            List.prefix_of_prefix_length_le (List.prefix_append (a :: x) (c :: t')) hpre hle
          have hr : r <+: c :: t' := (List.prefix_append_right_inj (a :: x)).1 hpre
          cases r with
          | nil =>
              rw [List.append_nil]
          | cons d r =>
              obtain rfl := (List.cons_prefix_cons.1 hr).1
              exact absurd (List.mem_append_right _ (List.mem_cons_self ..)) hc
      exact hshort.trans (List.prefix_append (a :: x) (c :: t))

omit [DecidableEq α] in
/-- Nor is what follows the needle. -/
theorem NeverStarts.found {t t' : List α} (h : NeverStarts needle x (needle ++ t)) :
    NeverStarts needle x (needle ++ t') := by
  induction x with
  | nil => trivial
  | cons a x ih =>
      refine ⟨fun hpre => h.1 ?_, ih h.2⟩
      have hlong : needle <+: a :: x ++ needle := by
        have hall : a :: x ++ needle <+: a :: (x ++ (needle ++ t')) := ⟨t', by simp⟩
        refine List.prefix_of_prefix_length_le hpre hall ?_
        rw [List.length_append]
        omega
      exact hlong.trans ⟨t, by simp⟩

end UCache.Lib
