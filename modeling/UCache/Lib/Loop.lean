/-
Module: UCache.Lib.Loop
Purpose: A guarded loop over a state, run with a bounded number of turns: where it ends, that a
  measure which every turn brings closer to its bound makes it end, and that a turn which brings the
  state back to where it was keeps it from ending.
Trusted boundary: none
Main exports: loopFor, Running, loopFor_eq_some_iff
-/
import Mathlib.Data.Nat.Find
import Mathlib.Logic.Function.Iterate
import UCache.Lib.Faults

namespace UCache.Lib

universe u

variable {S : Type u}

/-- `while (guard s) s = turn s`, for at most as many tests of the guard; nothing when they do not
do. -/
def loopFor (guard : S → Bool) (turn : S → S) : Nat → S → Option S
  | 0, _ => none
  | n + 1, s => if guard s then loopFor guard turn n (turn s) else some s

/-- The guard lets turn `k` and all before it happen. -/
def Running (guard : S → Bool) (turn : S → S) (s : S) (k : Nat) : Prop :=
  ∀ j ≤ k, guard (turn^[j] s) = true

variable {guard : S → Bool} {turn : S → S}

/-- The loop ends in the first state that the guard refuses. -/
theorem loopFor_eq_some_iff {n : Nat} {s r : S} :
    loopFor guard turn n s = some r ↔
      ∃ k < n, (∀ j < k, guard (turn^[j] s) = true) ∧ guard (turn^[k] s) = false ∧
        r = turn^[k] s := by
  induction n generalizing s with
  | zero => simp [loopFor]
  | succ n ih =>
      by_cases hg : guard s = true
      · rw [loopFor, if_pos hg, ih]
        constructor
        · rintro ⟨k, hk, hrun, hstop, hr⟩
          refine ⟨k + 1, by omega, ?_, by rwa [Function.iterate_succ_apply],
            by rw [hr, Function.iterate_succ_apply]⟩
          intro j hj
          cases j with
          | zero => exact hg
          | succ j =>
              rw [Function.iterate_succ_apply]
              exact hrun j (by omega)
        · rintro ⟨k, hk, hrun, hstop, hr⟩
          cases k with
          | zero =>
              rw [Function.iterate_zero_apply, hg] at hstop
              cases hstop
          | succ k =>
              refine ⟨k, by omega, fun j hj => ?_, by rwa [← Function.iterate_succ_apply],
                by rw [hr, Function.iterate_succ_apply]⟩
              rw [← Function.iterate_succ_apply]
              exact hrun (j + 1) (by omega)
      · rw [loopFor, if_neg hg]
        constructor
        · intro h
          cases h
          exact ⟨0, by omega, by simp, by simpa using hg, rfl⟩
        · rintro ⟨k, -, hrun, -, hr⟩
          cases k with
          | zero => rw [hr, Function.iterate_zero_apply]
          | succ k => exact absurd (hrun 0 (by omega)) hg

/-- A loop whose every turn raises a measure that the guard bounds ends. -/
theorem loopFor_ends {s : S} (measure : S → Nat) (bound : Nat)
    (hbound : ∀ k, Running guard turn s k → measure (turn^[k] s) ≤ bound)
    (hraise : ∀ k, Running guard turn s k →
      measure (turn^[k] s) < measure (turn^[k + 1] s)) :
    ∃ n r, loopFor guard turn n s = some r := by
  -- Turn `k` finds the measure at `k` at least, so some turn up to the bound is refused.
  have hlarge : ∀ k, Running guard turn s k → k ≤ measure (turn^[k] s) := by
    intro k
    induction k with
    | zero => exact fun _ => Nat.zero_le _
    | succ k ih =>
        intro hrun
        have hbefore : Running guard turn s k := fun j hj => hrun j (by omega)
        have hle := ih hbefore
        have hlt := hraise k hbefore
        omega
  have hstop : ∃ k, guard (turn^[k] s) = false := by
    by_contra hnone
    have hrun : Running guard turn s (bound + 1) := fun j _ => by
      cases hj : guard (turn^[j] s) with
      | true => rfl
      | false => exact absurd ⟨j, hj⟩ hnone
    have hle := hlarge _ hrun
    have hmax := hbound _ hrun
    omega
  classical
  refine ⟨Nat.find hstop + 1, turn^[Nat.find hstop] s, ?_⟩
  refine loopFor_eq_some_iff.2 ⟨Nat.find hstop, by omega, fun j hj => ?_, Nat.find_spec hstop, rfl⟩
  simpa using Nat.find_min hstop hj

/-- A loop that is back at the view of a state the guard lets through, as far as guard and turn look
at it, does not end. -/
theorem loopFor_stuck {V : Type u} {s : S} (view : S → V)
    (hguard : ∀ a b, view a = view b → guard a = guard b)
    (hturn : ∀ a b, view a = view b → view (turn a) = view (turn b)) {k : Nat}
    (hrun : Running guard turn s k)
    (hback : view (turn^[k + 1] s) = view (turn^[k] s)) (n : Nat) (r : S) :
    loopFor guard turn n s ≠ some r := by
  have hstays : ∀ i, view (turn^[k + i] s) = view (turn^[k] s) := by
    intro i
    induction i with
    | zero => rfl
    | succ i ih =>
        rw [Function.iterate_succ_apply'] at hback
        rw [← Nat.add_assoc, Function.iterate_succ_apply', hturn _ _ ih, hback]
  intro h
  obtain ⟨e, -, -, hstop, -⟩ := loopFor_eq_some_iff.1 h
  by_cases hle : e ≤ k
  · rw [hrun e hle] at hstop
    cases hstop
  · have hsame := hguard _ _ (hstays (e - k))
    rw [Nat.add_sub_cancel' (by omega), hstop, hrun k (Nat.le_refl k)] at hsame
    cases hsame

/-! ### Folds -/

/-- What every turn of a fold keeps of the turns taken and the state, the fold keeps. -/
theorem foldl_history {α : Type u} {f : S → α → S} {P : List α → S → Prop}
    (hf : ∀ d s x, P d s → P (d ++ [x]) (f s x)) {l d : List α} {s : S} (hs : P d s) :
    P (d ++ l) (l.foldl f s) := by
  induction l generalizing d s with
  | nil =>
      rw [List.append_nil]
      exact hs
  | cons x rest ih =>
      have htail := ih (hf d s x hs)
      rwa [List.append_assoc] at htail

/-! ### Folds that may fail -/

/-- What every step of a fold keeps, the fold keeps. -/
theorem foldlM_keeps {ε α : Type u} {f : S → α → Except ε S} {P : S → Prop} {l : List α}
    (hf : ∀ s x s', x ∈ l → P s → f s x = .ok s' → P s') {s s' : S} (hs : P s)
    (h : l.foldlM f s = .ok s') : P s' := by
  induction l generalizing s with
  | nil =>
      cases h
      exact hs
  | cons x rest ih =>
      rw [List.foldlM_cons] at h
      obtain ⟨mid, hx, hrest⟩ := bind_eq_ok h
      exact ih (fun s y s' hy => hf s y s' (by simp [hy])) (hf s x mid (by simp) hs hx) hrest

/-- What every step keeps of the turns taken and the state, the fold keeps. -/
theorem foldlM_history {ε α : Type u} {f : S → α → Except ε S} {P : List α → S → Prop}
    (hf : ∀ d s x s', P d s → f s x = .ok s' → P (d ++ [x]) s') {l d : List α} {s s' : S}
    (hs : P d s) (h : l.foldlM f s = .ok s') : P (d ++ l) s' := by
  induction l generalizing d s with
  | nil =>
      cases h
      rw [List.append_nil]
      exact hs
  | cons x rest ih =>
      rw [List.foldlM_cons] at h
      obtain ⟨mid, hx, hrest⟩ := bind_eq_ok h
      have htail := ih (hf d s x mid hs hx) hrest
      rwa [List.append_assoc] at htail

/-- What every failing step says holds of how the fold fails. -/
theorem foldlM_error {ε α : Type u} {f : S → α → Except ε S} {P : ε → Prop}
    (hf : ∀ s x e, f s x = .error e → P e) {l : List α} {s : S} {e : ε}
    (h : l.foldlM f s = .error e) : P e := by
  induction l generalizing s with
  | nil => cases h
  | cons x rest ih =>
      rw [List.foldlM_cons] at h
      cases hx : f s x with
      | error e' =>
          rw [hx] at h
          cases h
          exact hf s x e hx
      | ok mid =>
          rw [hx] at h
          exact ih h

end UCache.Lib
