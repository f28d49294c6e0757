/-
Module: UCache.Lib.Faults
Purpose: Programs that end with a result or with one of several faults, and the rules by which a
  program is shown to end with none of a given kind.
Trusted boundary: none
Main exports: bind_eq_ok, Avoids, avoids_bind
-/
import Mathlib.Data.List.Basic

namespace UCache.Lib

universe u

variable {ε α β S : Type u}

/-- A sequence that ends with a result does so in both parts. -/
theorem bind_eq_ok {x : Except ε α} {f : α → Except ε β} {b : β} (h : (x >>= f) = .ok b) :
    ∃ a, x = .ok a ∧ f a = .ok b := by
  cases x with
  | error e => cases h
  | ok a => exact ⟨a, rfl, h⟩

/-- The program does not end with this fault. -/
def Avoids (e : ε) (x : Except ε α) : Prop := x ≠ .error e

variable {e : ε}

@[simp] theorem avoids_ok (a : α) : Avoids e (.ok a : Except ε α) := by simp [Avoids]

theorem avoids_error {e' : ε} : Avoids e (.error e' : Except ε α) ↔ e' ≠ e := by simp [Avoids]

/-- The first part avoids it, and from its result the second. -/
theorem avoids_bind {x : Except ε α} {f : α → Except ε β} :
    Avoids e (x >>= f) ↔ Avoids e x ∧ ∀ a, x = .ok a → Avoids e (f a) := by
  cases x with
  | error e' =>
      show Avoids e (.error e' : Except ε β) ↔ _
      rw [avoids_error, avoids_error]
      simp
  | ok a =>
      show Avoids e (f a) ↔ _
      simp

/-- A loop avoids it when every turn does that the loop comes to. -/
theorem avoids_foldlM {f : S → α → Except ε S} {l : List α} {s : S} :
    Avoids e (l.foldlM f s) ↔
      ∀ pre x post st, l = pre ++ x :: post → pre.foldlM f s = .ok st → Avoids e (f st x) := by
  induction l generalizing s with
  | nil => exact ⟨fun _ pre x post _ h => absurd h.symm (by simp), fun _ => avoids_ok s⟩
  | cons y rest ih =>
      rw [List.foldlM_cons, avoids_bind]
      constructor
      · rintro ⟨hy, hrest⟩ pre x post st hl hpre
        cases pre with
        | nil =>
            obtain ⟨rfl, rfl⟩ := List.cons.inj hl
            cases hpre
            exact hy
        | cons z pre =>
            obtain ⟨rfl, rfl⟩ := List.cons.inj hl
            obtain ⟨mid, hmid, hpre⟩ := bind_eq_ok ((List.foldlM_cons ..).symm.trans hpre)
            exact ih.1 (hrest mid hmid) pre x post st rfl hpre
      · intro h
        refine ⟨h [] y rest s rfl rfl, fun mid hmid => ih.2 fun pre x post st hl hpre => ?_⟩
        refine h (y :: pre) x post st (by rw [hl, List.cons_append]) ?_
        rw [List.foldlM_cons, hmid]
        exact hpre

end UCache.Lib
