/-
Module: UCache.Lib.Checked
Purpose: Programs over a state that stop where they would leave a buffer, and rules of pre- and
  postconditions by which they are shown not to.
Trusted boundary: none
Main exports: Checked, Meets, Meets.pure
-/
import Mathlib.Data.List.Basic

namespace UCache.Lib

universe u

/-- A program over a state.  It has no result when it accesses something outside of a buffer. -/
abbrev Checked (σ α : Type) : Type := StateT σ Option α

variable {σ α β : Type}

/-- From every state with `P` the program runs to its end, with a result and a state that have
`Q`. -/
def Meets (P : σ → Prop) (p : Checked σ α) (Q : α → σ → Prop) : Prop :=
  ∀ s, P s → ∃ a s', p s = some (a, s') ∧ Q a s'

namespace Meets

variable {P P' : σ → Prop} {p : Checked σ α} {Q Q' : α → σ → Prop}

theorem mono (h : Meets P p Q) (hpre : ∀ s, P' s → P s) (hpost : ∀ a s, Q a s → Q' a s) :
    Meets P' p Q' := by
  intro s hs
  obtain ⟨a, s', hrun, hq⟩ := h s (hpre s hs)
  exact ⟨a, s', hrun, hpost a s' hq⟩

theorem post (h : Meets P p Q) (hpost : ∀ a s, Q a s → Q' a s) : Meets P p Q' :=
  h.mono (fun _ hs => hs) hpost

theorem pre (h : Meets P p Q) (hpre : ∀ s, P' s → P s) : Meets P' p Q :=
  h.mono hpre fun _ _ hq => hq

protected theorem pure {a : α} (h : ∀ s, P s → Q a s) : Meets P (pure a) Q :=
  fun s hs => ⟨a, s, rfl, h s hs⟩

protected theorem bind {f : α → Checked σ β} {R : β → σ → Prop} (hp : Meets P p Q)
    (hf : ∀ a, Meets (Q a) (f a) R) : Meets P (p >>= f) R := by
  intro s hs
  obtain ⟨a, s', hrun, hq⟩ := hp s hs
  obtain ⟨b, s'', hrun', hr⟩ := hf a s' hq
  refine ⟨b, s'', ?_, hr⟩
  show (p s).bind (fun x => f x.1 x.2) = _
  rw [hrun]
  exact hrun'

protected theorem ite {c : Prop} [Decidable c] {q : Checked σ α}
    (hp : c → Meets P p Q) (hq : ¬ c → Meets P q Q) : Meets P (if c then p else q) Q := by
  by_cases h : c
  · rw [if_pos h]
    exact hp h
  · rw [if_neg h]
    exact hq h

/-- A fact that the precondition has and that is not about the state. -/
theorem fact {F : Prop} (h : F → Meets P p Q) : Meets (fun s => F ∧ P s) p Q :=
  fun s hs => h hs.1 s hs.2

end Meets

/-! ### Programs that note a failure -/

/-- The state has `I`, and as long as no failure is noted in it, `R` as well. -/
def Guarded (I : σ → Prop) (failed : σ → Bool) (R : σ → Prop) (s : σ) : Prop :=
  I s ∧ (failed s = false → R s)

/-- The program keeps `I` and undoes no failure: what holds unless there was one still does. -/
def Sticky (I : σ → Prop) (failed : σ → Bool) (p : Checked σ α) : Prop :=
  ∀ R : Prop, Meets (Guarded I failed fun _ => R) p fun _ => Guarded I failed fun _ => R

/-- It undoes no failure, and unless there was one its result has `F`. -/
def Provides (I : σ → Prop) (failed : σ → Bool) (p : Checked σ α) (F : α → Prop) : Prop :=
  ∀ R : Prop, Meets (Guarded I failed fun _ => R) p fun a => Guarded I failed fun _ => R ∧ F a

theorem Guarded.mono {I : σ → Prop} {failed : σ → Bool} {R R' : σ → Prop} {s : σ}
    (h : Guarded I failed R s) (himp : R s → R' s) : Guarded I failed R' s :=
  ⟨h.1, fun hf => himp (h.2 hf)⟩

namespace Sticky

variable {I : σ → Prop} {failed : σ → Bool} {p : Checked σ α}

protected theorem pure (a : α) : Sticky I failed (pure a) :=
  fun _ => Meets.pure fun _ h => h

protected theorem bind {f : α → Checked σ β} (hp : Sticky I failed p)
    (hf : ∀ a, Sticky I failed (f a)) : Sticky I failed (p >>= f) :=
  fun R => (hp R).bind fun a => hf a R

protected theorem ite {c : Prop} [Decidable c] {q : Checked σ α} (hp : Sticky I failed p)
    (hq : Sticky I failed q) : Sticky I failed (if c then p else q) :=
  fun R => Meets.ite (fun _ => hp R) fun _ => hq R

theorem provides (hp : Sticky I failed p) : Provides I failed p fun _ => True :=
  fun R => (hp R).post fun _ _ h => h.mono fun hr => ⟨hr, trivial⟩

end Sticky

namespace Provides

variable {I : σ → Prop} {failed : σ → Bool} {p : Checked σ α} {F G : α → Prop}

theorem mono (hp : Provides I failed p F) (himp : ∀ a, F a → G a) : Provides I failed p G :=
  fun R => (hp R).post fun _ _ h => h.mono fun hr => ⟨hr.1, himp _ hr.2⟩

theorem sticky (hp : Provides I failed p F) : Sticky I failed p :=
  fun R => (hp R).post fun _ _ h => h.mono And.left

protected theorem pure {a : α} (h : F a) : Provides I failed (pure a) F :=
  fun _ => Meets.pure fun _ hs => hs.mono fun hr => ⟨hr, h⟩

/-- What the first program gives may be used about the second, since a failure of the first is one
of both. -/
protected theorem bind {f : α → Checked σ β} {H : β → Prop} (hp : Provides I failed p F)
    (hf : ∀ a, Provides I failed (f a) fun b => F a → H b) : Provides I failed (p >>= f) H :=
  fun R => (hp R).bind fun a => (hf a _).post fun _ _ h => h.mono fun hr =>
    ⟨hr.1.1, hr.2 hr.1.2⟩

protected theorem ite {c : Prop} [Decidable c] {q : Checked σ α} (hp : Provides I failed p F)
    (hq : Provides I failed q F) : Provides I failed (if c then p else q) F :=
  fun R => Meets.ite (fun _ => hp R) fun _ => hq R

end Provides

end UCache.Lib
