/-
Module: UCache.Lib.Run
Purpose: Runs of a deterministic step function whose actions carry every choice of the
  environment (the scheduler, the disk, the wire), and the invariant rules for them.
Trusted boundary: none
Main exports: exec, Along, exec_invariant
-/
import Mathlib.Data.List.Basic

namespace UCache.Lib

universe u v

variable {σ : Type u} {α : Type v} {as : List α} {cond : σ → α → Prop}

/-- Run the actions in order.  `none` means that some action was not enabled. -/
def exec (step : σ → α → Option σ) : σ → List α → Option σ
  | s, [] => some s
  | s, a :: as => (step s a).bind fun t => exec step t as

/-- Every step the run takes meets `cond`, a condition on the state before the step and the
action taken. -/
def Along (step : σ → α → Option σ) (cond : σ → α → Prop) : σ → List α → Prop
  | _, [] => True
  | s, a :: as => cond s a ∧ ∀ t, step s a = some t → Along step cond t as

variable {step : σ → α → Option σ}

@[simp] theorem exec_nil (s : σ) : exec step s [] = some s := rfl

/-- A nonempty run splits into its first step and the rest. -/
theorem exec_cons_inv {s u : σ} {a : α} (h : exec step s (a :: as) = some u) :
    ∃ t, step s a = some t ∧ exec step t as = some u := by
  simpa only [exec, Option.bind_eq_some_iff] using h

/-- A run over `as ++ bs` passes through a state that `as` reaches. -/
theorem exec_append_inv {bs : List α} {s u : σ} (h : exec step s (as ++ bs) = some u) :
    ∃ t, exec step s as = some t ∧ exec step t bs = some u := by
  induction as generalizing s with
  | nil => exact ⟨s, rfl, h⟩
  | cons a as ih =>
      obtain ⟨m, hm, hrest⟩ := exec_cons_inv h
      obtain ⟨t, ht, hu⟩ := ih hrest
      exact ⟨t, by simp [exec, hm, ht], hu⟩

/-- Two runs compose. -/
theorem exec_append {bs : List α} {s t u : σ} (h1 : exec step s as = some t)
    (h2 : exec step t bs = some u) : exec step s (as ++ bs) = some u := by
  induction as generalizing s with
  | nil =>
      cases h1
      exact h2
  | cons a as ih =>
      obtain ⟨m, hm, hrest⟩ := exec_cons_inv h1
      simp [exec, hm, ih hrest]

/-- What holds of a history and a state, and is kept by a step that meets the condition, holds
after every run whose steps all meet it. -/
theorem exec_history_along (inv : List α → σ → Prop)
    (keep : ∀ past s a t, inv past s → cond s a → step s a = some t → inv (past ++ [a]) t) :
    ∀ (past : List α) {as s t}, inv past s → Along step cond s as → exec step s as = some t →
      inv (past ++ as) t
  | past, [], s, t, hs, _, hrun => by
      cases hrun
      simpa using hs
  | past, a :: as, s, t, hs, halong, hrun => by
      obtain ⟨m, hm, hrest⟩ := exec_cons_inv hrun
      have hnext := keep past s a m hs halong.1 hm
      simpa using exec_history_along inv keep (past ++ [a]) hnext (halong.2 m hm) hrest

/-- The same with no condition on the steps. -/
theorem exec_history (inv : List α → σ → Prop)
    (keep : ∀ past s a t, inv past s → step s a = some t → inv (past ++ [a]) t) :
    ∀ (past : List α) {as s t}, inv past s → exec step s as = some t → inv (past ++ as) t
  | past, [], s, t, hs, hrun => by
      cases hrun
      simpa using hs
  | past, a :: as, s, t, hs, hrun => by
      obtain ⟨m, hm, hrest⟩ := exec_cons_inv hrun
      simpa using exec_history inv keep (past ++ [a]) (keep past s a m hs hm) hrest

/-- A property kept by every step that meets the condition holds after every such run. -/
theorem exec_invariant_along (inv : σ → Prop)
    (keep : ∀ s a t, inv s → cond s a → step s a = some t → inv t) {s t : σ} (hs : inv s)
    (halong : Along step cond s as) (hrun : exec step s as = some t) : inv t :=
  exec_history_along (fun _ => inv) (fun _ => keep) [] hs halong hrun

/-- A property kept by every step holds after every run. -/
theorem exec_invariant (inv : σ → Prop) (keep : ∀ s a t, inv s → step s a = some t → inv t)
    {s t : σ} (hs : inv s) (hrun : exec step s as = some t) : inv t :=
  exec_history (fun _ => inv) (fun _ => keep) [] hs hrun

/-- Two conditions, each met by every step. -/
theorem Along.and {c₁ c₂ : σ → α → Prop} :
    ∀ {as : List α} {s : σ}, Along step c₁ s as → Along step c₂ s as →
      Along step (fun s a => c₁ s a ∧ c₂ s a) s as
  | [], _, _, _ => trivial
  | _ :: _, _, h1, h2 => ⟨⟨h1.1, h2.1⟩, fun t ht => (h1.2 t ht).and (h2.2 t ht)⟩

theorem Along.imp {c₁ c₂ : σ → α → Prop} (h : ∀ s a, c₁ s a → c₂ s a) :
    ∀ {as : List α} {s : σ}, Along step c₁ s as → Along step c₂ s as
  | [], _, _ => trivial
  | a :: _, s, h1 => ⟨h s a h1.1, fun t ht => Along.imp h (h1.2 t ht)⟩

/-- The steps before one of them, and that one. -/
theorem Along.split {cond : σ → α → Prop} :
    ∀ {past rest : List α} {a : α} {s t : σ}, Along step cond s (past ++ a :: rest) →
      exec step s past = some t → Along step cond s past ∧ cond t a
  | [], _, _, _, _, h, hrun => by
      cases hrun
      exact ⟨trivial, h.1⟩
  | b :: past, _, _, s, t, h, hrun => by
      obtain ⟨m, hm, hrest⟩ := exec_cons_inv hrun
      refine ⟨⟨h.1, ?_⟩, (Along.split (h.2 m hm) hrest).2⟩
      intro u hu
      rw [hm] at hu
      cases hu
      exact (Along.split (h.2 m hm) hrest).1

/-- A run spelled out step by step. -/
theorem Along.cons {cond : σ → α → Prop} {s t : σ} {a : α} {as : List α} (hcond : cond s a)
    (hstep : step s a = some t) (h : Along step cond t as) : Along step cond s (a :: as) := by
  refine ⟨hcond, ?_⟩
  intro u hu
  rw [hstep] at hu
  cases hu
  exact h

/-- A condition that every action of the list meets in every state. -/
theorem along_of_forall : ∀ {as : List α} {s : σ}, (∀ a ∈ as, ∀ s, cond s a) → Along step cond s as
  | [], _, _ => trivial
  | a :: _, s, h =>
      ⟨h a (by simp) s, fun _ _ => along_of_forall fun b hb => h b (by simp [hb])⟩

/-- Run the actions and check each step, a condition that can be evaluated. -/
def alongB (step : σ → α → Option σ) (check : σ → α → Bool) : σ → List α → Bool
  | _, [] => true
  | s, a :: as => check s a && ((step s a).map fun t => alongB step check t as).getD true

/-- A checked run meets the condition, where the check decides it on the states that occur. -/
theorem along_of_check {check : σ → α → Bool} (inv : σ → Prop) (part : α → Prop)
    (keep : ∀ s a t, inv s → part a → step s a = some t → inv t)
    (sound : ∀ s a, inv s → part a → check s a = true → cond s a) :
    ∀ {as : List α} {s : σ}, inv s → (∀ a ∈ as, part a) → alongB step check s as = true →
      Along step cond s as
  | [], _, _, _, _ => trivial
  | a :: as, s, hs, hpart, h => by
      simp only [alongB, Bool.and_eq_true] at h
      refine ⟨sound s a hs (hpart a (by simp)) h.1, ?_⟩
      intro t ht
      refine along_of_check inv part keep sound (keep s a t hs (hpart a (by simp)) ht)
        (fun b hb => hpart b (by simp [hb])) ?_
      simpa [ht] using h.2

end UCache.Lib
