/-
Module: UCache.Lib.Leases
Purpose: One thing lent to any number of holders, replaced only while nobody holds it, and removed
  once lending has ended and every holder has given it back.
Trusted boundary: none
Main exports: Leases, Leases.Safe, Leases.Safe.lend
-/
import Mathlib.Logic.Function.Basic
import UCache.Lib.Totals

namespace UCache.Lib

/-- The thing that is lent, by number; how many were made; who holds which; how many holders there
are; whether lending goes on; and the things that are no more. -/
structure Leases (ι : Type) where
  thing : Option Nat
  made : Nat
  held : ι → Option Nat
  count : Nat
  lending : Bool
  gone : List Nat

namespace Leases

variable {ι : Type}

/-- One for a holder. -/
def weight (held : ι → Option Nat) (i : ι) : Nat := if (held i).isSome then 1 else 0

/-- The count is right, every holder has the thing that is there, and nothing that was removed comes
back or is removed again. -/
structure Safe (l : Leases ι) : Prop where
  counted : Total (weight l.held) l.count
  live : ∀ i f, l.held i = some f → l.thing = some f
  fresh : ∀ f, l.thing = some f → f < l.made ∧ f ∉ l.gone
  past : ∀ f ∈ l.gone, f < l.made
  once : l.gone.Nodup

/-- The first thing, before anyone asks for it. -/
theorem safe_start (lending : Bool) :
    Safe (⟨some 0, 1, fun _ => none, 0, lending, []⟩ : Leases ι) where
  counted := Total.zero
  live := by
    intro i f hi
    cases hi
  fresh := by
    intro f hf
    cases hf
    exact ⟨Nat.one_pos, List.not_mem_nil⟩
  past := by simp
  once := List.nodup_nil

namespace Safe

variable {l : Leases ι}

/-- With the count at zero nobody holds the thing. -/
theorem idle (h : Safe l) (hzero : l.count = 0) (i : ι) : l.held i = none := by
  have hle := h.counted.le i
  rw [hzero] at hle
  cases hi : l.held i with
  | none => rfl
  | some f => simp [weight, hi] at hle

/-- With nobody holding it the count is at zero. -/
theorem zero (h : Safe l) (hidle : ∀ i, l.held i = none) : l.count = 0 := by
  apply Total.unique h.counted
  apply Total.zero.congr
  intro i
  simp [weight, hidle i]

/-- The thing goes among those that are no more. -/
theorem gone_append (h : Safe l) :
    (∀ f ∈ l.gone ++ l.thing.toList, f < l.made) ∧ (l.gone ++ l.thing.toList).Nodup := by
  constructor
  · intro f hf
    rcases List.mem_append.1 hf with hf | hf
    · exact h.past f hf
    · exact (h.fresh f (Option.mem_toList.1 hf)).1
  · apply List.Nodup.append h.once
    · cases l.thing <;> simp
    · intro f hgone hthing
      exact (h.fresh f (Option.mem_toList.1 hthing)).2 hgone

theorem replace (h : Safe l) (hzero : l.count = 0) :
    Safe { l with thing := some l.made, made := l.made + 1, gone := l.gone ++ l.thing.toList } where
  counted := h.counted
  live := by
    intro i f hi
    rw [h.idle hzero i] at hi
    cases hi
  fresh := by
    intro f hf
    cases hf
    refine ⟨Nat.lt_succ_self _, fun hgone => ?_⟩
    exact Nat.lt_irrefl _ (h.gone_append.1 _ hgone)
  past := fun f hf => Nat.lt_succ_of_lt (h.gone_append.1 f hf)
  once := h.gone_append.2

theorem stop (h : Safe l) : Safe { l with lending := false } where
  counted := h.counted
  live := h.live
  fresh := h.fresh
  past := h.past
  once := h.once

theorem remove (h : Safe l) (hzero : l.count = 0) :
    Safe { l with thing := none, gone := l.gone ++ l.thing.toList } where
  counted := h.counted
  live := by
    intro i f hi
    rw [h.idle hzero i] at hi
    cases hi
  fresh := by
    intro f hf
    cases hf
  past := h.gone_append.1
  once := h.gone_append.2

variable [DecidableEq ι]

/-- A holder that has the thing, or nothing. -/
theorem live_update {held : ι → Option Nat} {thing x : Option Nat} {i : ι}
    (hlive : ∀ j g, held j = some g → thing = some g) (hx : ∀ g, x = some g → thing = some g) :
    ∀ j g, Function.update held i x j = some g → thing = some g := by
  intro j g hj
  by_cases hji : j = i
  · subst hji
    rw [Function.update_self] at hj
    exact hx g hj
  · rw [Function.update_of_ne hji] at hj
    exact hlive j g hj

/-- The holders and their number change together. -/
theorem counted_update (h : Safe l) (i : ι) (x : Option Nat) :
    Total (weight (Function.update l.held i x))
      (l.count - weight l.held i + if x.isSome then 1 else 0) := by
  apply (h.counted.update i _).congr
  intro j
  by_cases hj : j = i
  · subst hj
    simp [weight]
  · simp [weight, Function.update_of_ne hj]

theorem lend (h : Safe l) {i : ι} {f : Nat} (hthing : l.thing = some f) (hfree : l.held i = none) :
    Safe { l with held := Function.update l.held i (some f), count := l.count + 1 } where
  counted := by
    have hnew := h.counted_update i (some f)
    simp only [weight, hfree, Option.isSome_none, Option.isSome_some, if_true] at hnew
    exact hnew
  live := live_update h.live fun g hg => hg ▸ hthing
  fresh := h.fresh
  past := h.past
  once := h.once

theorem back (h : Safe l) {i : ι} {f : Nat} (hi : l.held i = some f) :
    Safe { l with held := Function.update l.held i none, count := l.count - 1 } where
  counted := by
    have hnew := h.counted_update i none
    simp only [weight, hi, Option.isSome_none, Option.isSome_some, if_true] at hnew
    exact hnew
  live := live_update h.live fun g hg => absurd hg.symm (Option.some_ne_none g)
  fresh := h.fresh
  past := h.past
  once := h.once

end Safe

end Leases

end UCache.Lib
