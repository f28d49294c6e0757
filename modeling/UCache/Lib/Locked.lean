/-
Module: UCache.Lib.Locked
Purpose: Any number of threads that call the operations of one object, each operation a section of
  many turns under one lock: where every section finishes with what its call means, every run is
  that of the calls made one after the other, in the order of their answers.
Trusted boundary: none
Main exports: Locked, Locked.State, Locked.step
-/
import Mathlib.Logic.Function.Basic
import UCache.Lib.Run

namespace UCache.Lib

universe u

variable {σ C A F : Type u}

/-- An object `σ` under a lock, with calls `C`, answers `A`, and places `F` inside a section. -/
structure Locked (σ C A F : Type u) where
  /-- The answer of a call that never asks for the lock. -/
  refused : C → Option A
  /-- The place where a section starts once it has the lock. -/
  enter : C → σ → F
  /-- One turn of a section. -/
  turn : σ × F → σ × F
  /-- The answer with which a section is about to give the lock back. -/
  leave : F → Option A

namespace Locked

/-- Where a thread stands in its call. -/
inductive Place (C F : Type u) where
  | waiting (c : C)
  | inside (c : C) (f : F)

/-- A call that has been answered. -/
structure Entry (C A : Type u) where
  thread : Nat
  call : C
  answer : A

/-- The object, who holds its lock, the threads in a call, and the calls answered so far. -/
structure State (σ C A F : Type u) where
  obj : σ
  holder : Option Nat := none
  threads : Nat → Option (Place C F) := fun _ => none
  log : List (Entry C A) := []

/-- A thread makes a call, or goes on with the one it is in. -/
inductive Act (C : Type u) where
  | call (t : Nat) (c : C)
  | turn (t : Nat)

variable (G : Locked σ C A F)

/-- One step of one thread.  A thread that waits for the lock takes no step while it is held. -/
def step (w : State σ C A F) : Act C → Option (State σ C A F)
  | .call t c =>
      match w.threads t with
      | none => some { w with threads := Function.update w.threads t (some (.waiting c)) }
      | some _ => none
  | .turn t =>
      match w.threads t with
      | none => none
      | some (.waiting c) =>
          match G.refused c with
          | some a => some { w with
              threads := Function.update w.threads t none, log := w.log ++ [⟨t, c, a⟩] }
          | none =>
              if w.holder = none then some { w with
                holder := some t
                threads := Function.update w.threads t (some (.inside c (G.enter c w.obj))) }
              else none
      | some (.inside c f) =>
          match G.leave f with
          | some a => some { w with
              holder := none
              threads := Function.update w.threads t none
              log := w.log ++ [⟨t, c, a⟩] }
          | none => some { w with
              obj := (G.turn (w.obj, f)).1
              threads := Function.update w.threads t (some (.inside c (G.turn (w.obj, f)).2)) }

/-- What one step does, and when. -/
inductive Took (w : State σ C A F) : State σ C A F → Prop where
  | called {t : Nat} (c : C) (hidle : w.threads t = none) :
      Took w { w with threads := Function.update w.threads t (some (.waiting c)) }
  | refused {t : Nat} {c : C} {a : A} (hwait : w.threads t = some (.waiting c))
      (href : G.refused c = some a) :
      Took w { w with threads := Function.update w.threads t none, log := w.log ++ [⟨t, c, a⟩] }
  | entered {t : Nat} {c : C} (hwait : w.threads t = some (.waiting c))
      (href : G.refused c = none) (hfree : w.holder = none) :
      Took w { w with
        holder := some t
        threads := Function.update w.threads t (some (.inside c (G.enter c w.obj))) }
  | left {t : Nat} {c : C} {f : F} {a : A} (hin : w.threads t = some (.inside c f))
      (hleave : G.leave f = some a) :
      Took w { w with
        holder := none
        threads := Function.update w.threads t none
        log := w.log ++ [⟨t, c, a⟩] }
  | turned {t : Nat} {c : C} {f : F} (hin : w.threads t = some (.inside c f))
      (hleave : G.leave f = none) :
      Took w { w with
        obj := (G.turn (w.obj, f)).1
        threads := Function.update w.threads t (some (.inside c (G.turn (w.obj, f)).2)) }

theorem took_of_step {w w' : State σ C A F} {a : Act C} (h : G.step w a = some w') :
    G.Took w w' := by
  unfold step at h
  split at h
  · split at h
    · rename_i hidle
      cases Option.some.inj h
      exact .called _ hidle
    · exact nomatch h
  · split at h
    · exact nomatch h
    · rename_i hwait
      split at h
      · rename_i href
        cases Option.some.inj h
        exact .refused hwait href
      · rename_i href
        split at h
        · rename_i hfree
          cases Option.some.inj h
          exact .entered hwait href hfree
        · exact nomatch h
    · rename_i hin
      split at h
      · rename_i hleave
        cases Option.some.inj h
        exact .left hin hleave
      · rename_i hleave
        cases Option.some.inj h
        exact .turned hin hleave

/-- A section that nothing interferes with ends with this object and this answer. -/
inductive Finishes : σ × F → σ × A → Prop where
  | leave {s : σ} {f : F} {a : A} (h : G.leave f = some a) : Finishes (s, f) (s, a)
  | turn {s : σ} {f : F} {r : σ × A} (h : G.leave f = none)
      (rest : Finishes (G.turn (s, f)) r) : Finishes (s, f) r

/-- What every call does to the object, and its answer. -/
structure Means (result : C → σ → σ × A) : Prop where
  refused : ∀ {c : C} {a : A}, G.refused c = some a → ∀ s, result c s = (s, a)
  finishes : ∀ {c : C}, G.refused c = none → ∀ s, G.Finishes (s, G.enter c s) (result c s)

end Locked

/-- The object after the calls of the log, one after the other. -/
def replay (result : C → σ → σ × A) (s : σ) (log : List (Locked.Entry C A)) : σ :=
  log.foldl (fun s e => (result e.call s).1) s

theorem replay_concat (result : C → σ → σ × A) (s : σ) (log : List (Locked.Entry C A))
    (e : Locked.Entry C A) :
    replay result s (log ++ [e]) = (result e.call (replay result s log)).1 := by
  unfold replay
  rw [List.foldl_append]
  rfl

namespace Locked

/-- The answers so far are those of the calls made one after the other; and the thread that holds
the lock, if one does, is about to do what its call means. -/
structure Ordered (G : Locked σ C A F) (result : C → σ → σ × A) (s₀ : σ)
    (w : State σ C A F) : Prop where
  answers : ∀ past e rest, w.log = past ++ e :: rest →
    e.answer = (result e.call (replay result s₀ past)).2
  outside : ∀ t c f, w.threads t = some (.inside c f) → w.holder = some t
  free : w.holder = none → w.obj = replay result s₀ w.log
  held : ∀ t, w.holder = some t → ∃ c f, w.threads t = some (.inside c f) ∧
    G.Finishes (w.obj, f) (result c (replay result s₀ w.log))

variable {G : Locked σ C A F} {result : C → σ → σ × A} {s₀ : σ}

theorem ordered_start : Ordered G result s₀ { obj := s₀ } where
  answers := fun past e rest h => by simp at h
  outside := fun t c f h => by cases h
  free := fun _ => rfl
  held := fun t h => by cases h

/-- One more answer, as its call means it. -/
theorem answers_concat {log : List (Entry C A)} {e : Entry C A}
    (h : ∀ past e rest, log = past ++ e :: rest →
      e.answer = (result e.call (replay result s₀ past)).2)
    (he : e.answer = (result e.call (replay result s₀ log)).2) :
    ∀ past e' rest, log ++ [e] = past ++ e' :: rest →
      e'.answer = (result e'.call (replay result s₀ past)).2 := by
  intro past e' rest hsplit
  rcases List.eq_nil_or_concat rest with rfl | ⟨rest, last, rfl⟩
  · obtain ⟨rfl, hlast⟩ := List.append_inj' hsplit rfl
    cases hlast
    exact he
  · have hassoc : past ++ e' :: rest.concat last = (past ++ e' :: rest) ++ [last] := by simp
    rw [hassoc] at hsplit
    obtain ⟨rfl, -⟩ := List.append_inj' hsplit rfl
    exact h past e' rest rfl

/-- A thread that is not in a section still is not, and the others are where they were. -/
theorem inside_of_update {threads : Nat → Option (Place C F)} {t t' : Nat} {p : Option (Place C F)}
    {c : C} {f : F} (hp : ∀ c f, p ≠ some (.inside c f))
    (h : Function.update threads t p t' = some (.inside c f)) :
    t' ≠ t ∧ threads t' = some (.inside c f) := by
  by_cases ht : t' = t
  · subst ht
    rw [Function.update_self] at h
    exact absurd h (hp c f)
  · rw [Function.update_of_ne ht] at h
    exact ⟨ht, h⟩

/-- The thread in a section is another one. -/
theorem update_of_inside {threads : Nat → Option (Place C F)} {t t' : Nat}
    {p q : Option (Place C F)} {c : C} {f : F} (hq : threads t = q)
    (hne : ∀ c f, q ≠ some (.inside c f)) (h : threads t' = some (.inside c f)) :
    Function.update threads t p t' = some (.inside c f) := by
  have ht : t' ≠ t := by
    rintro rfl
    rw [hq] at h
    exact hne c f h
  rw [Function.update_of_ne ht]
  exact h

namespace Finishes

variable {s : σ} {f : F} {r : σ × A}

theorem of_leave (h : G.Finishes (s, f) r) {a : A} (hleave : G.leave f = some a) : r = (s, a) := by
  cases h with
  | leave hl =>
      rw [hleave] at hl
      cases hl
      rfl
  | turn hl _ =>
      rw [hleave] at hl
      cases hl

theorem turn_to {p : σ × F} (h : G.leave f = none) (hturn : G.turn (s, f) = p)
    (rest : G.Finishes p r) : G.Finishes (s, f) r := .turn h (hturn ▸ rest)

/-- A loop of so many turns. -/
theorem loop {P : Nat → σ × F} {n : Nat}
    (hturn : ∀ i < n, G.leave (P i).2 = none ∧ G.turn (P i) = P (i + 1))
    (hend : G.Finishes (P n) r) : G.Finishes (P 0) r := by
  induction n with
  | zero => exact hend
  | succ n ih =>
      obtain ⟨hleave, hnext⟩ := hturn n (Nat.lt_succ_self n)
      rw [← hnext] at hend
      exact ih (fun i hi => hturn i (Nat.lt_succ_of_lt hi)) (.turn hleave hend)

theorem of_turn (h : G.Finishes (s, f) r) (hleave : G.leave f = none) :
    G.Finishes (G.turn (s, f)) r := by
  cases h with
  | leave hl =>
      rw [hleave] at hl
      cases hl
  | turn _ rest => exact rest

end Finishes

/-- What one step keeps. -/
theorem Ordered.step (hG : G.Means result) {w w' : State σ C A F} (hw : Ordered G result s₀ w)
    (h : G.Took w w') : Ordered G result s₀ w' := by
  cases h with
  | called c hidle =>
      refine ⟨hw.answers, fun t' c' f hin => ?_, hw.free, fun t' hold => ?_⟩
      · exact hw.outside t' c' f (inside_of_update (by simp) hin).2
      · obtain ⟨c', f, hin, hfin⟩ := hw.held t' hold
        exact ⟨c', f, update_of_inside hidle (by simp) hin, hfin⟩
  | @refused t c a hwait href =>
      -- The call has no effect, whoever is in a section.
      have hmeans := hG.refused href
      have hreplay : replay result s₀ (w.log ++ [⟨t, c, a⟩]) = replay result s₀ w.log := by
        rw [replay_concat, hmeans]
      refine ⟨answers_concat hw.answers (by rw [hmeans]), fun t' c' f hin => ?_, fun hfree => ?_,
        fun t' hold => ?_⟩
      · exact hw.outside t' c' f (inside_of_update (by simp) hin).2
      · rw [hreplay]
        exact hw.free hfree
      · obtain ⟨c', f, hin, hfin⟩ := hw.held t' hold
        rw [hreplay]
        exact ⟨c', f, update_of_inside hwait (by simp) hin, hfin⟩
  | @entered t c hwait href hfree =>
      -- The object is what the calls so far have left.
      refine ⟨hw.answers, fun t' c' f hin => ?_, fun h => (nomatch h), fun t' hold => ?_⟩
      · by_cases ht : t' = t
        · rw [ht]
        · have hold := hw.outside t' c' f ((Function.update_of_ne ht ..).symm.trans hin)
          rw [hfree] at hold
          cases hold
      · cases hold
        refine ⟨c, G.enter c w.obj, Function.update_self .., ?_⟩
        rw [← hw.free hfree]
        exact hG.finishes href w.obj
  | @left t c f a hin hleave =>
      have hhold := hw.outside t c f hin
      obtain ⟨c', f', hin', hfin⟩ := hw.held t hhold
      rw [hin] at hin'
      cases hin'
      have hresult := hfin.of_leave hleave
      refine ⟨answers_concat hw.answers (by rw [hresult]), fun t' c' f' hin' => ?_, fun _ => ?_,
        fun t' h => nomatch h⟩
      · obtain ⟨ht, hin'⟩ := inside_of_update (by simp) hin'
        have hold := hw.outside t' c' f' hin'
        rw [hhold] at hold
        exact absurd (Option.some.inj hold).symm ht
      · rw [replay_concat, hresult]
  | @turned t c f hin hleave =>
      have hhold := hw.outside t c f hin
      obtain ⟨c', f', hin', hfin⟩ := hw.held t hhold
      rw [hin] at hin'
      cases hin'
      refine ⟨hw.answers, fun t' c' f' hin' => ?_, fun hnone => ?_, fun t' hold => ?_⟩
      · by_cases ht : t' = t
        · rw [ht]
          exact hhold
        · exact hw.outside t' c' f' ((Function.update_of_ne ht ..).symm.trans hin')
      · rw [hhold] at hnone
        cases hnone
      · rw [hhold] at hold
        cases hold
        exact ⟨c, _, Function.update_self .., hfin.of_turn hleave⟩

/-- In every run, whatever the order of the turns, the answers are those of the calls made one after
the other. -/
theorem run_ordered (hG : G.Means result) {acts : List (Act C)} {w : State σ C A F}
    (hrun : exec G.step { obj := s₀ } acts = some w) : Ordered G result s₀ w :=
  exec_invariant (Ordered G result s₀) (fun _ _ _ hw h => hw.step hG (G.took_of_step h))
    ordered_start hrun

/-- At some moment of the run, when the call's own section had the lock, the object and the answer
were what the call makes of one object. -/
def AnsweredInside (G : Locked σ C A F) (result : C → σ → σ × A) (s₀ : σ) (acts : List (Act C))
    (e : Entry C A) : Prop :=
  ∃ past m s, past <+: acts ∧ exec G.step { obj := s₀ } past = some m ∧
    m.holder = some e.thread ∧ (m.obj, e.answer) = result e.call s

/-- Every call that asks for the lock is answered inside its own section. -/
theorem answered_inside (hG : G.Means result) {acts : List (Act C)} {w : State σ C A F}
    (hrun : exec G.step { obj := s₀ } acts = some w) :
    ∀ e ∈ w.log, G.refused e.call = none → AnsweredInside G result s₀ acts e := by
  -- Along the run, with the actions taken so far.
  have hall : Ordered G result s₀ w ∧ exec G.step { obj := s₀ } ([] ++ acts) = some w ∧
      ∀ e ∈ w.log, G.refused e.call = none → AnsweredInside G result s₀ ([] ++ acts) e := by
    refine exec_history (fun past m => Ordered G result s₀ m ∧
      exec G.step { obj := s₀ } past = some m ∧
      ∀ e ∈ m.log, G.refused e.call = none → AnsweredInside G result s₀ past e) ?_ []
      ⟨ordered_start, rfl, fun e he => nomatch he⟩ hrun
    rintro past m a m' ⟨hm, hpast, hlog⟩ hstep
    have htook := G.took_of_step hstep
    have hnext : exec G.step { obj := s₀ } (past ++ [a]) = some m' :=
      exec_append hpast (by simp [exec, hstep])
    have hmore : ∀ e, AnsweredInside G result s₀ past e →
        AnsweredInside G result s₀ (past ++ [a]) e := by
      rintro e ⟨before, k, s, hbefore, hrest⟩
      exact ⟨before, k, s, hbefore.trans (List.prefix_append _ _), hrest⟩
    refine ⟨hm.step hG htook, hnext, fun e he href => ?_⟩
    cases htook with
    | called c hidle => exact hmore e (hlog e he href)
    | refused hwait hans =>
        rcases List.mem_append.1 he with he | he
        · exact hmore e (hlog e he href)
        · rw [List.mem_singleton.1 he] at href
          rw [hans] at href
          cases href
    | entered hwait hnone hfree => exact hmore e (hlog e he href)
    | @left t c f ans hin hleave =>
        rcases List.mem_append.1 he with he | he
        · exact hmore e (hlog e he href)
        · rw [List.mem_singleton.1 he]
          have hhold := hm.outside t c f hin
          obtain ⟨c', f', hin', hfin⟩ := hm.held t hhold
          rw [hin] at hin'
          cases hin'
          exact ⟨past, m, _, List.prefix_append _ _, hpast, hhold, (hfin.of_leave hleave).symm⟩
    | turned hin hleave => exact hmore e (hlog e he href)
  exact hall.2.2

end Locked

end UCache.Lib
