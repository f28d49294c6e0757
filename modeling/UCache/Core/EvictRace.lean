/-
Module: UCache.Core.EvictRace
Purpose: Sidecar commits of one key against the unlinks of evictions: the check of the link count,
  the load and the store of a commit are three steps, and an eviction removes the data file and
  then the sidecar without taking the lock.
Trusted boundary: none
Main exports: EvictCall, evicted_sidecar_stays_away, evicted_sidecar_resurrected
-/
import UCache.Lib.Run

namespace UCache

open Lib

/-! ### Calls -/

/-- Where a call stands.  `ino` is the file its descriptor refers to. -/
inductive EvictCall where
  | flushLock (ino : Nat)
  | flushLoad (ino : Nat)
  | flushStore (ino : Nat)
  | pinOpen
  | pinLock (ino : Nat)
  | pinLoad (ino : Nat)
  | pinStore (ino : Nat)
  | unlock (ino : Nat)
  /-- `always`: an invalidation goes on to the sidecar whatever came of the data file. -/
  | evictData (always : Bool)
  | evictMeta
deriving DecidableEq, Repr

/-- The two names of one key and the calls under way. -/
structure EvictState where
  /-- The file at the `.data` path. -/
  data : Option Nat := none
  /-- There is a `.meta`. -/
  sidecar : Bool := false
  locked : Nat → Bool := fun _ => false
  calls : Nat → Option EvictCall := fun _ => none

inductive EvictAct where
  /-- `flushMeta` of a handle on file `ino`. -/
  | flushMeta (c ino : Nat)
  | setPinnedByKey (c : Nat)
  /-- A victim of `evictNow` or `cleanup`. -/
  | evict (c : Nat)
  | invalidate (c : Nat)
  /-- A step of a call; `ok` is how its load or its store went. -/
  | step (c : Nat) (ok : Bool)

namespace EvictState

def setCall (s : EvictState) (c : Nat) (p : Option EvictCall) : EvictState :=
  { s with calls := Function.update s.calls c p }

/-- [SRC FileEntry.cc:1096-1103, CacheStore.cc:822-831] Lock the file and look at its link count:
gone when the path no longer names it. -/
def lockAndCheck (s : EvictState) (c ino : Nat) (next : EvictCall) : Option EvictState :=
  if s.locked ino then none
  else
    some ({ s with locked := Function.update s.locked ino true }.setCall c
      (some (if s.data = some ino then next else .unlock ino)))

/-- The next step of a call; `none` while it has to wait. -/
def stepCall (s : EvictState) (c : Nat) (ok : Bool) : EvictCall → Option EvictState
  | .flushLock ino => s.lockAndCheck c ino (.flushLoad ino)
  -- Without a sidecar to merge with, the handle's own view is stored.
  | .flushLoad ino => some (s.setCall c (some (.flushStore ino)))
  | .flushStore ino =>
      some ({ s with sidecar := s.sidecar || ok }.setCall c (some (.unlock ino)))
  | .pinOpen => some (s.setCall c (s.data.map .pinLock))
  | .pinLock ino => s.lockAndCheck c ino (.pinLoad ino)
  | .pinLoad ino =>
      some (s.setCall c (some (if s.sidecar && ok then .pinStore ino else .unlock ino)))
  | .pinStore ino => some ({ s with sidecar := s.sidecar || ok }.setCall c (some (.unlock ino)))
  | .unlock ino =>
      some ({ s with locked := Function.update s.locked ino false }.setCall c none)
  -- [SRC CacheStore.cc:513-515, 567-568, 698-700] Data first, then sidecar.
  | .evictData always =>
      some ({ s with data := none }.setCall c
        (if s.data.isSome || always then some .evictMeta else none))
  | .evictMeta => some ({ s with sidecar := false }.setCall c none)

def begin (s : EvictState) (c : Nat) (p : EvictCall) : Option EvictState :=
  if s.calls c = none then some (s.setCall c (some p)) else none

def step (s : EvictState) : EvictAct → Option EvictState
  | .flushMeta c ino => s.begin c (.flushLock ino)
  | .setPinnedByKey c => s.begin c .pinOpen
  | .evict c => s.begin c (.evictData false)
  | .invalidate c => s.begin c (.evictData true)
  | .step c ok => (s.calls c).bind (s.stepCall c ok)

def idle (s : EvictState) : Prop := ∀ c, s.calls c = none

end EvictState

/-! ### The sidecar of an evicted entry -/

/-- The file whose link count a commit has looked at and whose sidecar it has still to store. -/
def EvictCall.committing : EvictCall → Option Nat
  | .flushLoad ino => some ino
  | .flushStore ino => some ino
  | .pinLoad ino => some ino
  | .pinStore ino => some ino
  | _ => none

namespace EvictState

variable {s s' : EvictState}

/-- The file a call is committing the sidecar of. -/
def commits (s : EvictState) (c : Nat) : Option Nat := (s.calls c).bind EvictCall.committing

/-- No sidecar is unlinked while a commit that found its data file linked has still to store and
its data file has lost its name. -/
def Uncrossed (s : EvictState) : EvictAct → Prop
  | .step c _ => s.calls c = some .evictMeta → ∀ d ino, s.commits d = some ino → s.data = some ino
  | _ => True

/-- Once the data file has lost its name, a sidecar that is there or may still be stored is about to
be unlinked. -/
def Swept (s : EvictState) : Prop :=
  s.data = none → (s.sidecar = true ∨ ∃ d ino, s.commits d = some ino) →
    ∃ e, s.calls e = some .evictMeta

/-- A step of a call that is no eviction: the names stay, and what it stores it was committing. -/
theorem Swept.commit (h : s.Swept) {c : Nat} {p : EvictCall} {r : Option EvictCall}
    (hc : s.calls c = some p) (hp : p ≠ .evictMeta) (hdata : s'.data = s.data)
    (hcalls : s'.calls = Function.update s.calls c r)
    (hside : s'.sidecar = true → s.sidecar = true ∨ (s.commits c).isSome = true)
    (hcommit : (r.bind EvictCall.committing).isSome = true →
      s.data.isSome = true ∨ (s.commits c).isSome = true) : s'.Swept := by
  intro hnone hwhy
  rw [hdata] at hnone
  have hbefore : s.sidecar = true ∨ ∃ d ino, s.commits d = some ino := by
    obtain hs | ⟨d, ino, hd⟩ := hwhy
    · obtain hs | hs := hside hs
      · exact Or.inl hs
      · obtain ⟨ino, hino⟩ := Option.isSome_iff_exists.1 hs
        exact Or.inr ⟨c, ino, hino⟩
    · unfold commits at hd
      rw [hcalls] at hd
      by_cases hdc : d = c
      · subst hdc
        rw [Function.update_self] at hd
        obtain hs | hs := hcommit (by simp [hd])
        · rw [hnone] at hs
          cases hs
        · obtain ⟨i, hi⟩ := Option.isSome_iff_exists.1 hs
          exact Or.inr ⟨d, i, hi⟩
      · rw [Function.update_of_ne hdc] at hd
        exact Or.inr ⟨d, ino, hd⟩
  obtain ⟨e, he⟩ := h hnone hbefore
  have hec : e ≠ c := by
    rintro rfl
    rw [he] at hc
    cases hc
    exact hp rfl
  exact ⟨e, by rw [hcalls, Function.update_of_ne hec, he]⟩

theorem lockAndCheck_swept (h : s.Swept) {c ino : Nat} {p next : EvictCall}
    (hc : s.calls c = some p) (hp : p ≠ .evictMeta) (hs : s.lockAndCheck c ino next = some s') :
    s'.Swept := by
  unfold lockAndCheck at hs
  split at hs
  · cases hs
  · cases hs
    refine h.commit hc hp rfl rfl Or.inl ?_
    intro hcommit
    by_cases hlinked : s.data = some ino
    · exact Or.inl (by simp [hlinked])
    · rw [if_neg hlinked] at hcommit
      cases hcommit

theorem stepCall_swept (h : s.Swept) {c : Nat} {ok : Bool} {p : EvictCall} (hc : s.calls c = some p)
    (hs : s.stepCall c ok p = some s')
    (hcond : p = .evictMeta → ∀ d ino, s.commits d = some ino → s.data = some ino) : s'.Swept := by
  have hcommits : s.commits c = p.committing := by simp [commits, hc]
  cases p with
  | flushLock ino => exact lockAndCheck_swept h hc (by simp) hs
  | flushLoad ino =>
      cases hs
      exact h.commit hc (by simp) rfl rfl Or.inl (fun _ => Or.inr (by rw [hcommits]; rfl))
  | flushStore ino =>
      cases hs
      exact h.commit hc (by simp) rfl rfl (fun _ => Or.inr (by rw [hcommits]; rfl)) (by simp
        [EvictCall.committing])
  | pinOpen =>
      cases hs
      refine h.commit hc (by simp) rfl rfl Or.inl ?_
      cases s.data <;> simp [EvictCall.committing]
  | pinLock ino => exact lockAndCheck_swept h hc (by simp) hs
  | pinLoad ino =>
      cases hs
      exact h.commit hc (by simp) rfl rfl Or.inl (fun _ => Or.inr (by rw [hcommits]; rfl))
  | pinStore ino =>
      cases hs
      exact h.commit hc (by simp) rfl rfl (fun _ => Or.inr (by rw [hcommits]; rfl)) (by simp
        [EvictCall.committing])
  | unlock ino =>
      cases hs
      exact h.commit hc (by simp) rfl rfl Or.inl (by simp)
  | evictData always =>
      cases hs
      intro _ hwhy
      by_cases hmeta : (s.data.isSome || always) = true
      · exact ⟨c, by simp [setCall, hmeta]⟩
      · -- Nothing was unlinked: the name was gone before.
        simp only [Bool.or_eq_true, not_or, Bool.not_eq_true, Option.isSome_eq_false_iff,
          Option.isNone_iff_eq_none] at hmeta
        have hsame : (({ s with data := none } : EvictState).setCall c
            (if s.data.isSome || always then some EvictCall.evictMeta else none)).Swept := by
          refine h.commit hc (by simp) hmeta.1.symm rfl Or.inl ?_
          simp [hmeta.1, hmeta.2]
        exact hsame rfl hwhy
  | evictMeta =>
      cases hs
      intro hnone hwhy
      obtain hside | ⟨d, ino, hd⟩ := hwhy
      · cases hside
      · unfold commits at hd
        by_cases hdc : d = c
        · subst hdc
          simp [setCall] at hd
        · have hd' : s.commits d = some ino := by
            simpa [commits, setCall, Function.update_of_ne hdc] using hd
          have := hcond rfl d ino hd'
          rw [show s.data = none from hnone] at this
          cases this

theorem begin_swept (h : s.Swept) {c : Nat} {p : EvictCall} (hp : p.committing = none)
    (hs : s.begin c p = some s') : s'.Swept := by
  unfold begin at hs
  split at hs
  · rename_i hfree
    cases hs
    intro hnone hwhy
    have hbefore : s.sidecar = true ∨ ∃ d ino, s.commits d = some ino := by
      obtain hs | ⟨d, ino, hd⟩ := hwhy
      · exact Or.inl hs
      · by_cases hdc : d = c
        · subst hdc
          simp [commits, setCall, hp] at hd
        · exact Or.inr ⟨d, ino, by simpa [commits, setCall, Function.update_of_ne hdc] using hd⟩
    obtain ⟨e, he⟩ := h hnone hbefore
    refine ⟨e, ?_⟩
    have hec : e ≠ c := by
      rintro rfl
      rw [hfree] at he
      cases he
    simp [setCall, Function.update_of_ne hec, he]
  · cases hs

theorem step_swept {a : EvictAct} (h : s.Swept) (hcond : s.Uncrossed a) (hs : s.step a = some s') :
    s'.Swept := by
  cases a with
  | flushMeta c ino => exact begin_swept h rfl hs
  | setPinnedByKey c => exact begin_swept h rfl hs
  | evict c => exact begin_swept h rfl hs
  | invalidate c => exact begin_swept h rfl hs
  | step c ok =>
      simp only [step, Option.bind_eq_some_iff] at hs
      obtain ⟨p, hp, hstep⟩ := hs
      apply stepCall_swept h hp hstep
      rintro rfl
      exact hcond hp

end EvictState

/-- [SRC FORMAT.md:81-83] In every run in which no sidecar is unlinked between the check and the
store of a commit whose data file has lost its name, no sidecar is left without its data file once
every call has returned. -/
theorem evicted_sidecar_stays_away {s t : EvictState} {acts : List EvictAct} (hs : s.idle)
    (hstart : s.sidecar = true → s.data ≠ none)
    (hcond : Along EvictState.step EvictState.Uncrossed s acts)
    (hrun : exec EvictState.step s acts = some t) (hidle : t.idle) (hdata : t.data = none) :
    t.sidecar = false := by
  have hswept : t.Swept := by
    apply exec_invariant_along EvictState.Swept _ _ hcond hrun
    · intro s a t h hc hst
      exact EvictState.step_swept h hc hst
    · rintro hnone (hside | ⟨d, ino, hd⟩)
      · exact absurd hnone (hstart hside)
      · simp [EvictState.commits, hs d] at hd
  cases hside : t.sidecar with
  | false => rfl
  | true =>
      obtain ⟨e, he⟩ := hswept hdata (Or.inl hside)
      rw [hidle e] at he
      cases he

/-- One entry, cached. -/
def cachedEntry : EvictState where
  data := some 0
  sidecar := true

/-- The store of a commit falls between the two unlinks of an eviction. -/
def storeBetweenUnlinks : List EvictAct :=
  [.flushMeta 0 0, .step 0 true, .evict 1, .step 1 true, .step 0 true, .step 0 true, .step 1 true,
    .step 0 true]

/-- A commit stores between the eviction's two unlinks; no sidecar stays. -/
theorem store_between_unlinks_is_swept :
    ∃ t, exec EvictState.step cachedEntry storeBetweenUnlinks = some t ∧ t.data = none ∧
      t.sidecar = false := by
  refine ⟨_, rfl, rfl, @evicted_sidecar_stays_away cachedEntry _ storeBetweenUnlinks (fun _ => rfl)
    (by simp [cachedEntry]) ?_ rfl ?_ rfl⟩
  · refine .cons trivial rfl (.cons ?_ rfl (.cons trivial rfl (.cons ?_ rfl (.cons ?_ rfl
      (.cons ?_ rfl (.cons ?_ rfl (.cons ?_ rfl trivial)))))))
    -- Only one of these steps unlinks a sidecar, and by then the commit has stored.
    case refine_5 =>
      intro _ d ino hd
      match d with
      | 0 => cases hd
      | 1 => cases hd
      | d + 2 => cases hd
    all_goals
      intro h
      cases h
  · intro c
    match c with
    | 0 => rfl
    | 1 => rfl
    | c + 2 => rfl

/-- A commit that looked at the link count before an eviction stores after it. -/
theorem evicted_sidecar_resurrected :
    ∃ acts t, exec EvictState.step cachedEntry acts = some t ∧ t.idle ∧ t.data = none ∧
      t.sidecar = true := by
  refine ⟨[.flushMeta 0 0, .step 0 true, .evict 1, .step 1 true, .step 1 true, .step 0 true,
    .step 0 true, .step 0 true], _, rfl, ?_, rfl, rfl⟩
  intro c
  match c with
  | 0 => rfl
  | 1 => rfl
  | c + 2 => rfl

end UCache
