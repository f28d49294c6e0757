/-
Module: UCache.Core.OneForm
Purpose: The two forms a file can be kept in besides its pages, a compact replica and a slot store,
  as any number of processes publish the one and build the other for one key: every step is one
  system call on a shared name.
Trusted boundary: none
Main exports: one_form_per_file, busy_withdrawal_leaves_both,
  judged_unlinks_are_exact, late_unlink_removes_new_store
-/
import UCache.Lib.Run

namespace UCache

open Lib

/-! ### Files and calls -/

variable {c : Nat}

/-- What a reader finds in a `.slots` file: a header of this format (with the layout blob intact or
not), one of a newer format, or neither. -/
inductive StoreFile where
  | store (declined blobOk : Bool)
  | newer
  | unusable
deriving DecidableEq, Repr

namespace StoreFile

/-- [SRC SlotStore.cc:155-169] `readHeadAndBlob` says `kOk`. -/
def usable : StoreFile → Bool
  | .store _ blobOk => blobOk
  | _ => false

/-- [SRC SlotStore.cc:276-288] `serving` reads the header only. -/
def serving : StoreFile → Bool
  | .store declined _ => !declined
  | .newer => true
  | .unusable => false

end StoreFile

/-- [SRC SlotStore.cc:323-335] Where `dropIfCurrent` stands. -/
inductive DropPhase where
  | tryLock
  | compare
  | unlink
  | unlock
deriving DecidableEq, Repr

/-- What `build` does after a `dropIfCurrent`. -/
inductive AfterDrop where
  | create
  | done
deriving DecidableEq, Repr

/-- Where a call stands.  `declines` says that the layout the build computes is a declined one;
`left` counts the attempts of `openOrCreate`. -/
inductive FormCall where
  | buildOpen (declines : Bool)
  | buildNewer (declines : Bool)
  | buildStat (declines : Bool)
  | create (declines : Bool) (left : Nat)
  | unlinkDebris (declines : Bool) (ino left : Nat)
  | link (declines : Bool) (left : Nat)
  | recheck (ino : Nat)
  | drop (phase : DropPhase) (ino : Nat) (declines : Bool) (next : AfterDrop)
  | pubCheck
  | pubStore
  | pubRecheck
  | pubUnlink
  | commitOpen
  | commitLock (ino : Nat)
  | commitUnlock (ino : Nat)
  | refreshOpen
  | refreshLock (ino : Nat)
  | refreshUnlock (ino : Nat)
deriving DecidableEq, Repr

/-- The names of one key and the calls under way.  `tmeta` says which process stored the sidecar
there.  `wrong` is a ghost: an unlink that followed a judgement has removed another file than the
one judged. -/
structure FormState where
  slots : Option Nat := none
  file : Nat → StoreFile := fun _ => .unusable
  nextIno : Nat := 0
  tmeta : Option Nat := none
  /-- The exclusive holder and the number of shared holders of a file's lock. -/
  locked : Nat → Bool := fun _ => false
  shared : Nat → Nat := fun _ => 0
  calls : Nat → Option FormCall := fun _ => none
  wrong : Bool := false

/-- What the environment decides in a step. -/
structure FormChoice where
  /-- The store found is for this version of the file. -/
  adoptable : Bool := true
  /-- The codec list has changed since the store was declined. -/
  recoded : Bool := false
  /-- The file is old enough to be debris. -/
  old : Bool := true
  /-- The rest of the call (parsing, the write of a sidecar) succeeded. -/
  ok : Bool := true

inductive FormAct where
  | build (c : Nat) (declines : Bool)
  | publish (c : Nat)
  | commit (c : Nat)
  | refresh (c : Nat)
  | step (c : Nat) (choice : FormChoice)
  /-- An eviction's or an invalidation's unlinks, and a replica dropped. -/
  | evictSlots
  | evictTmeta

/-- The process an action is about. -/
def FormAct.proc : FormAct → Option Nat
  | .build c _ => some c
  | .publish c => some c
  | .commit c => some c
  | .refresh c => some c
  | .step c _ => some c
  | .evictSlots => none
  | .evictTmeta => none

variable {p : FormCall} {s s' : FormState}

namespace FormState

/-- A store that is served stands at the path. -/
def servingAt (s : FormState) : Bool :=
  match s.slots with
  | none => false
  | some ino => (s.file ino).serving

/-- An exclusive lock is refused. -/
def busy (s : FormState) (ino : Nat) : Bool := s.locked ino || decide (0 < s.shared ino)

def setCall (s : FormState) (c : Nat) (p : Option FormCall) : FormState :=
  { s with calls := Function.update s.calls c p }

/-- Unlink the path after having judged file `ino`. -/
def unlinkJudged (s : FormState) (ino : Nat) : FormState :=
  { s with
    slots := none
    wrong := s.wrong || (s.slots.isSome && decide (s.slots ≠ some ino)) }

/-! ### Steps -/

/-- [SRC ColdRun.cc:743-767] The store at the path, if there is one and it can be read. -/
def stepBuildOpen (s : FormState) (c : Nat) (ch : FormChoice) (declines : Bool) : FormState :=
  match s.slots with
  | none => s.setCall c (some (.buildNewer declines))
  | some ino =>
      match s.file ino with
      | .store declined true =>
          if !ch.adoptable then s.setCall c (some (.drop .tryLock ino declines .create))
          else if declined && ch.recoded then
            s.setCall c (some (.drop .tryLock ino declines .create))
          else s.setCall c none
      | _ => s.setCall c (some (.buildNewer declines))

/-- [SRC ColdRun.cc:765-767] -/
def stepBuildNewer (s : FormState) (c : Nat) (declines : Bool) : FormState :=
  if s.slots.map s.file = some .newer then s.setCall c none
  else s.setCall c (some (.buildStat declines))

/-- [SRC ColdRun.cc:770-772] A store is never made beside a replica. -/
def stepBuildStat (s : FormState) (c : Nat) (ch : FormChoice) (declines : Bool) : FormState :=
  if s.tmeta.isSome || !ch.ok then s.setCall c none else s.setCall c (some (.create declines 3))

/-- [SRC SlotStore.cc:209-233] One attempt of `openOrCreate`: what is at the path is read through
the descriptor, so that only the open looks at the name. -/
def stepCreate (s : FormState) (c : Nat) (ch : FormChoice) (declines : Bool) : Nat → FormState
  | 0 => s.setCall c none
  | left + 1 =>
      match s.slots with
      | none => s.setCall c (some (.link declines left))
      | some ino =>
          if (s.file ino).usable || s.file ino = .newer || !ch.old then s.setCall c none
          else s.setCall c (some (.unlinkDebris declines ino left))

/-- [SRC SlotStore.cc:258-270] `link` fails when the name is taken. -/
def stepLink (s : FormState) (c : Nat) (declines : Bool) (left : Nat) : FormState :=
  match s.slots with
  | some _ => s.setCall c (some (.create declines left))
  | none =>
      { s with
        slots := some s.nextIno
        file := Function.update s.file s.nextIno (.store declines true)
        nextIno := s.nextIno + 1 }.setCall c (if declines then none else some (.recheck s.nextIno))

/-- [SRC ColdRun.cc:823-832] -/
def stepRecheck (s : FormState) (c ino : Nat) : FormState :=
  if s.tmeta.isSome then s.setCall c (some (.drop .tryLock ino false .done)) else s.setCall c none

/-- What follows a `dropIfCurrent`, whatever it returned. -/
def afterDrop (declines : Bool) : AfterDrop → Option FormCall
  | .create => some (.buildNewer declines)
  | .done => none

/-- [SRC SlotStore.cc:323-335] -/
def stepDrop (s : FormState) (c ino : Nat) (declines : Bool) (next : AfterDrop) :
    DropPhase → FormState
  | .tryLock =>
      if s.busy ino then s.setCall c (afterDrop declines next)
      else
        { s with locked := Function.update s.locked ino true }.setCall c
          (some (.drop .compare ino declines next))
  | .compare =>
      if s.slots = some ino then s.setCall c (some (.drop .unlink ino declines next))
      else s.setCall c (some (.drop .unlock ino declines next))
  | .unlink => (s.unlinkJudged ino).setCall c (some (.drop .unlock ino declines next))
  | .unlock =>
      { s with locked := Function.update s.locked ino false }.setCall c (afterDrop declines next)

/-- The next step of a call; `none` while it has to wait. -/
def stepCall (s : FormState) (c : Nat) (ch : FormChoice) : FormCall → Option FormState
  | .buildOpen declines => some (s.stepBuildOpen c ch declines)
  | .buildNewer declines => some (s.stepBuildNewer c declines)
  | .buildStat declines => some (s.stepBuildStat c ch declines)
  | .create declines left => some (s.stepCreate c ch declines left)
  | .unlinkDebris declines ino left =>
      some ((s.unlinkJudged ino).setCall c (some (.create declines left)))
  | .link declines left => some (s.stepLink c declines left)
  | .recheck ino => some (s.stepRecheck c ino)
  | .drop phase ino declines next => some (s.stepDrop c ino declines next phase)
  -- [SRC ReplicaStore.cc:243-246]
  | .pubCheck => some (s.setCall c (if s.servingAt then none else some .pubStore))
  -- [SRC ReplicaStore.cc:247-274]
  | .pubStore =>
      if ch.ok then some ({ s with tmeta := some c }.setCall c (some .pubRecheck))
      else some (s.setCall c none)
  -- [SRC ReplicaStore.cc:278-284]
  | .pubRecheck => some (s.setCall c (if s.servingAt then some .pubUnlink else none))
  | .pubUnlink => some ({ s with tmeta := none }.setCall c none)
  | .commitOpen => some (s.setCall c (s.slots.map .commitLock))
  | .commitLock ino =>
      if s.busy ino then none
      else
        some ({ s with locked := Function.update s.locked ino true }.setCall c
          (some (.commitUnlock ino)))
  | .commitUnlock ino =>
      some ({ s with locked := Function.update s.locked ino false }.setCall c none)
  -- [SRC SlotStore.cc:377-395]
  | .refreshOpen => some (s.setCall c (s.slots.map .refreshLock))
  | .refreshLock ino =>
      if s.locked ino then some (s.setCall c none)
      else
        some ({ s with shared := Function.update s.shared ino (s.shared ino + 1) }.setCall c
          (some (.refreshUnlock ino)))
  | .refreshUnlock ino =>
      some ({ s with shared := Function.update s.shared ino (s.shared ino - 1) }.setCall c none)

/-- Begin a call in a process that has none. -/
def begin (s : FormState) (c : Nat) (p : FormCall) : Option FormState :=
  if s.calls c = none then some (s.setCall c (some p)) else none

def step (s : FormState) : FormAct → Option FormState
  | .build c declines => s.begin c (.buildOpen declines)
  | .publish c => s.begin c .pubCheck
  | .commit c => s.begin c .commitOpen
  | .refresh c => s.begin c .refreshOpen
  | .step c ch => (s.calls c).bind (s.stepCall c ch)
  | .evictSlots => some { s with slots := none }
  | .evictTmeta => some { s with tmeta := none }

/-- A call's step changes no other call. -/
theorem stepCall_calls {ch : FormChoice} (h : s.stepCall c ch p = some s') :
    ∃ q, s'.calls = Function.update s.calls c q := by
  cases p <;> simp only [stepCall, stepBuildOpen, stepBuildNewer, stepBuildStat, stepLink,
    stepRecheck] at h
  case create declines left =>
    cases left <;> simp only [stepCreate] at h <;> repeat' split at h
    all_goals
      cases h
      exact ⟨_, rfl⟩
  case drop phase ino declines next =>
    cases phase <;> simp only [stepDrop] at h <;> repeat' split at h
    all_goals
      cases h
      exact ⟨_, rfl⟩
  all_goals repeat' split at h
  all_goals
    cases h
    try exact ⟨_, rfl⟩

/-- Every call has returned. -/
def idle (s : FormState) : Prop := ∀ c, s.calls c = none

/-- A sidecar and a store that is served, side by side. -/
def Both (s : FormState) : Prop := s.tmeta.isSome = true ∧ s.servingAt = true

@[simp] theorem setCall_calls (s : FormState) (c : Nat) (p : Option FormCall) :
    (s.setCall c p).calls = Function.update s.calls c p := rfl

@[simp] theorem setCall_slots (s : FormState) (c : Nat) (p : Option FormCall) :
    (s.setCall c p).slots = s.slots := rfl

@[simp] theorem setCall_tmeta (s : FormState) (c : Nat) (p : Option FormCall) :
    (s.setCall c p).tmeta = s.tmeta := rfl

@[simp] theorem setCall_file (s : FormState) (c : Nat) (p : Option FormCall) :
    (s.setCall c p).file = s.file := rfl

@[simp] theorem setCall_locked (s : FormState) (c : Nat) (p : Option FormCall) :
    (s.setCall c p).locked = s.locked := rfl

@[simp] theorem setCall_wrong (s : FormState) (c : Nat) (p : Option FormCall) :
    (s.setCall c p).wrong = s.wrong := rfl

@[simp] theorem setCall_servingAt (s : FormState) (c : Nat) (p : Option FormCall) :
    (s.setCall c p).servingAt = s.servingAt := rfl

end FormState

/-! ### One form per file -/

variable {r : Option FormCall}

namespace FormCall

/-- A publication whose sidecar is in place and that has still to look for a store, or to
withdraw. -/
def published : FormCall → Bool
  | .pubRecheck => true
  | .pubUnlink => true
  | _ => false

/-- A build whose store is in place and that has still to look for a sidecar, or to withdraw. -/
def linked (ino : Nat) : FormCall → Bool
  | .recheck i => decide (i = ino)
  | .drop .tryLock i _ .done => decide (i = ino)
  | .drop .compare i _ .done => decide (i = ino)
  | .drop .unlink i _ .done => decide (i = ino)
  | _ => false

end FormCall

namespace FormState

/-- Someone who put one of the two forms in place will still look for the other. -/
def Watched (s : FormState) : Prop :=
  (∃ c p, s.tmeta = some c ∧ s.calls c = some p ∧ p.published = true) ∨
    ∃ c ino p, s.slots = some ino ∧ s.calls c = some p ∧ p.linked ino = true

/-- The withdrawal of a store is not refused: nobody else holds its lock. -/
def Withdraws (s : FormState) : FormAct → Prop
  | .step c _ => ∀ ino declines, s.calls c = some (.drop .tryLock ino declines .done) →
      s.busy ino = false
  | _ => True

/-- A call that goes on watching, or never did, keeps the watch when the names stay as they are. -/
theorem Watched.move (h : s.Watched) (hq : ∀ q, s.calls c = some q →
      (q.published = true → ∃ p, r = some p ∧ p.published = true) ∧
        ∀ ino, s.slots = some ino → q.linked ino = true → ∃ p, r = some p ∧ p.linked ino = true)
    (hslots : s'.slots = s.slots) (htmeta : s'.tmeta = s.tmeta)
    (hcalls : s'.calls = Function.update s.calls c r) : s'.Watched := by
  obtain ⟨d, p, ht, hd, hp⟩ | ⟨d, ino, p, hs, hd, hp⟩ := h
  · by_cases hdc : d = c
    · subst hdc
      obtain ⟨p', rfl, hp'⟩ := (hq p hd).1 hp
      exact Or.inl ⟨d, p', by rw [htmeta, ht], by rw [hcalls, Function.update_self], hp'⟩
    · exact Or.inl ⟨d, p, by rw [htmeta, ht], by rw [hcalls, Function.update_of_ne hdc, hd], hp⟩
  · by_cases hdc : d = c
    · subst hdc
      obtain ⟨p', rfl, hp'⟩ := (hq p hd).2 ino hs hp
      exact Or.inr ⟨d, ino, p', by rw [hslots, hs], by rw [hcalls, Function.update_self], hp'⟩
    · exact Or.inr ⟨d, ino, p, by rw [hslots, hs], by rw [hcalls, Function.update_of_ne hdc, hd],
        hp⟩

/-- What every state keeps: two forms side by side are watched. -/
def Kept (s : FormState) : Prop := s.Both → s.Watched

/-- A step that leaves names and files as they are. -/
theorem Kept.move (h : s.Kept) (hq : ∀ q, s.calls c = some q →
      (q.published = true → ∃ p, r = some p ∧ p.published = true) ∧
        ∀ ino, s.slots = some ino → q.linked ino = true → ∃ p, r = some p ∧ p.linked ino = true)
    (hs : s' = { s with locked := s'.locked, shared := s'.shared }.setCall c r) : s'.Kept := by
  rw [hs]
  intro hboth
  exact (h hboth).move hq rfl rfl rfl

/-- A call that watches nothing. -/
theorem Kept.idleMove {q : FormCall} (h : s.Kept) (hc : s.calls c = some q)
    (hpub : q.published = false) (hlink : ∀ ino, q.linked ino = false)
    (hs : s' = { s with locked := s'.locked, shared := s'.shared }.setCall c r) : s'.Kept := by
  apply h.move _ hs
  intro p hp
  rw [hc] at hp
  cases hp
  simp [hpub, hlink]

theorem kept_of_no_slots (h : s.slots = none) : s.Kept := by
  rintro ⟨-, hserving⟩
  simp [servingAt, h] at hserving

theorem kept_of_no_tmeta (h : s.tmeta = none) : s.Kept := by
  rintro ⟨hsome, -⟩
  simp [h] at hsome

theorem kept_of_not_serving (h : s.servingAt = false) : s.Kept := by
  rintro ⟨-, hserving⟩
  simp [h] at hserving

/-- A store is linked by the one who watches it. -/
theorem stepLink_kept {declines : Bool} {left : Nat} (h : s.Kept)
    (hc : s.calls c = some (.link declines left)) : (s.stepLink c declines left).Kept := by
  unfold stepLink
  split
  · exact h.idleMove hc rfl (fun _ => rfl) rfl
  · cases declines with
    | true =>
        apply kept_of_not_serving
        simp [servingAt, StoreFile.serving]
    | false =>
        intro _
        refine Or.inr ⟨c, s.nextIno, .recheck s.nextIno, rfl, ?_, ?_⟩
        · simp
        · simp [FormCall.linked]

/-- [SRC SlotStore.cc:323-335] The withdrawal of a store ends with the store gone, unless it is
refused. -/
theorem stepDrop_kept {ino : Nat} {declines : Bool} {next : AfterDrop} {phase : DropPhase}
    (h : s.Kept) (hc : s.calls c = some (.drop phase ino declines next))
    (hfree : phase = .tryLock → next = .done → s.busy ino = false) :
    (s.stepDrop c ino declines next phase).Kept := by
  cases phase with
  | tryLock =>
      simp only [stepDrop]
      cases next with
      | create =>
          split
          · exact h.idleMove hc rfl (fun _ => rfl) rfl
          · exact h.idleMove hc rfl (fun _ => rfl) rfl
      | done =>
          rw [if_neg (by simp [hfree rfl rfl])]
          refine h.move (r := some (.drop .compare ino declines .done)) ?_ rfl
          intro q hq
          rw [hc] at hq
          cases hq
          refine ⟨by simp [FormCall.published], ?_⟩
          intro i _ hi
          exact ⟨_, rfl, hi⟩
  | compare =>
      simp only [stepDrop]
      split
      · refine h.move (r := some (.drop .unlink ino declines next)) ?_ rfl
        intro q hq
        rw [hc] at hq
        cases hq
        refine ⟨by simp [FormCall.published], ?_⟩
        intro i _ hi
        refine ⟨_, rfl, ?_⟩
        cases next with
        | create => cases hi
        | done => exact hi
      · rename_i hother
        refine h.move (r := some (.drop .unlock ino declines next)) ?_ rfl
        intro q hq
        rw [hc] at hq
        cases hq
        refine ⟨by simp [FormCall.published], ?_⟩
        intro i hslots hi
        cases next with
        | create => cases hi
        | done =>
            have : ino = i := by simpa [FormCall.linked] using hi
            exact absurd (by rw [hslots, this]) hother
  | unlink => exact kept_of_no_slots rfl
  | unlock => exact h.idleMove hc rfl (by intro; cases next <;> rfl) rfl

/-- Every step of a call keeps two forms side by side watched. -/
theorem stepCall_kept {ch : FormChoice} (h : s.Kept) (hc : s.calls c = some p)
    (hstep : s.stepCall c ch p = some s')
    (hfree : ∀ ino declines, p = .drop .tryLock ino declines .done → s.busy ino = false) :
    s'.Kept := by
  cases p with
  | buildOpen declines =>
      cases hstep
      unfold stepBuildOpen
      repeat' split
      all_goals exact h.idleMove hc rfl (fun _ => rfl) rfl
  | buildNewer declines =>
      cases hstep
      unfold stepBuildNewer
      split <;> exact h.idleMove hc rfl (fun _ => rfl) rfl
  | buildStat declines =>
      cases hstep
      unfold stepBuildStat
      split <;> exact h.idleMove hc rfl (fun _ => rfl) rfl
  | create declines left =>
      cases hstep
      cases left with
      | zero => exact h.idleMove hc rfl (fun _ => rfl) rfl
      | succ left =>
          unfold stepCreate
          repeat' split
          all_goals exact h.idleMove hc rfl (fun _ => rfl) rfl
  | unlinkDebris declines ino left =>
      cases hstep
      exact kept_of_no_slots rfl
  | link declines left =>
      cases hstep
      exact stepLink_kept h hc
  | recheck ino =>
      cases hstep
      unfold stepRecheck
      split
      · refine h.move (r := some (.drop .tryLock ino false .done)) ?_ rfl
        intro q hq
        rw [hc] at hq
        cases hq
        refine ⟨by simp [FormCall.published], ?_⟩
        intro i _ hi
        exact ⟨_, rfl, hi⟩
      · rename_i hnone
        exact kept_of_no_tmeta (by simpa using hnone)
  | drop phase ino declines next =>
      cases hstep
      apply stepDrop_kept h hc
      rintro rfl rfl
      exact hfree ino declines rfl
  | pubCheck =>
      cases hstep
      exact h.idleMove hc rfl (fun _ => rfl) rfl
  | pubStore =>
      simp only [stepCall] at hstep
      split at hstep
      · cases hstep
        intro _
        refine Or.inl ⟨c, .pubRecheck, rfl, ?_, rfl⟩
        simp
      · cases hstep
        exact h.idleMove hc rfl (fun _ => rfl) rfl
  | pubRecheck =>
      cases hstep
      by_cases hserving : s.servingAt = true
      · rw [if_pos hserving]
        refine h.move (r := some .pubUnlink) ?_ rfl
        intro q hq
        rw [hc] at hq
        cases hq
        refine ⟨fun _ => ⟨_, rfl, rfl⟩, ?_⟩
        intro i _ hi
        cases hi
      · exact kept_of_not_serving (by simpa using hserving)
  | pubUnlink =>
      cases hstep
      exact kept_of_no_tmeta rfl
  | commitOpen =>
      cases hstep
      exact h.idleMove hc rfl (fun _ => rfl) rfl
  | commitLock ino =>
      simp only [stepCall] at hstep
      split at hstep
      · cases hstep
      · cases hstep
        exact h.idleMove hc rfl (fun _ => rfl) rfl
  | commitUnlock ino =>
      cases hstep
      exact h.idleMove hc rfl (fun _ => rfl) rfl
  | refreshOpen =>
      cases hstep
      exact h.idleMove hc rfl (fun _ => rfl) rfl
  | refreshLock ino =>
      simp only [stepCall] at hstep
      split at hstep
      all_goals
        cases hstep
        exact h.idleMove hc rfl (fun _ => rfl) rfl
  | refreshUnlock ino =>
      cases hstep
      exact h.idleMove hc rfl (fun _ => rfl) rfl

theorem begin_inv (h : s.begin c p = some s') : s.calls c = none ∧ s' = s.setCall c (some p) := by
  unfold begin at h
  split at h
  · cases h
    exact ⟨‹_›, rfl⟩
  · cases h

theorem step_calls_of_ne {a : FormAct} {d : Nat} (h : s.step a = some s') (hd : a.proc ≠ some d) :
    s'.calls d = s.calls d := by
  have hbegin : ∀ {c p}, c ≠ d → s.begin c p = some s' → s'.calls d = s.calls d := by
    intro c p hcd hb
    obtain ⟨-, rfl⟩ := begin_inv hb
    exact Function.update_of_ne (Ne.symm hcd) _ _
  cases a with
  | build c declines => exact hbegin (by simpa [FormAct.proc] using hd) h
  | publish c => exact hbegin (by simpa [FormAct.proc] using hd) h
  | commit c => exact hbegin (by simpa [FormAct.proc] using hd) h
  | refresh c => exact hbegin (by simpa [FormAct.proc] using hd) h
  | step c ch =>
      simp only [step, Option.bind_eq_some_iff] at h
      obtain ⟨p, -, hstep⟩ := h
      obtain ⟨q, hq⟩ := stepCall_calls hstep
      have hdc : d ≠ c := by
        rintro rfl
        exact hd rfl
      rw [hq, Function.update_of_ne hdc]
  | evictSlots =>
      cases h
      rfl
  | evictTmeta =>
      cases h
      rfl

theorem begin_kept (h : s.Kept) (hs : s.begin c p = some s') : s'.Kept := by
  obtain ⟨hnone, rfl⟩ := begin_inv hs
  refine h.move (r := some p) ?_ rfl
  intro q hq
  rw [hnone] at hq
  cases hq

theorem step_kept {a : FormAct} (h : s.Kept) (hcond : s.Withdraws a) (hs : s.step a = some s') :
    s'.Kept := by
  cases a with
  | build c declines => exact begin_kept h hs
  | publish c => exact begin_kept h hs
  | commit c => exact begin_kept h hs
  | refresh c => exact begin_kept h hs
  | step c ch =>
      simp only [step, Option.bind_eq_some_iff] at hs
      obtain ⟨p, hp, hstep⟩ := hs
      apply stepCall_kept h hp hstep
      rintro ino declines rfl
      exact hcond ino declines hp
  | evictSlots =>
      cases hs
      exact kept_of_no_slots rfl
  | evictTmeta =>
      cases hs
      exact kept_of_no_tmeta rfl

end FormState

/-- [SRC ReplicaStore.cc:275-284, ColdRun.cc:823-832] In every run in which no withdrawal of a store
is refused, no sidecar and no served store are left side by side once every call has returned. -/
theorem one_form_per_file {s t : FormState} {acts : List FormAct} (hs : ¬ s.Both)
    (hcond : Along FormState.step FormState.Withdraws s acts)
    (hrun : exec FormState.step s acts = some t) (hidle : t.idle) : ¬ t.Both := by
  have hkept : t.Kept := by
    apply exec_invariant_along FormState.Kept _ _ hcond hrun
    · intro s a t h hc hst
      exact FormState.step_kept h hc hst
    · intro hboth
      exact absurd hboth hs
  intro hboth
  obtain ⟨c, p, -, hc, -⟩ | ⟨c, ino, p, -, hc, -⟩ := hkept hboth
  · rw [hidle c] at hc
    cases hc
  · rw [hidle c] at hc
    cases hc

namespace FormState

/-- `Withdraws`, evaluated. -/
def withdrawsB (s : FormState) : FormAct → Bool
  | .step c _ =>
      match s.calls c with
      | some (.drop .tryLock ino _ .done) => !s.busy ino
      | _ => true
  | _ => true

theorem withdraws_of_check {a : FormAct} (h : s.withdrawsB a = true) : s.Withdraws a := by
  cases a with
  | step c ch =>
      intro ino declines hc
      simpa [withdrawsB, hc] using h
  | _ => trivial

end FormState

/-- A publication and a build of the same file: the build sees the sidecar and withdraws. -/
def racingForms : List FormAct :=
  [.build 1 false, .step 1 {}, .step 1 {}, .step 1 {}, .step 1 {}, .publish 0, .step 0 {},
    .step 0 {}, .step 0 {}, .step 1 {}, .step 1 {}, .step 1 {}, .step 1 {}, .step 1 {},
    .step 1 {}]

/-- A publication comes in the middle of a build, and one form stays. -/
theorem racing_forms_leave_one :
    ∃ t, exec FormState.step {} racingForms = some t ∧ t.tmeta = some 0 ∧ ¬ t.Both := by
  refine ⟨_, rfl, rfl, @one_form_per_file {} _ racingForms ?_ ?_ rfl ?_⟩
  · rintro ⟨h, -⟩
    cases h
  · exact along_of_check (fun _ => True) (fun _ => True) (fun _ _ _ _ _ _ => trivial)
      (fun _ _ _ _ h => FormState.withdraws_of_check h) trivial (fun _ _ => trivial)
      (show alongB FormState.step FormState.withdrawsB {} racingForms = true from rfl)
  · intro c
    match c with
    | 0 => rfl
    | 1 => rfl
    | c + 2 => rfl

/-- A third process holds the lock of the new store when its creator withdraws it. -/
theorem busy_withdrawal_leaves_both :
    ∃ acts t, exec FormState.step {} acts = some t ∧ t.idle ∧ t.Both := by
  refine ⟨[.build 1 false, .step 1 {}, .step 1 {}, .step 1 {}, .step 1 {}, .publish 0, .step 0 {},
    .step 0 {}, .step 0 {}, .step 1 {}, .commit 2, .step 2 {}, .step 2 {}, .step 1 {}, .step 1 {},
    .step 2 {}], _, rfl, ?_, rfl, rfl⟩
  intro c
  match c with
  | 0 => rfl
  | 1 => rfl
  | 2 => rfl
  | c + 3 => rfl

/-! ### Unlinks after a judgement -/

/-- The file a call has judged and is about to unlink by its name. -/
def FormCall.judged : FormCall → Option Nat
  | .unlinkDebris _ ino _ => some ino
  | .drop .unlink ino _ _ => some ino
  | _ => none

namespace FormState

/-- The file that call `c` has judged. -/
def judgedBy (s : FormState) (c : Nat) : Option Nat := (s.calls c).bind FormCall.judged

/-- Nobody takes a file off the path while another call stands between its judgement and its
unlink. -/
def Undisturbed (s : FormState) : FormAct → Prop
  | .step c _ => s.judgedBy c ≠ none → ∀ d, d ≠ c → s.judgedBy d = none
  | .evictSlots => ∀ d, s.judgedBy d = none
  | _ => True

/-- What is judged is still at the path. -/
structure Exact (s : FormState) : Prop where
  judged : ∀ c ino, s.judgedBy c = some ino → s.slots = some ino
  right : s.wrong = false

/-- A step that leaves the path alone, and judges at most what is there. -/
theorem Exact.move (h : s.Exact)
    (hq : ∀ ino, r.bind FormCall.judged = some ino → s.slots = some ino)
    (hslots : s'.slots = s.slots) (hwrong : s'.wrong = s.wrong)
    (hcalls : s'.calls = Function.update s.calls c r) : s'.Exact := by
  constructor
  · intro d ino hd
    rw [hslots]
    unfold judgedBy at hd
    rw [hcalls] at hd
    by_cases hdc : d = c
    · subst hdc
      rw [Function.update_self] at hd
      exact hq ino hd
    · rw [Function.update_of_ne hdc] at hd
      exact h.judged d ino hd
  · rw [hwrong]
    exact h.right

/-- The unlink of the one file that is judged. -/
theorem Exact.unlink (h : s.Exact) {ino : Nat} (hc : s.judgedBy c = some ino)
    (halone : ∀ d, d ≠ c → s.judgedBy d = none) (hq : r.bind FormCall.judged = none) :
    ((s.unlinkJudged ino).setCall c r).Exact := by
  constructor
  · intro d i hd
    unfold judgedBy at hd
    rw [setCall_calls] at hd
    by_cases hdc : d = c
    · subst hdc
      rw [Function.update_self, hq] at hd
      cases hd
    · rw [Function.update_of_ne hdc] at hd
      have := halone d hdc
      unfold judgedBy at this
      change (s.calls d).bind FormCall.judged = some i at hd
      rw [this] at hd
      cases hd
  · simp [unlinkJudged, h.right, h.judged c ino hc]

/-- A link finds nothing at the path, so nothing is judged. -/
theorem stepLink_exact (h : s.Exact) (c : Nat) (declines : Bool) (left : Nat) :
    (s.stepLink c declines left).Exact := by
  unfold stepLink
  split
  · refine h.move (c := c) (r := some (.create declines left)) ?_ rfl rfl rfl
    intro ino hino
    cases hino
  · rename_i hnone
    constructor
    · intro d ino hd
      have hq : ∀ q, (if declines then none else some (FormCall.recheck s.nextIno)) = some q →
          q.judged = none := by
        intro q hq
        cases declines <;> cases hq
        rfl
      unfold judgedBy at hd
      rw [setCall_calls] at hd
      by_cases hdc : d = c
      · subst hdc
        rw [Function.update_self, Option.bind_eq_some_iff] at hd
        obtain ⟨q, hq', hj⟩ := hd
        rw [hq q hq'] at hj
        cases hj
      · rw [Function.update_of_ne hdc] at hd
        have := h.judged d ino hd
        rw [hnone] at this
        cases this
    · exact h.right

theorem stepDrop_exact (h : s.Exact) {ino : Nat} {declines : Bool} {next : AfterDrop}
    {phase : DropPhase} (hc : s.calls c = some (.drop phase ino declines next))
    (halone : s.judgedBy c ≠ none → ∀ d, d ≠ c → s.judgedBy d = none) :
    (s.stepDrop c ino declines next phase).Exact := by
  have hafter : (afterDrop declines next).bind FormCall.judged = none := by
    cases next <;> rfl
  cases phase with
  | tryLock =>
      simp only [stepDrop]
      split
      · exact h.move (c := c) (by simp [hafter]) rfl rfl rfl
      · exact h.move (c := c) (by simp [FormCall.judged]) rfl rfl rfl
  | compare =>
      simp only [stepDrop]
      split
      · rename_i hsame
        refine h.move (c := c) ?_ rfl rfl rfl
        intro i hi
        cases hi
        exact hsame
      · exact h.move (c := c) (by simp [FormCall.judged]) rfl rfl rfl
  | unlink =>
      have hj : s.judgedBy c = some ino := by simp [judgedBy, hc, FormCall.judged]
      exact h.unlink hj (halone (by simp [hj])) (by simp [FormCall.judged])
  | unlock => exact h.move (c := c) (by simp [hafter]) rfl rfl rfl

theorem stepCall_exact {ch : FormChoice} (h : s.Exact) (hc : s.calls c = some p)
    (hstep : s.stepCall c ch p = some s')
    (halone : s.judgedBy c ≠ none → ∀ d, d ≠ c → s.judgedBy d = none) : s'.Exact := by
  cases p with
  | buildOpen declines =>
      cases hstep
      unfold stepBuildOpen
      repeat' split
      all_goals exact h.move (c := c) (by simp [FormCall.judged]) rfl rfl rfl
  | buildNewer declines =>
      cases hstep
      unfold stepBuildNewer
      split <;> exact h.move (c := c) (by simp [FormCall.judged]) rfl rfl rfl
  | buildStat declines =>
      cases hstep
      unfold stepBuildStat
      split <;> exact h.move (c := c) (by simp [FormCall.judged]) rfl rfl rfl
  | create declines left =>
      cases hstep
      cases left with
      | zero => exact h.move (c := c) (by simp) rfl rfl rfl
      | succ left =>
          simp only [stepCreate]
          split
          · exact h.move (c := c) (by simp [FormCall.judged]) rfl rfl rfl
          rename_i ino hslots
          split
          · exact h.move (c := c) (by simp) rfl rfl rfl
          · refine h.move (c := c) ?_ rfl rfl rfl
            intro i hi
            cases hi
            exact hslots
  | unlinkDebris declines ino left =>
      cases hstep
      have hj : s.judgedBy c = some ino := by simp [judgedBy, hc, FormCall.judged]
      exact h.unlink hj (halone (by simp [hj])) (by simp [FormCall.judged])
  | link declines left =>
      cases hstep
      exact stepLink_exact h c declines left
  | recheck ino =>
      cases hstep
      unfold stepRecheck
      split <;> exact h.move (c := c) (by simp [FormCall.judged]) rfl rfl rfl
  | drop phase ino declines next =>
      cases hstep
      exact stepDrop_exact h hc halone
  | pubCheck =>
      cases hstep
      refine h.move (c := c) ?_ rfl rfl rfl
      split <;> simp [FormCall.judged]
  | pubStore =>
      simp only [stepCall] at hstep
      split at hstep <;> cases hstep <;>
        exact h.move (c := c) (by simp [FormCall.judged]) rfl rfl rfl
  | pubRecheck =>
      cases hstep
      refine h.move (c := c) ?_ rfl rfl rfl
      split <;> simp [FormCall.judged]
  | pubUnlink =>
      cases hstep
      exact h.move (c := c) (by simp) rfl rfl rfl
  | commitOpen =>
      cases hstep
      refine h.move (c := c) ?_ rfl rfl rfl
      cases s.slots <;> simp [FormCall.judged]
  | commitLock ino =>
      simp only [stepCall] at hstep
      split at hstep
      · cases hstep
      · cases hstep
        exact h.move (c := c) (by simp [FormCall.judged]) rfl rfl rfl
  | commitUnlock ino =>
      cases hstep
      exact h.move (c := c) (by simp) rfl rfl rfl
  | refreshOpen =>
      cases hstep
      refine h.move (c := c) ?_ rfl rfl rfl
      cases s.slots <;> simp [FormCall.judged]
  | refreshLock ino =>
      simp only [stepCall] at hstep
      split at hstep <;> cases hstep <;>
        exact h.move (c := c) (by simp [FormCall.judged]) rfl rfl rfl
  | refreshUnlock ino =>
      cases hstep
      exact h.move (c := c) (by simp) rfl rfl rfl

theorem begin_exact (h : s.Exact) (hp : p.judged = none) (hs : s.begin c p = some s') :
    s'.Exact := by
  obtain ⟨-, rfl⟩ := begin_inv hs
  exact h.move (c := c) (by simp [hp]) rfl rfl rfl

theorem step_exact {a : FormAct} (h : s.Exact) (hcond : s.Undisturbed a) (hs : s.step a = some s') :
    s'.Exact := by
  cases a with
  | build c declines => exact begin_exact h rfl hs
  | publish c => exact begin_exact h rfl hs
  | commit c => exact begin_exact h rfl hs
  | refresh c => exact begin_exact h rfl hs
  | step c ch =>
      simp only [step, Option.bind_eq_some_iff] at hs
      obtain ⟨p, hp, hstep⟩ := hs
      exact stepCall_exact h hp hstep hcond
  | evictSlots =>
      cases hs
      refine ⟨?_, h.right⟩
      intro c ino hc
      have hnone := hcond c
      change s.judgedBy c = some ino at hc
      rw [hnone] at hc
      cases hc
  | evictTmeta =>
      cases hs
      exact ⟨h.judged, h.right⟩

end FormState

/-- [SRC SlotStore.cc:221-228, 323-335] In every run in which nobody takes a file off the path while
another call stands between its judgement and its unlink, an unlink removes the file judged. -/
theorem judged_unlinks_are_exact {s t : FormState} {acts : List FormAct} (hs : s.idle)
    (hright : s.wrong = false) (hcond : Along FormState.step FormState.Undisturbed s acts)
    (hrun : exec FormState.step s acts = some t) : t.wrong = false := by
  have hexact : t.Exact := by
    apply exec_invariant_along FormState.Exact _ _ hcond hrun
    · intro s a t h hc hst
      exact FormState.step_exact h hc hst
    · refine ⟨?_, hright⟩
      intro c ino hc
      simp [FormState.judgedBy, hs c] at hc
  exact hexact.right

/-- A file of no use at the path. -/
def debrisAtPath : FormState where
  slots := some 0
  nextIno := 1

/-- One build that removes the debris and links its store. -/
def replaceDebris : List FormAct :=
  [.build 0 false, .step 0 {}, .step 0 {}, .step 0 {}, .step 0 {}, .step 0 {}, .step 0 {},
    .step 0 {}, .step 0 {}]

/-- A build replaces debris at its path and unlinks nothing else. -/
theorem replace_debris_is_exact :
    ∃ t, exec FormState.step debrisAtPath replaceDebris = some t ∧ t.slots = some 1 ∧
      t.wrong = false := by
  refine ⟨_, rfl, rfl, @judged_unlinks_are_exact debrisAtPath _ replaceDebris (fun _ => rfl) rfl
    ?_ rfl⟩
  refine along_of_check (fun s => ∀ d, d ≠ 0 → s.calls d = none) (fun a => a.proc = some 0) ?_ ?_
    (fun _ _ => rfl) (by simp [replaceDebris, FormAct.proc])
      (show alongB FormState.step (fun _ _ => true) debrisAtPath replaceDebris = true from rfl)
  · intro s a t hs ha hst d hd
    rw [FormState.step_calls_of_ne hst (by simpa [ha] using hd.symm)]
    exact hs d hd
  · intro s a hs ha _
    cases a with
    | step c ch =>
        cases ha
        intro _ d hd
        simp [FormState.judgedBy, hs d hd]
    | evictSlots => cases ha
    | _ => trivial

/-- Two builds judge the same debris; the second unlink removes the store of the first. -/
theorem late_unlink_removes_new_store :
    ∃ acts t, exec FormState.step debrisAtPath acts = some t ∧ t.wrong = true := by
  refine ⟨[.build 0 false, .step 0 {}, .step 0 {}, .step 0 {}, .step 0 {}, .build 1 false,
    .step 1 {}, .step 1 {}, .step 1 {}, .step 1 {}, .step 1 {}, .step 1 {}, .step 1 {},
    .step 1 {}, .step 0 {}], _, rfl, rfl⟩

end UCache
