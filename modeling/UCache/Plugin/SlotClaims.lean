/-
Module: UCache.Plugin.SlotClaims
Purpose: The slots of one file between the requests that claim them: the states are atomics, of which
  a claim may change one outside the mutex; the waiters are under it.  Every load, store and
  compare-and-swap is a step of its own.
Trusted boundary: none
Main exports: SlotTicket, no_slot_waiter_lost, batch_loses_waiter
-/
import UCache.Plugin.ColdSlots
import UCache.Lib.Run
import Mathlib.Data.List.Perm.Basic

namespace UCache

open Lib

/-! ### Threads -/

variable {i : Nat}

/-- The operations that take a slot out of `kFetching`. -/
inductive SlotOp where
  | stage
  | apply
  | abandon
deriving DecidableEq, Repr

/-- What its waiters are told. -/
def SlotOp.ok : SlotOp → Bool
  | .abandon => false
  | _ => true

/-- A registered waiter.  `turn` is not the program's: how often the slot had left `kFetching` when
the waiter was registered. -/
structure SlotTicket where
  slot : Nat
  waiter : Nat
  turn : Nat
deriving DecidableEq, Repr

/-- Where a thread stands in a section under the mutex. -/
inductive SlotSection where
  /-- `claimOrWait`, before its second look. -/
  | claim (r i w : Nat)
  /-- The slot is being fetched: the waiter is to be registered. -/
  | register (i w : Nat)
  /-- `stage`: records to drop from the transient budget, then the slot's waiters. -/
  | staging (r i : Nat) (drop : List Nat) (keep : Bool)
  /-- `stage`: the waiters are taken, the state is to be stored. -/
  | storing (r i : Nat) (keep : Bool)
  /-- `apply`: the slots of the entries still to come. -/
  | applying (slots : List Nat)
  /-- `apply`: the slot was not ready. -/
  | readying (i : Nat) (slots : List Nat)
  /-- `apply` and `abandon`: the state is changed, the waiters are to be taken. -/
  | waking (i : Nat) (op : SlotOp) (slots : List Nat)
  | abandoning (r i : Nat)
  | forgetting (i : Nat)
  | done
deriving DecidableEq, Repr

inductive SlotPhase where
  | idle
  /-- `claimOrWait`, before its look outside the mutex. -/
  | claiming (r i w : Nat)
  /-- `keptOriginalGone`, likewise; `gone` is what it will find. -/
  | looking (i : Nat) (gone : Bool)
  /-- Waits for the mutex. -/
  | blocked (sec : SlotSection)
  /-- Has it. -/
  | locked
deriving DecidableEq, Repr

/-- The operations, by a request `r` where it matters.  Which records `stage` drops, whether it keeps
its own, and what `keptOriginalGone` finds are left open. -/
inductive SlotCall where
  | claimOrWait (r i w : Nat)
  | stage (r i : Nat) (drop : List Nat) (keep : Bool)
  | apply (slots : List Nat)
  | abandon (r i : Nat)
  | forget (i : Nat)
  | keptOriginalGone (i : Nat) (gone : Bool)

def SlotCall.phase : SlotCall → SlotPhase
  | .claimOrWait r i w => .claiming r i w
  | .stage r i drop keep => .blocked (.staging r i drop keep)
  | .apply slots => .blocked (.applying slots)
  | .abandon r i => .blocked (.abandoning r i)
  | .forget i => .blocked (.forgetting i)
  | .keptOriginalGone i gone => .looking i gone

/-- `mu` holds the thread that has the mutex and where it stands, `wake` the waiters it has taken out
so far.  `taken` are those a thread took out and has yet to call.  The fields from `claims` on are
not the program's: the claims that requests hold, the slots claimed since they were last staged,
applied or abandoned, who took each slot out of `kFetching`, and who was registered, called, and
destroyed without a call. -/
structure ClaimWorld where
  state : Nat → SlotState := fun _ => .absent
  waiters : List SlotTicket := []
  mu : Option (Nat × SlotSection) := none
  threads : Nat → SlotPhase := fun _ => .idle
  wake : List (Nat × SlotTicket × SlotOp) := []
  taken : List (Nat × SlotTicket × SlotOp) := []
  claims : List (Nat × Nat) := []
  isOpen : Nat → Bool := fun _ => false
  departures : Nat → List (Nat × SlotOp) := fun _ => []
  registered : List SlotTicket := []
  called : List (Nat × SlotTicket × SlotOp) := []
  lost : List (Nat × SlotTicket × SlotOp) := []

inductive ClaimAct where
  | start (t : Nat) (call : SlotCall)
  /-- The thread takes its next step. -/
  | run (t : Nat)
  /-- It calls a waiter it has taken out, past the mutex. -/
  | call (t : Nat)

namespace ClaimWorld

def goto (s : ClaimWorld) (t : Nat) (p : SlotPhase) : ClaimWorld :=
  { s with threads := Function.update s.threads t p }

/-- The holder of the mutex goes on. -/
def next (s : ClaimWorld) (t : Nat) (sec : SlotSection) : ClaimWorld := { s with mu := some (t, sec) }

/-- Absent to fetching: request `r` has the claim. -/
def claim (s : ClaimWorld) (r i : Nat) : ClaimWorld :=
  { s with
    state := Function.update s.state i .fetching
    claims := s.claims ++ [(r, i)]
    isOpen := Function.update s.isOpen i true }

/-- Ready to absent, else nothing. -/
def forgetState (s : ClaimWorld) (i : Nat) : ClaimWorld :=
  if s.state i = .ready then { s with state := Function.update s.state i .absent } else s

/-- Store a state that is not `kFetching`. -/
def leave (s : ClaimWorld) (t : Nat) (op : SlotOp) (i : Nat) (next : SlotState) : ClaimWorld :=
  { s with
    state := Function.update s.state i next
    isOpen := Function.update s.isOpen i false
    departures :=
      if s.state i = .fetching then
        Function.update s.departures i (s.departures i ++ [(t, op)])
      else s.departures }

/-- The waiters of a slot, as they are told. -/
def waitersOf (s : ClaimWorld) (t : Nat) (op : SlotOp) (i : Nat) : List (Nat × SlotTicket × SlotOp) :=
  (s.waiters.filter fun x => decide (x.slot = i)).map fun x => (t, x, op)

/-- [SRC ColdRun.cc:315-321] `takeWaitersLocked`: the slot's list, if there is one, is swapped with
`wake` and erased, and so is what the section had taken for another slot. -/
def take (s : ClaimWorld) (t : Nat) (op : SlotOp) (i : Nat) : ClaimWorld :=
  { s with
    waiters := s.waiters.filter fun x => decide (x.slot ≠ i)
    wake := if s.waitersOf t op i = [] then s.wake else s.waitersOf t op i
    lost := if s.waitersOf t op i = [] then s.lost else s.lost ++ s.wake }

/-- One atomic step of a section. -/
def runLocked (s : ClaimWorld) (t : Nat) : SlotSection → ClaimWorld
  | .claim r i w =>
      match s.state i with
      | .absent => (s.claim r i).next t .done
      | .ready => s.next t .done
      | .fetching => s.next t (.register i w)
  | .register i w =>
      let x : SlotTicket := { slot := i, waiter := w, turn := (s.departures i).length }
      { s with waiters := s.waiters ++ [x], registered := s.registered ++ [x] }.next t .done
  | .staging r i (j :: drop) keep =>
      (s.forgetState j).next t (.staging r i drop keep)
  | .staging r i [] keep => (s.take t .stage i).next t (.storing r i keep)
  | .storing r i keep =>
      { s.leave t .stage i (if keep then .ready else .absent) with
        claims := s.claims.erase (r, i) }.next t .done
  | .applying [] => s.next t .done
  | .applying (i :: slots) =>
      if s.state i = .ready then
        { s with isOpen := Function.update s.isOpen i false }.next t (.applying slots)
      else s.next t (.readying i slots)
  | .readying i slots => (s.leave t .apply i .ready).next t (.waking i .apply slots)
  | .waking i op slots => (s.take t op i).next t (.applying slots)
  | .abandoning r i =>
      -- a compare-and-swap: a slot that is not being fetched stays as it is
      let s' := if s.state i = .fetching then s.leave t .abandon i .absent
        else { s with isOpen := Function.update s.isOpen i false }
      { s' with claims := s.claims.erase (r, i) }.next t (.waking i .abandon [])
  | .forgetting i => (s.forgetState i).next t .done
  | .done =>
      -- past the mutex the waiters it took are called
      { s with mu := none, taken := s.taken ++ s.wake, wake := [] }.goto t .idle

/-- [SRC ColdRun.cc:201-321] -/
def step (s : ClaimWorld) : ClaimAct → Option ClaimWorld
  | .start t call => if s.threads t = .idle then some (s.goto t call.phase) else none
  | .run t =>
      match s.threads t with
      | .idle => none
      | .claiming r i w =>
          if s.state i = .absent then some ((s.claim r i).goto t .idle)
          else some (s.goto t (.blocked (.claim r i w)))
      | .looking i gone =>
          if s.state i = .ready then
            some (s.goto t (.blocked (if gone then .forgetting i else .done)))
          else some (s.goto t .idle)
      | .blocked sec => if s.mu = none then some ((s.next t sec).goto t .locked) else none
      | .locked =>
          match s.mu with
          | some (t', sec) => if t' = t then some (s.runLocked t sec) else none
          | none => none
  | .call t =>
      if s.threads t = .locked then none
      else
        match s.taken.find? fun c => decide (c.1 = t) with
        | some c => some { s with taken := s.taken.erase c, called := s.called ++ [c] }
        | none => none

/-- What a step does, by where its thread stands. -/
inductive Stepped (s : ClaimWorld) : ClaimAct → ClaimWorld → Prop
  | start {t : Nat} {call : SlotCall} (hidle : s.threads t = .idle) :
      Stepped s (.start t call) (s.goto t call.phase)
  | call {t : Nat} {c : Nat × SlotTicket × SlotOp} (hmem : c ∈ s.taken) :
      Stepped s (.call t) { s with taken := s.taken.erase c, called := s.called ++ [c] }
  | claim {t r i w : Nat} (ht : s.threads t = .claiming r i w) (hi : s.state i = .absent) :
      Stepped s (.run t) ((s.claim r i).goto t .idle)
  | claimLater {t r i w : Nat} (ht : s.threads t = .claiming r i w) :
      Stepped s (.run t) (s.goto t (.blocked (.claim r i w)))
  | look {t i : Nat} {gone : Bool} (ht : s.threads t = .looking i gone) :
      Stepped s (.run t) (s.goto t (.blocked (if gone then .forgetting i else .done)))
  | pass {t i : Nat} {gone : Bool} (ht : s.threads t = .looking i gone) :
      Stepped s (.run t) (s.goto t .idle)
  | lock {t : Nat} {sec : SlotSection} (ht : s.threads t = .blocked sec) (hfree : s.mu = none) :
      Stepped s (.run t) ((s.next t sec).goto t .locked)
  | locked {t : Nat} {sec : SlotSection} (ht : s.threads t = .locked) (hmu : s.mu = some (t, sec)) :
      Stepped s (.run t) (s.runLocked t sec)

theorem step_stepped {s s' : ClaimWorld} {a : ClaimAct} (hstep : s.step a = some s') :
    Stepped s a s' := by
  cases a with
  | start t call =>
      simp only [step] at hstep
      split at hstep
      · rename_i hidle
        cases hstep
        exact .start hidle
      · cases hstep
  | call t =>
      simp only [step] at hstep
      split at hstep
      · cases hstep
      · split at hstep
        · rename_i hfind
          cases hstep
          exact .call (List.mem_of_find?_eq_some hfind)
        · cases hstep
  | run t =>
      simp only [step] at hstep
      split at hstep
      · cases hstep
      · rename_i ht
        split at hstep
        · rename_i hi
          cases hstep
          exact .claim ht hi
        · cases hstep
          exact .claimLater ht
      · rename_i ht
        split at hstep
        · cases hstep
          exact .look ht
        · cases hstep
          exact .pass ht
      · rename_i ht
        split at hstep
        · rename_i hfree
          cases hstep
          exact .lock ht hfree
        · cases hstep
      · rename_i ht
        split at hstep
        · rename_i hmu
          split at hstep
          · rename_i htt
            subst htt
            cases hstep
            exact .locked ht hmu
          · cases hstep
        · cases hstep

/-! ### The invariant -/

/-- The slot is being fetched, and has been since the waiter was registered. -/
def Parked (s : ClaimWorld) (x : SlotTicket) : Prop :=
  s.state x.slot = .fetching ∧ x.turn = (s.departures x.slot).length

/-- Thread `c.1` took the slot out of `kFetching`, by the operation `c.2.2`, and nobody did between
the registration of the waiter and that. -/
def Told (s : ClaimWorld) (c : Nat × SlotTicket × SlotOp) : Prop :=
  (s.departures c.2.1.slot)[c.2.1.turn]? = some (c.1, c.2.2)

/-- What holds of the waiters that are registered (`W`), of those that the holder of the mutex has
taken (`T`), and of all others. -/
structure Core (s : ClaimWorld) (W : SlotTicket → Prop) (T : Nat × SlotTicket × SlotOp → Prop) :
    Prop where
  waiters : ∀ x ∈ s.waiters, W x
  wake : ∀ c ∈ s.wake, T c
  told : ∀ c ∈ s.taken ++ s.called, s.Told c
  once : s.registered.Perm
    (s.waiters ++ (s.wake ++ (s.taken ++ s.called) ++ s.lost).map fun c => c.2.1)
  isOpen : ∀ i, s.state i = .fetching → s.isOpen i = true

/-- Taken by a `stage` that has yet to store the state. -/
def Leaving (s : ClaimWorld) (t i : Nat) (c : Nat × SlotTicket × SlotOp) : Prop :=
  c.1 = t ∧ c.2.1.slot = i ∧ c.2.2 = .stage ∧ s.Parked c.2.1

/-- The waiters, by where the holder of the mutex stands. -/
def MuInv (s : ClaimWorld) : Option (Nat × SlotSection) → Prop
  | some (_, .register i _) => s.Core s.Parked s.Told ∧ s.state i = .fetching
  | some (t, .storing _ i _) =>
      s.Core (fun x => s.Parked x ∧ x.slot ≠ i) fun c => s.Told c ∨ s.Leaving t i c
  | some (t, .waking i op _) =>
      s.Core (fun x => if x.slot = i then s.Told (t, x, op) else s.Parked x) s.Told
  | _ => s.Core s.Parked s.Told

end ClaimWorld

/-- The slots whose waiters a section may yet take. -/
def SlotSection.slots : SlotSection → List Nat
  | .staging _ i _ _ => [i]
  | .applying slots => slots
  | .readying i slots => i :: slots
  | .waking i _ slots => i :: slots
  | .abandoning _ i => [i]
  | _ => []

/-- A section that has not begun to move waiters. -/
def SlotSection.Plain : SlotSection → Prop
  | .register _ _ => False
  | .storing _ _ _ => False
  | .readying _ _ => False
  | .waking _ _ _ => False
  | _ => True

variable {sec : SlotSection}

namespace ClaimWorld

variable {s' : ClaimWorld} {t : Nat} {T : Nat × SlotTicket × SlotOp → Prop} {W : SlotTicket → Prop}

structure Inv (s : ClaimWorld) : Prop where
  plain : ∀ t sec, s.threads t = .blocked sec → sec.Plain
  holder : ∀ t sec, s.mu = some (t, sec) → s.threads t = .locked
  mu : s.MuInv s.mu

theorem muInv_plain {s : ClaimWorld} (h : sec.Plain) :
    s.MuInv (some (t, sec)) ↔ s.Core s.Parked s.Told := by
  cases sec <;> first | exact Iff.rfl | exact absurd h id

variable {s : ClaimWorld}

/-- Same waiters, and a weaker account of them. -/
theorem Core.mono {W' : SlotTicket → Prop} {T' : Nat × SlotTicket × SlotOp → Prop} (h : s.Core W T)
    (hlists : s'.waiters = s.waiters ∧ s'.wake = s.wake ∧ s'.taken = s.taken ∧
      s'.called = s.called ∧ s'.registered = s.registered ∧ s'.lost = s.lost)
    (hW : ∀ x ∈ s.waiters, W x → W' x) (hT : ∀ c, T c → T' c) (htold : ∀ c, s.Told c → s'.Told c)
    (hopen : ∀ i, s'.state i = .fetching → s'.isOpen i = true) : s'.Core W' T' := by
  obtain ⟨hw, hwake, ht, hc, hr, hl⟩ := hlists
  refine ⟨?_, ?_, ?_, ?_, hopen⟩
  · rw [hw]
    exact fun x hx => hW x hx (h.waiters x hx)
  · rw [hwake]
    exact fun c hc' => hT c (h.wake c hc')
  · rw [ht, hc]
    exact fun c hc' => htold c (h.told c hc')
  · rw [hw, hwake, ht, hc, hr, hl]
    exact h.once

/-- The mutex, the threads and the claims are not part of the account. -/
theorem MuInv.frame {m : Option (Nat × SlotSection)} (h : s.MuInv m)
    (m₀ : Option (Nat × SlotSection)) (threads : Nat → SlotPhase) (claims : List (Nat × Nat)) :
    ({ s with mu := m₀, threads := threads, claims := claims } : ClaimWorld).MuInv m := by
  have hcore : ∀ {W T}, s.Core W T →
      ({ s with mu := m₀, threads := threads, claims := claims } : ClaimWorld).Core W T :=
    fun hc => ⟨hc.waiters, hc.wake, hc.told, hc.once, hc.isOpen⟩
  cases m with
  | none => exact hcore h
  | some p =>
      obtain ⟨t, sec⟩ := p
      cases sec with
      | register i w => exact ⟨hcore h.1, h.2⟩
      | _ => exact hcore h

/-! ### Steps that move no waiter -/

theorem Parked.claim {x : SlotTicket} (h : s.Parked x) (r i : Nat) : (s.claim r i).Parked x := by
  refine ⟨?_, h.2⟩
  by_cases hi : x.slot = i
  · simp [ClaimWorld.claim, hi]
  · simpa [ClaimWorld.claim, hi] using h.1

/-- A claim, outside the mutex or under it, whoever holds it. -/
theorem claim_muInv (r i : Nat) {m : Option (Nat × SlotSection)} (h : s.MuInv m) :
    (s.claim r i).MuInv m := by
  have hopen : ∀ {W T}, s.Core W T → ∀ j, (s.claim r i).state j = .fetching →
      (s.claim r i).isOpen j = true := by
    intro W T hcore j hj
    by_cases hi : j = i
    · simp [claim, hi]
    · simp only [claim, Function.update_of_ne hi] at hj ⊢
      exact hcore.isOpen j hj
  have hcore : s.Core s.Parked s.Told → (s.claim r i).Core (s.claim r i).Parked s.Told :=
    fun hc => hc.mono ⟨rfl, rfl, rfl, rfl, rfl, rfl⟩ (fun x _ hx => hx.claim r i) (fun _ => id)
      (fun _ => id) (hopen hc)
  cases m with
  | none => exact hcore h
  | some p =>
      obtain ⟨t, sec⟩ := p
      cases sec with
      | register j w =>
          refine ⟨hcore h.1, ?_⟩
          by_cases hj : j = i
          · simp [claim, hj]
          · simpa [claim, hj] using h.2
      | storing r' j keep =>
          refine h.mono ⟨rfl, rfl, rfl, rfl, rfl, rfl⟩ (fun x _ hx => ⟨hx.1.claim r i, hx.2⟩) ?_
            (fun _ => id) (hopen h)
          rintro c (hc | ⟨h1, h2, h3, h4⟩)
          · exact Or.inl hc
          · exact Or.inr ⟨h1, h2, h3, h4.claim r i⟩
      | waking j op slots =>
          refine h.mono ⟨rfl, rfl, rfl, rfl, rfl, rfl⟩ (fun x _ hx => ?_) (fun _ => id)
            (fun _ => id) (hopen h)
          split
          · rename_i hj
            rw [if_pos hj] at hx
            exact hx
          · rename_i hj
            rw [if_neg hj] at hx
            exact hx.claim r i
      | _ => exact hcore h

theorem forgetState_core (i : Nat) (h : s.Core s.Parked s.Told) :
    (s.forgetState i).Core (s.forgetState i).Parked (s.forgetState i).Told := by
  unfold forgetState
  split
  · rename_i hready
    refine h.mono ⟨rfl, rfl, rfl, rfl, rfl, rfl⟩ (fun x _ hx => ⟨?_, hx.2⟩) (fun _ => id)
      (fun _ => id) fun j hj => ?_
    · have hne : x.slot ≠ i := by
        rintro rfl
        rw [hx.1] at hready
        cases hready
      simpa [hne] using hx.1
    · by_cases hj' : j = i
      · simp [hj'] at hj
      · exact h.isOpen j (by simpa [hj'] using hj)
  · exact h

/-! ### A slot leaves `kFetching` -/

theorem Told.leave {c : Nat × SlotTicket × SlotOp} (h : s.Told c) (t : Nat) (op : SlotOp) (i : Nat)
    (next : SlotState) : (s.leave t op i next).Told c := by
  unfold Told ClaimWorld.leave
  dsimp only
  split
  · by_cases hi : c.2.1.slot = i
    · obtain ⟨hlt, -⟩ := List.getElem?_eq_some_iff.1 h
      rw [hi] at hlt
      rw [hi, Function.update_self, List.getElem?_append_left hlt, ← hi]
      exact h
    · rw [Function.update_of_ne hi]
      exact h
  · exact h

theorem Parked.leave_ne {x : SlotTicket} (h : s.Parked x) (hi : x.slot ≠ i) (t : Nat) (op : SlotOp)
    (next : SlotState) : (s.leave t op i next).Parked x := by
  refine ⟨by simpa [ClaimWorld.leave, hi] using h.1, ?_⟩
  unfold ClaimWorld.leave
  dsimp only
  split
  · rw [Function.update_of_ne hi]
    exact h.2
  · exact h.2

/-- The waiters of the slot are told by who takes it out. -/
theorem Parked.leave_self {x : SlotTicket} (h : s.Parked x) (hi : x.slot = i) (t : Nat)
    (op : SlotOp) (next : SlotState) : (s.leave t op i next).Told (t, x, op) := by
  obtain ⟨hstate, hturn⟩ := h
  rw [hi] at hstate hturn
  unfold Told ClaimWorld.leave
  dsimp only
  rw [if_pos hstate, hi, Function.update_self, hturn]
  exact List.getElem?_concat_length

theorem leave_isOpen (h : s.Core W T) (t : Nat) (op : SlotOp) (i : Nat) {next : SlotState}
    (hnext : next ≠ .fetching) (j : Nat) (hj : (s.leave t op i next).state j = .fetching) :
    (s.leave t op i next).isOpen j = true := by
  by_cases hi : j = i
  · subst hi
    simp only [leave, Function.update_self] at hj
    exact absurd hj hnext
  · simp only [leave, Function.update_of_ne hi] at hj ⊢
    exact h.isOpen j hj

/-- `apply` and `abandon` change the state first. -/
theorem leave_core (h : s.Core s.Parked s.Told) (t : Nat) (op : SlotOp) (i : Nat)
    {next : SlotState} (hnext : next ≠ .fetching) :
    let s' := s.leave t op i next
    s'.Core (fun x => if x.slot = i then s'.Told (t, x, op) else s'.Parked x) s'.Told := by
  refine h.mono ⟨rfl, rfl, rfl, rfl, rfl, rfl⟩ (fun x _ hx => ?_)
    (fun _ hc => hc.leave t op i next) (fun _ hc => hc.leave t op i next)
    (leave_isOpen h t op i hnext)
  split
  · rename_i hi
    exact hx.leave_self hi t op next
  · rename_i hi
    exact hx.leave_ne hi t op next

/-- `stage` stores the state last. -/
theorem store_core
    (h : s.Core (fun x => s.Parked x ∧ x.slot ≠ i) fun c => s.Told c ∨ s.Leaving t i c)
    {next : SlotState} (hnext : next ≠ .fetching) :
    let s' := s.leave t .stage i next
    s'.Core s'.Parked s'.Told := by
  refine h.mono ⟨rfl, rfl, rfl, rfl, rfl, rfl⟩
    (fun x _ hx => hx.1.leave_ne hx.2 t .stage next) ?_
    (fun _ hc => hc.leave t .stage i next) (leave_isOpen h t .stage i hnext)
  rintro ⟨t', x, op⟩ (hc | ⟨h1, h2, h3, h4⟩)
  · exact hc.leave t .stage i next
  · obtain rfl : t' = t := h1
    obtain rfl : op = .stage := h3
    exact h4.leave_self h2 t' .stage next

/-- Waiters are moved, not copied. -/
theorem take_once (h : s.Core W T) (t : Nat) (op : SlotOp) (i : Nat) :
    (s.take t op i).registered.Perm ((s.take t op i).waiters ++ ((s.take t op i).wake ++
      ((s.take t op i).taken ++ (s.take t op i).called) ++ (s.take t op i).lost).map
        fun c => c.2.1) := by
  have honce := h.once
  have hsplit := (List.filter_append_perm (fun x : SlotTicket => decide (x.slot = i))
    s.waiters).symm
  have hne : (fun x : SlotTicket => decide (x.slot ≠ i)) = fun x => !decide (x.slot = i) := by
    funext x
    simp
  rw [List.perm_iff_count] at honce hsplit ⊢
  intro x
  have hx := honce x
  have hx' := hsplit x
  simp only [List.map_append, List.count_append] at hx hx'
  by_cases hnone : s.waitersOf t op i = []
  · have hmine := congrArg List.length hnone
    simp only [waitersOf, List.length_map, List.length_nil, List.length_eq_zero_iff] at hmine
    simp only [hmine, List.count_nil] at hx'
    simp only [take, hnone, if_true, hne, List.map_append, List.count_append]
    omega
  · have hmine : (s.waitersOf t op i).map (fun c => c.2.1) =
        s.waiters.filter fun x => decide (x.slot = i) := by
      simp [waitersOf, Function.comp_def]
    simp only [take, hnone, if_false, hne, List.map_append, List.count_append, hmine]
    omega

theorem take_core {W' : SlotTicket → Prop} {T' : Nat × SlotTicket × SlotOp → Prop} (h : s.Core W T)
    (t : Nat) (op : SlotOp) (i : Nat) (hW : ∀ x, x.slot ≠ i → W x → W' x) (hT : ∀ c, T c → T' c)
    (hnew : ∀ x, x.slot = i → W x → T' (t, x, op)) : (s.take t op i).Core W' T' where
  waiters := by
    intro x hx
    obtain ⟨hmem, hne⟩ := List.mem_filter.1 hx
    exact hW x (by simpa using hne) (h.waiters x hmem)
  wake := by
    intro c hc
    simp only [take] at hc
    split at hc
    · exact hT c (h.wake c hc)
    · obtain ⟨x, hx, rfl⟩ := List.mem_map.1 hc
      obtain ⟨hmem, heq⟩ := List.mem_filter.1 hx
      exact hnew x (by simpa using heq) (h.waiters x hmem)
  told := h.told
  once := take_once h t op i
  isOpen := h.isOpen

theorem register_core (i w : Nat) (h : s.Core s.Parked s.Told) (hi : s.state i = .fetching) :
    let x : SlotTicket := { slot := i, waiter := w, turn := (s.departures i).length }
    ({ s with waiters := s.waiters ++ [x], registered := s.registered ++ [x] } : ClaimWorld).Core
      s.Parked s.Told where
  waiters := by
    intro x hx
    rcases List.mem_append.1 hx with hx | hx
    · exact h.waiters x hx
    · obtain rfl := List.mem_singleton.1 hx
      exact ⟨hi, rfl⟩
  wake := h.wake
  told := h.told
  once := by
    have honce := h.once
    rw [List.perm_iff_count] at honce ⊢
    intro x
    have hx := honce x
    simp only [List.count_append] at hx ⊢
    omega
  isOpen := h.isOpen

/-- A section is over: what it took is to be called. -/
theorem release_core (h : s.Core s.Parked s.Told) :
    ({ s with taken := s.taken ++ s.wake, wake := [] } : ClaimWorld).Core s.Parked s.Told where
  waiters := h.waiters
  wake := by simp
  told := by
    intro c hc
    simp only [List.append_assoc, List.mem_append] at hc
    rcases hc with hc | hc | hc
    · exact h.told c (List.mem_append_left _ hc)
    · exact h.wake c hc
    · exact h.told c (List.mem_append_right _ hc)
  once := by
    refine h.once.trans (List.Perm.append_left _ (List.Perm.map _ ?_))
    rw [List.perm_iff_count]
    intro c
    simp only [List.count_append, List.count_nil]
    omega
  isOpen := h.isOpen

/-! ### One step -/

/-- A step of the holder of the mutex. -/
theorem runLocked_muInv (h : s.MuInv (some (t, sec))) :
    (s.runLocked t sec).MuInv (s.runLocked t sec).mu := by
  -- a section goes on where the account for its next part holds
  have hnext : ∀ {s₁ : ClaimWorld} {q : SlotSection}, s₁.MuInv (some (t, q)) →
      (s₁.next t q).MuInv (s₁.next t q).mu := fun h1 => h1.frame _ _ _
  cases sec with
  | claim r i w =>
      simp only [runLocked]
      cases hi : s.state i with
      | absent => exact hnext (q := .done) (claim_muInv r i h)
      | ready => exact hnext (q := .done) h
      | fetching => exact hnext (q := .register i w) ⟨h, hi⟩
  | register i w =>
      have hcore := register_core i w h.1 h.2
      exact hnext (q := .done) hcore
  | staging r i drop keep =>
      cases drop with
      | cons j drop => exact hnext (q := .staging r i drop keep) (forgetState_core j h)
      | nil =>
          have htake : (s.take t .stage i).MuInv (some (t, .storing r i keep)) :=
            take_core h t .stage i (fun x hne hx => ⟨hx, hne⟩) (fun c hc => Or.inl hc)
              fun x hi hx => Or.inr ⟨rfl, hi, rfl, hx⟩
          exact hnext htake
  | storing r i keep =>
      have hleft : (s.leave t .stage i (if keep then .ready else .absent)).MuInv
          (some (t, .done)) := store_core h (by cases keep <;> simp)
      exact hnext (hleft.frame _ _ (s.claims.erase (r, i)))
  | applying slots =>
      cases slots with
      | nil => exact hnext (q := .done) h
      | cons i slots =>
          have hcore : s.Core s.Parked s.Told := h
          simp only [runLocked]
          split
          · rename_i hready
            refine hnext (q := .applying slots) (hcore.mono ⟨rfl, rfl, rfl, rfl, rfl, rfl⟩
              (fun _ _ hx => hx) (fun _ => id) (fun _ => id) fun j hj => ?_)
            have hne : j ≠ i := by
              rintro rfl
              rw [show s.state j = .fetching from hj] at hready
              cases hready
            simpa [hne] using hcore.isOpen j hj
          · exact hnext (q := .readying i slots) h
  | readying i slots =>
      have hleft : (s.leave t .apply i .ready).MuInv (some (t, .waking i .apply slots)) :=
        leave_core h t .apply i (by simp)
      exact hnext hleft
  | waking i op slots =>
      have htake : (s.take t op i).MuInv (some (t, .applying slots)) := by
        refine take_core h t op i (fun x hne hx => ?_) (fun _ hc => hc) fun x hi hx => ?_
        · rw [if_neg hne] at hx
          exact hx
        · rw [if_pos hi] at hx
          exact hx
      exact hnext htake
  | abandoning r i =>
      have hcore : s.Core s.Parked s.Told := h
      simp only [runLocked]
      by_cases hi : s.state i = .fetching
      · simp only [hi, if_true]
        have hleft : (s.leave t .abandon i .absent).MuInv (some (t, .waking i .abandon [])) :=
          leave_core h t .abandon i (by simp)
        exact hnext (hleft.frame _ _ (s.claims.erase (r, i)))
      · simp only [hi, if_false]
        -- nobody waits on a slot that is not being fetched
        refine hnext (q := .waking i .abandon []) (hcore.mono ⟨rfl, rfl, rfl, rfl, rfl, rfl⟩
          (fun x _ hx => ?_) (fun _ => id) (fun _ => id) fun j hj => ?_)
        · have hne : x.slot ≠ i := by
            rintro rfl
            exact hi hx.1
          rw [if_neg hne]
          exact hx
        · have hne : j ≠ i := by
            rintro rfl
            exact hi hj
          simpa [hne] using hcore.isOpen j hj
  | forgetting i => exact hnext (q := .done) (forgetState_core i h)
  | done =>
      have hcore := release_core h
      exact MuInv.frame (m := none) hcore _ _ _

/-- A step under the mutex keeps it, except for the last one. -/
theorem runLocked_stays (s : ClaimWorld) (t : Nat) (h : sec ≠ .done) :
    (s.runLocked t sec).threads = s.threads ∧ ∃ sec', (s.runLocked t sec).mu = some (t, sec') := by
  cases sec with
  | claim r i w => simp only [runLocked]; cases s.state i <;> exact ⟨rfl, _, rfl⟩
  | staging r i drop keep =>
      cases drop with
      | nil => exact ⟨rfl, _, rfl⟩
      | cons j drop => simp only [runLocked, forgetState]; split <;> exact ⟨rfl, _, rfl⟩
  | applying slots =>
      cases slots with
      | nil => exact ⟨rfl, _, rfl⟩
      | cons i slots => simp only [runLocked]; split <;> exact ⟨rfl, _, rfl⟩
  | abandoning r i => simp only [runLocked]; split <;> exact ⟨rfl, _, rfl⟩
  | forgetting i => simp only [runLocked, forgetState]; split <;> exact ⟨rfl, _, rfl⟩
  | done => exact absurd rfl h
  | _ => exact ⟨rfl, _, rfl⟩

theorem runLocked_threads (s : ClaimWorld) (t : Nat) (sec : SlotSection) :
    (s.runLocked t sec).threads =
      if sec = .done then Function.update s.threads t .idle else s.threads := by
  split
  · rename_i hdone
    subst hdone
    rfl
  · rename_i hdone
    exact (runLocked_stays s t hdone).1

theorem phase_plain (call : SlotCall) (sec : SlotSection) (h : call.phase = .blocked sec) :
    sec.Plain := by
  cases call <;> simp only [SlotCall.phase, SlotPhase.blocked.injEq, reduceCtorEq] at h <;>
    subst h <;> trivial

/-- A waiter that was taken out is called. -/
theorem call_muInv {m : Option (Nat × SlotSection)} (h : s.MuInv m)
    {c : Nat × SlotTicket × SlotOp} (hmem : c ∈ s.taken) :
    ({ s with taken := s.taken.erase c, called := s.called ++ [c] } : ClaimWorld).MuInv m := by
  have hmove : (s.taken.erase c ++ (s.called ++ [c])).Perm (s.taken ++ s.called) := by
    have hcons := List.perm_cons_erase hmem
    rw [List.perm_iff_count] at hcons ⊢
    intro x
    have hx := hcons x
    simp only [List.count_append, List.count_cons, List.count_nil] at hx ⊢
    omega
  have hcore : ∀ {W T}, s.Core W T →
      ({ s with taken := s.taken.erase c, called := s.called ++ [c] } : ClaimWorld).Core W T := by
    intro W T hc
    refine ⟨hc.waiters, hc.wake, fun c' hc' => hc.told c' (hmove.mem_iff.1 hc'), ?_, hc.isOpen⟩
    exact hc.once.trans
      ((((hmove.symm.append_left _).append_right _).map _).append_left _)
  cases m with
  | none => exact hcore h
  | some p =>
      obtain ⟨t, sec⟩ := p
      cases sec with
      | register i w => exact ⟨hcore h.1, h.2⟩
      | _ => exact hcore h

/-- Another thread's step leaves the account of the mutex's holder alone. -/
theorem goto_inv (h : Inv s) {p : SlotPhase} (hp : ∀ sec, p = .blocked sec → sec.Plain)
    (ht : s.threads t ≠ .locked) : Inv (s.goto t p) where
  plain := by
    intro t' sec hsec
    by_cases htt : t' = t
    · subst htt
      exact hp sec (by simpa [goto] using hsec)
    · exact h.plain t' sec (by simpa [goto, htt] using hsec)
  holder := by
    intro t' sec hmu
    have hlocked := h.holder t' sec hmu
    have hne : t' ≠ t := by
      rintro rfl
      exact ht hlocked
    simpa [goto, hne] using hlocked
  mu := h.mu.frame _ _ _

theorem step_inv (h : Inv s) {a : ClaimAct} (hstep : s.step a = some s') : Inv s' := by
  cases step_stepped hstep with
  | @start t call hidle => exact goto_inv h (phase_plain call) (by simp [hidle])
  | call hmem => exact ⟨h.plain, h.holder, call_muInv h.mu hmem⟩
  | @claim t r i w ht hi =>
      have hclaim : Inv (s.claim r i) := ⟨h.plain, h.holder, claim_muInv r i h.mu⟩
      exact goto_inv hclaim (by simp) (by simp [ClaimWorld.claim, ht])
  | claimLater ht => exact goto_inv h (by simp [SlotSection.Plain]) (by simp [ht])
  | @look t i gone ht =>
      refine goto_inv h ?_ (by simp [ht])
      rintro sec ⟨⟩
      cases gone <;> trivial
  | pass ht => exact goto_inv h (by simp) (by simp [ht])
  | @lock t sec ht hfree =>
      have hplain := h.plain t sec ht
      have hcore : s.Core s.Parked s.Told := by
        have hmu := h.mu
        rw [hfree] at hmu
        exact hmu
      refine ⟨?_, ?_, ((muInv_plain hplain).2 hcore).frame _ _ _⟩
      · intro t' sec' hsec
        by_cases htt : t' = t
        · simp [goto, next, htt] at hsec
        · exact h.plain t' sec' (by simpa [goto, next, htt] using hsec)
      · rintro t' sec' ⟨⟩
        simp [goto, next]
  | @locked t sec ht hmu =>
      have hinv := h.mu
      rw [hmu] at hinv
      have hthreads := runLocked_threads s t sec
      refine ⟨?_, ?_, runLocked_muInv hinv⟩
      · intro t₁ sec₁ hsec
        rw [hthreads] at hsec
        split at hsec
        · by_cases h1 : t₁ = t
          · simp [h1] at hsec
          · exact h.plain t₁ sec₁ (by simpa [h1] using hsec)
        · exact h.plain t₁ sec₁ hsec
      · intro t₁ sec₁ hmu₁
        by_cases hdone : sec = .done
        · subst hdone
          simp [runLocked, goto] at hmu₁
        · obtain ⟨hkeep, sec', hsec'⟩ := runLocked_stays s t hdone
          rw [hsec'] at hmu₁
          cases hmu₁
          rw [hkeep]
          exact ht

theorem empty_inv : Inv {} where
  plain := by simp
  holder := by simp
  mu := ⟨by simp, by simp, by simp, List.Perm.nil, by simp⟩

/-! ### Nobody is lost

A section loses waiters when it takes those of a slot and holds those of another. -/

/-- Somebody waits for the slot. -/
def Waited (s : ClaimWorld) (i : Nat) : Prop := ∃ x ∈ s.waiters, x.slot = i

/-- At most one of the slots is waited for. -/
def OneOf (s : ClaimWorld) (slots : List Nat) : Prop :=
  ∀ i ∈ slots, ∀ j ∈ slots, s.Waited i → s.Waited j → i = j

/-- An `apply` that takes the mutex finds waiters of at most one of the slots its entries name. -/
def OneWaited (s : ClaimWorld) : ClaimAct → Prop
  | .run t => s.mu = none → ∀ slots, s.threads t = .blocked (.applying slots) → s.OneOf slots
  | _ => True

/-- At most one of the slots is waited for, and none once waiters were taken. -/
structure Roomy (s : ClaimWorld) (slots : List Nat) : Prop where
  one : s.OneOf slots
  fresh : s.wake ≠ [] → ∀ i ∈ slots, ¬ s.Waited i

/-- Nobody was lost so far, and the holder of the mutex will lose nobody. -/
structure NoneLost (s : ClaimWorld) : Prop where
  lost : s.lost = []
  idle : s.mu = none → s.wake = []
  holder : ∀ t sec, s.mu = some (t, sec) → s.Roomy sec.slots

theorem Roomy.mono {slots slots' : List Nat} (h : s.Roomy slots)
    (hwaiters : ∀ x ∈ s'.waiters, x ∈ s.waiters) (hwake : s'.wake = s.wake)
    (hsub : ∀ i ∈ slots', i ∈ slots) : s'.Roomy slots' := by
  have hwaited : ∀ i, s'.Waited i → s.Waited i := fun i ⟨x, hx, hi⟩ => ⟨x, hwaiters x hx, hi⟩
  constructor
  · intro i hi j hj hwi hwj
    exact h.one i (hsub i hi) j (hsub j hj) (hwaited i hwi) (hwaited j hwj)
  · intro hne i hi hwi
    rw [hwake] at hne
    exact h.fresh hne i (hsub i hi) (hwaited i hwi)

/-- The holder goes on and takes nobody. -/
theorem NoneLost.next {sec' : SlotSection} (h : s.NoneLost) (hmu : s.mu = some (t, sec))
    (hsame : s'.waiters = s.waiters ∧ s'.wake = s.wake ∧ s'.lost = s.lost)
    (hsub : ∀ i ∈ sec'.slots, i ∈ sec.slots) : (s'.next t sec').NoneLost := by
  obtain ⟨hwaiters, hwake, hlost⟩ := hsame
  refine ⟨hlost.trans h.lost, nofun, ?_⟩
  rintro t' sec'' ⟨⟩
  refine (h.holder t sec hmu).mono (fun x hx => ?_) hwake hsub
  rw [← hwaiters]
  exact hx

/-- The holder takes the waiters of the first of its slots. -/
theorem take_noneLost (op : SlotOp) {slots : List Nat} (hlost : s.lost = [])
    (h : s.Roomy (i :: slots)) : (s.take t op i).lost = [] ∧ (s.take t op i).Roomy slots := by
  have hleft : ∀ x ∈ (s.take t op i).waiters, x ∈ s.waiters := fun x hx => List.mem_of_mem_filter hx
  by_cases hnone : s.waitersOf t op i = []
  · refine ⟨by simp [take, hnone, hlost], h.mono hleft (by simp [take, hnone]) ?_⟩
    exact fun j hj => List.mem_cons_of_mem _ hj
  · have hwaited : s.Waited i := by
      obtain ⟨c, hc⟩ := List.exists_mem_of_ne_nil _ hnone
      obtain ⟨x, hx, -⟩ := List.mem_map.1 hc
      obtain ⟨hmem, hi⟩ := List.mem_filter.1 hx
      exact ⟨x, hmem, by simpa using hi⟩
    have hwake : s.wake = [] := by
      by_contra hne
      exact h.fresh hne i List.mem_cons_self hwaited
    -- no other slot of the section is waited for
    have hrest : ∀ j ∈ slots, ¬ (s.take t op i).Waited j := by
      rintro j hj ⟨x, hx, rfl⟩
      obtain ⟨hmem, hne⟩ := List.mem_filter.1 hx
      have hsame := h.one i List.mem_cons_self _ (List.mem_cons_of_mem _ hj) hwaited ⟨x, hmem, rfl⟩
      exact (of_decide_eq_true hne) hsame.symm
    refine ⟨by simp [take, hnone, hlost, hwake], ?_, fun _ => hrest⟩
    exact fun j hj _ _ hwj => absurd hwj (hrest j hj)

/-- A step of the holder of the mutex. -/
theorem runLocked_noneLost (h : s.NoneLost) (hmu : s.mu = some (t, sec)) :
    (s.runLocked t sec).NoneLost := by
  have hroomy := h.holder t sec hmu
  cases sec with
  | claim r i w =>
      simp only [runLocked]
      cases s.state i with
      | absent => exact h.next hmu ⟨rfl, rfl, rfl⟩ (fun _ => id)
      | ready => exact h.next hmu ⟨rfl, rfl, rfl⟩ (fun _ => id)
      | fetching => exact h.next hmu ⟨rfl, rfl, rfl⟩ (fun _ => id)
  | register i w =>
      refine ⟨h.lost, nofun, ?_⟩
      rintro t' sec' ⟨⟩
      exact ⟨nofun, fun _ _ hi => nomatch hi⟩
  | staging r i drop keep =>
      cases drop with
      | cons j drop =>
          simp only [runLocked, forgetState]
          split <;> exact h.next hmu ⟨rfl, rfl, rfl⟩ (fun _ => id)
      | nil =>
          obtain ⟨hlost, htaken⟩ := take_noneLost (t := t) .stage h.lost hroomy
          refine ⟨hlost, nofun, ?_⟩
          rintro t' sec' ⟨⟩
          exact htaken.mono (fun _ => id) rfl (fun _ => id)
  | storing r i keep => exact h.next hmu ⟨rfl, rfl, rfl⟩ (fun _ => id)
  | applying slots =>
      cases slots with
      | nil => exact h.next hmu ⟨rfl, rfl, rfl⟩ (fun _ => id)
      | cons i slots =>
          simp only [runLocked]
          split
          · exact h.next hmu ⟨rfl, rfl, rfl⟩ (fun j hj => List.mem_cons_of_mem _ hj)
          · exact h.next hmu ⟨rfl, rfl, rfl⟩ (fun _ => id)
  | readying i slots => exact h.next hmu ⟨rfl, rfl, rfl⟩ (fun _ => id)
  | waking i op slots =>
      obtain ⟨hlost, htaken⟩ := take_noneLost (t := t) op h.lost hroomy
      refine ⟨hlost, nofun, ?_⟩
      rintro t' sec' ⟨⟩
      exact htaken.mono (fun _ => id) rfl (fun _ => id)
  | abandoning r i =>
      simp only [runLocked]
      split <;> exact h.next hmu ⟨rfl, rfl, rfl⟩ (fun _ => id)
  | forgetting i =>
      simp only [runLocked, forgetState]
      split <;> exact h.next hmu ⟨rfl, rfl, rfl⟩ (fun _ => id)
  | done => exact ⟨h.lost, fun _ => rfl, nofun⟩

/-- What a thread does without the mutex loses nobody. -/
theorem NoneLost.frame (h : s.NoneLost) (hmu : s'.mu = s.mu) (hwaiters : s'.waiters = s.waiters)
    (hwake : s'.wake = s.wake) (hlost : s'.lost = s.lost) : s'.NoneLost := by
  refine ⟨hlost.trans h.lost, fun hnone => hwake.trans (h.idle (hmu.symm.trans hnone)), ?_⟩
  intro t sec hsec
  refine (h.holder t sec (hmu.symm.trans hsec)).mono (fun x hx => ?_) hwake (fun _ => id)
  rw [← hwaiters]
  exact hx

/-- With nothing taken, all but an `apply` have room: they take waiters of one slot at most. -/
theorem roomy_plain (h : sec.Plain) (hwake : s.wake = [])
    (hone : ∀ slots, sec = .applying slots → s.OneOf slots) : s.Roomy sec.slots := by
  refine ⟨?_, fun hne => absurd hwake hne⟩
  cases sec with
  | applying slots => exact hone slots rfl
  | staging r i drop keep | abandoning r i =>
      intro j hj k hk _ _
      rw [List.mem_singleton.1 hj, List.mem_singleton.1 hk]
  | readying i slots => exact absurd h id
  | waking i op slots => exact absurd h id
  | _ => exact fun j hj => nomatch hj

theorem step_noneLost (hinv : s.Inv) (h : s.NoneLost) {a : ClaimAct} (hcond : s.OneWaited a)
    (hstep : s.step a = some s') : s'.NoneLost := by
  cases step_stepped hstep with
  | @lock t sec ht hfree =>
      refine ⟨h.lost, nofun, ?_⟩
      rintro t' sec' ⟨⟩
      have hroomy := roomy_plain (hinv.plain t sec ht) (h.idle hfree) (by
        rintro slots rfl
        exact hcond hfree slots ht)
      exact hroomy.mono (fun _ => id) rfl (fun _ => id)
  | locked ht hmu => exact runLocked_noneLost h hmu
  | _ => exact h.frame rfl rfl rfl rfl

end ClaimWorld

/-- What holds of the waiters at any time. -/
structure WaitersKept (s : ClaimWorld) : Prop where
  /-- A slot with waiters is being fetched, and has been since they were registered; of the slot that
  the holder of the mutex has just taken out, they are about to be taken. -/
  fetching : ∀ x ∈ s.waiters, s.Parked x ∨
    ∃ t op slots, s.mu = some (t, .waking x.slot op slots) ∧ s.Told (t, x, op)
  /-- Past the mutex there is no such slot. -/
  free : s.mu = none → ∀ x ∈ s.waiters, s.state x.slot = .fetching
  /-- Who was registered waits, is about to be called or was called: one of these, once. -/
  once : s.registered.Perm
    (s.waiters ++ (s.wake ++ (s.taken ++ s.called)).map fun c => c.2.1)
  /-- A waiter is called by the operation that took its slot out of `kFetching`, and told `op.ok`. -/
  called : ∀ c ∈ s.called, s.Told c
  /-- Nobody waits when every slot that was claimed has been staged, applied or abandoned. -/
  drained : s.mu = none → (∀ i, s.isOpen i = false) → s.waiters = []

theorem ClaimWorld.Inv.waitersKept {s : ClaimWorld} (h : s.Inv) (hlost : s.lost = []) :
    WaitersKept s := by
  have hinv := h.mu
  have hfree : s.mu = none → ∀ x ∈ s.waiters, s.state x.slot = .fetching := by
    intro hmu
    rw [hmu] at hinv
    exact fun x hx => (hinv.waiters x hx).1
  have hdrained : s.mu = none → (∀ i, s.isOpen i = false) → s.waiters = [] := by
    intro hmu hclosed
    rw [hmu] at hinv
    refine List.eq_nil_iff_forall_not_mem.2 fun x hx => ?_
    have hopen := hinv.isOpen x.slot (hinv.waiters x hx).1
    rw [hclosed] at hopen
    cases hopen
  have hkept : ∀ {W T}, s.Core W T →
      (∀ x, W x → s.Parked x ∨
        ∃ t op slots, s.mu = some (t, .waking x.slot op slots) ∧ s.Told (t, x, op)) →
      WaitersKept s := by
    intro W T hc hW
    refine ⟨fun x hx => hW x (hc.waiters x hx), hfree, ?_, ?_, hdrained⟩
    · simpa [hlost] using hc.once
    · exact fun c hc' => hc.told c (List.mem_append_right _ hc')
  cases hmu : s.mu with
  | none =>
      rw [hmu] at hinv
      exact hkept hinv fun _ => Or.inl
  | some p =>
      obtain ⟨t, sec⟩ := p
      rw [hmu] at hinv
      cases sec with
      | register i w => exact hkept hinv.1 fun _ => Or.inl
      | storing r i keep => exact hkept hinv fun x hx => Or.inl hx.1
      | waking i op slots =>
          refine hkept hinv fun x hx => ?_
          split at hx
          · rename_i hi
            subst hi
            exact Or.inr ⟨t, op, slots, hmu, hx⟩
          · exact Or.inl hx
      | _ => exact hkept hinv fun _ => Or.inl

/-- **No slot waiter is lost or called twice**, in any interleaving of the atomic steps of the six
operations, of any number of threads, over any slots, in which no `apply` names two slots that are
waited for. -/
theorem no_slot_waiter_lost (acts : List ClaimAct) (s : ClaimWorld)
    (hrun : exec ClaimWorld.step {} acts = some s)
    (hcond : Along ClaimWorld.step ClaimWorld.OneWaited {} acts) : WaitersKept s := by
  have hinv : s.Inv ∧ s.NoneLost :=
    exec_invariant_along (fun s => s.Inv ∧ s.NoneLost)
      (fun _ _ _ h hc hstep => ⟨ClaimWorld.step_inv h.1 hstep,
        ClaimWorld.step_noneLost h.1 h.2 hc hstep⟩)
      ⟨ClaimWorld.empty_inv, rfl, fun _ => rfl, nofun⟩ hcond hrun
  exact hinv.1.waitersKept hinv.2.lost

/-- One request claims a slot, another waits for it, and the first gives its claim back. -/
def waitAndAbandon : List ClaimAct :=
  [.start 0 (.claimOrWait 1 0 10), .run 0, .start 1 (.claimOrWait 2 0 20), .run 1, .run 1, .run 1,
    .run 1, .run 1, .start 0 (.abandon 1 0), .run 0, .run 0, .run 0, .run 0, .run 0, .call 0]

/-- No step takes the mutex for an `apply`. -/
def appliesNone (s : ClaimWorld) : ClaimAct → Bool
  | .run t =>
      match s.threads t with
      | .blocked (.applying _) => false
      | _ => true
  | _ => true

theorem oneWaited_of_check {s : ClaimWorld} {a : ClaimAct} (h : appliesNone s a = true) :
    s.OneWaited a := by
  cases a with
  | run t =>
      intro _ slots ht
      simp [appliesNone, ht] at h
  | _ => trivial

/-- The claim waited for is abandoned, and the waiter is told once. -/
theorem no_slot_waiter_lost_abandoned :
    ∃ s, exec ClaimWorld.step {} waitAndAbandon = some s ∧ WaitersKept s ∧ s.mu = none ∧
      s.waiters = [] ∧ s.called = [(0, ⟨0, 20, 0⟩, .abandon)] := by
  have hobs : (exec ClaimWorld.step {} waitAndAbandon).map
      (fun s => decide (s.mu = none) && decide (s.waiters = []) &&
        decide (s.called = [(0, ⟨0, 20, 0⟩, .abandon)])) = some true := by decide +kernel
  have hcond : Along ClaimWorld.step ClaimWorld.OneWaited {} waitAndAbandon :=
    along_of_check (fun _ => True) (fun _ => True) (fun _ _ _ _ _ _ => trivial)
      (fun _ _ _ _ hcheck => oneWaited_of_check hcheck) trivial (fun _ _ => trivial)
      (by decide +kernel : alongB ClaimWorld.step appliesNone {} waitAndAbandon = true)
  obtain ⟨s, hrun, hobs⟩ := Option.map_eq_some_iff.1 hobs
  simp only [Bool.and_eq_true, decide_eq_true_eq] at hobs
  exact ⟨s, hrun, no_slot_waiter_lost _ s hrun hcond, hobs.1.1, hobs.1.2, hobs.2⟩

/-- Request 1 claims two slots, request 2 waits for both, and another process has committed both. -/
def applyTwo : List ClaimAct :=
  [.start 0 (.claimOrWait 1 0 10), .run 0, .start 0 (.claimOrWait 1 1 11), .run 0,
    .start 1 (.claimOrWait 2 0 20), .run 1, .run 1, .run 1, .run 1, .run 1,
    .start 1 (.claimOrWait 2 1 21), .run 1, .run 1, .run 1, .run 1, .run 1,
    .start 2 (.apply [0, 1]), .run 2, .run 2, .run 2, .run 2, .run 2, .run 2, .run 2, .run 2, .run 2,
    .call 2]

/-- The waiter of the second slot took the place of the first one's, which is neither registered nor
called any more. -/
theorem batch_loses_waiter :
    ∃ s, exec ClaimWorld.step {} applyTwo = some s ∧ s.mu = none ∧ s.waiters = [] ∧ s.taken = [] ∧
      s.registered = [⟨0, 20, 0⟩, ⟨1, 21, 0⟩] ∧ s.called = [(2, ⟨1, 21, 0⟩, .apply)] ∧
      ¬ WaitersKept s := by
  have hobs : (exec ClaimWorld.step {} applyTwo).map
      (fun s => decide (s.mu = none) && decide (s.waiters = []) && decide (s.wake = []) &&
        decide (s.taken = []) && decide (s.registered = [⟨0, 20, 0⟩, ⟨1, 21, 0⟩]) &&
        decide (s.called = [(2, ⟨1, 21, 0⟩, .apply)])) = some true := by decide +kernel
  obtain ⟨s, hrun, hobs⟩ := Option.map_eq_some_iff.1 hobs
  simp only [Bool.and_eq_true, decide_eq_true_eq] at hobs
  obtain ⟨⟨⟨⟨⟨hmu, hwaiters⟩, hwake⟩, htaken⟩, hregistered⟩, hcalled⟩ := hobs
  refine ⟨s, hrun, hmu, hwaiters, htaken, hregistered, hcalled, fun hkept => ?_⟩
  have hlength := hkept.once.length_eq
  simp [hregistered, hwaiters, hwake, htaken, hcalled] at hlength

/-! ### The sections of a file's run

Run without interruption the steps of a section do to the states and the waiters what the section
of `ColdFill` does; what it does to the records decides which transient ones it drops and whether
it keeps its own. -/

/-- The states and the registered waiters of a file's run. -/
structure ClaimWorld.Shows (s : ClaimWorld) (cf : ColdFill) : Prop where
  state : s.state = cf.state
  waiters : s.waiters.map (fun x => (x.slot, x.waiter)) = cf.waiters

/-- The holder of the mutex takes a step. -/
def ClaimWorld.solo (s : ClaimWorld) : ClaimWorld :=
  match s.mu with
  | some (t, sec) => s.runLocked t sec
  | none => s

/-- Some steps of thread `t` lead from one world to another that shows `cf` and where the section is
over. -/
def ClaimWorld.Becomes (s : ClaimWorld) (t : Nat) (cf : ColdFill) : Prop :=
  ∃ n, (ClaimWorld.solo^[n] s).Shows cf ∧ (ClaimWorld.solo^[n] s).mu = some (t, .done)

namespace ClaimWorld

variable {s : ClaimWorld} {cf cf' : ColdFill} {t : Nat}

theorem Becomes.of_solo (h : s.solo.Becomes t cf) : s.Becomes t cf := by
  obtain ⟨n, hn⟩ := h
  exact ⟨n + 1, hn⟩

theorem Becomes.of_run (hmu : s.mu = some (t, sec)) (h : (s.runLocked t sec).Becomes t cf) :
    s.Becomes t cf := by
  apply Becomes.of_solo
  rw [solo, hmu]
  exact h

/-- The section is over. -/
theorem Shows.done (h : s.Shows cf) : (s.next t .done).Becomes t cf :=
  ⟨0, ⟨h.state, h.waiters⟩, rfl⟩

theorem Shows.next (h : s.Shows cf) (sec : SlotSection) : (s.next t sec).Shows cf :=
  ⟨h.state, h.waiters⟩

theorem shows_take (h : s.Shows cf) (t : Nat) (op : SlotOp) (i : Nat) (ok : Bool)
    (record : Option Bytes) (out : List Wake) :
    (s.take t op i).Shows (cf.takeWaiters i ok record out).1 where
  state := h.state
  waiters := by
    change (s.waiters.filter fun x => decide (x.slot ≠ i)).map _ =
      cf.waiters.filter fun w => w.1 != i
    rw [← h.waiters, List.filter_map]
    congr 1
    apply List.filter_congr
    intro x _
    by_cases hx : x.slot = i <;> simp [hx]

theorem forget_state (cf : ColdFill) (i : Nat) :
    (cf.forget i).state = if cf.state i = .ready then Function.update cf.state i .absent
      else cf.state := by
  unfold ColdFill.forget
  by_cases h : cf.state i = .ready
  · simp only [if_pos h]
    split <;> rfl
  · simp only [if_neg h]
    split <;> rfl

theorem shows_forget (h : s.Shows cf) (i : Nat) : (s.forgetState i).Shows (cf.forget i) := by
  have hstate := h.state
  refine ⟨?_, ?_⟩
  · rw [forget_state, forgetState, ← hstate]
    split <;> rfl
  · rw [ColdFill.forget_waiters, ← h.waiters, forgetState]
    split <;> rfl

/-- [SRC ColdRun.cc:215-220] -/
theorem forget_becomes (h : s.Shows cf) (hmu : s.mu = some (t, .forgetting i)) :
    s.Becomes t (cf.forget i) := by
  exact Becomes.of_run hmu (shows_forget h i).done

/-- [SRC ColdRun.cc:262-274] -/
theorem abandon_becomes (h : s.Shows cf) {r : Nat} (hmu : s.mu = some (t, .abandoning r i)) :
    s.Becomes t (cf.abandon i).1 := by
  -- the compare-and-swap, then the waiters, then nothing is left to apply
  refine Becomes.of_run hmu (Becomes.of_run rfl (Becomes.of_run rfl (Shows.done ?_)))
  refine (shows_take ?_ t .abandon i false none []).next _
  by_cases hi : cf.state i = .fetching
  · rw [if_pos hi]
    constructor <;> simp [runLocked, next, leave, h.state, h.waiters, hi]
  · rw [if_neg hi]
    constructor <;> simp [runLocked, next, h.state, h.waiters, hi]

/-- [SRC ColdRun.cc:284-293] The look under the mutex. -/
theorem claimOrWait_becomes (h : s.Shows cf) {r w : Nat} (hmu : s.mu = some (t, .claim r i w)) :
    s.Becomes t (cf.claimOrWait i w).1 := by
  have hstate := h.state
  apply Becomes.of_run hmu
  simp only [runLocked, ColdFill.claimOrWait, ← hstate]
  cases s.state i with
  | absent => exact Shows.done ⟨rfl, h.waiters⟩
  | ready => exact Shows.done ⟨hstate, h.waiters⟩
  | fetching =>
      refine Becomes.of_run rfl (Shows.done ⟨rfl, ?_⟩)
      change (s.waiters ++ [_]).map _ = _
      rw [List.map_append, h.waiters]
      rfl

/-- An entry of `apply` for no slot, or for one that is ready. -/
theorem shows_applyOne_skip (h : s.Shows cf) {nslots : Nat} {wakes : List Wake} {e : SlotEntry}
    (hskip : nslots ≤ e.slot.toNat ∨ s.state e.slot.toNat = .ready) :
    s.Shows (ColdFill.applyOne nslots (cf, wakes) e).1 := by
  rw [h.state] at hskip
  unfold ColdFill.applyOne
  by_cases hn : nslots ≤ e.slot.toNat
  · simp only [if_pos hn]
    exact h
  · simp only [if_neg hn, ColdFill.releaseMem, hskip.resolve_left hn, if_true]
    exact ⟨h.state, h.waiters⟩

/-- An entry that makes its slot ready. -/
theorem shows_applyOne (h : s.Shows cf) {nslots : Nat} {wakes : List Wake} {e : SlotEntry}
    (hn : e.slot.toNat < nslots) (hr : s.state e.slot.toNat ≠ .ready) (t : Nat) :
    ((s.leave t .apply e.slot.toNat .ready).take t .apply e.slot.toNat).Shows
      (ColdFill.applyOne nslots (cf, wakes) e).1 := by
  have hstate := h.state
  rw [hstate] at hr
  have hready : (s.leave t .apply e.slot.toNat .ready).Shows
      { cf with state := Function.update cf.state e.slot.toNat .ready } :=
    ⟨by rw [← hstate]; rfl, h.waiters⟩
  have htake := shows_take hready t .apply e.slot.toNat true none wakes
  unfold ColdFill.applyOne
  simp only [if_neg (Nat.not_le.2 hn), ColdFill.releaseMem, hr, if_false]
  exact ⟨htake.state, htake.waiters⟩

/-- The slots `apply` works on. -/
def appliedSlots (nslots : Nat) (es : List SlotEntry) : List Nat :=
  (es.map fun e => e.slot.toNat).filter fun i => decide (i < nslots)

/-- [SRC ColdRun.cc:223-245] -/
theorem apply_becomes {nslots : Nat} {es : List SlotEntry} {wakes : List Wake} (h : s.Shows cf)
    (hmu : s.mu = some (t, .applying (appliedSlots nslots es))) :
    s.Becomes t (es.foldl (ColdFill.applyOne nslots) (cf, wakes)).1 := by
  induction es generalizing s cf wakes with
  | nil => exact Becomes.of_run hmu h.done
  | cons e es ih =>
      rw [List.foldl_cons]
      by_cases hn : e.slot.toNat < nslots
      · have hslots : appliedSlots nslots (e :: es) = e.slot.toNat :: appliedSlots nslots es := by
          simp [appliedSlots, hn]
        rw [hslots] at hmu
        apply Becomes.of_run hmu
        simp only [runLocked]
        by_cases hr : s.state e.slot.toNat = .ready
        · rw [if_pos hr]
          have hshow := @shows_applyOne_skip _ _ h nslots wakes e (Or.inr hr)
          exact ih ⟨hshow.state, hshow.waiters⟩ rfl
        · rw [if_neg hr]
          have hshow := @shows_applyOne _ _ h nslots wakes e hn hr t
          exact Becomes.of_run rfl (Becomes.of_run rfl (ih (hshow.next _) rfl))
      · have hslots : appliedSlots nslots (e :: es) = appliedSlots nslots es := by
          simp [appliedSlots, hn]
        rw [hslots] at hmu
        exact ih (shows_applyOne_skip h (Or.inl (Nat.not_lt.1 hn))) hmu

/-- Some records are dropped, one by one, and nobody who waits is told. -/
def Drops (cf cf' : ColdFill) : Prop :=
  ∃ drop : List Nat, cf'.state = (drop.foldl ColdFill.forget cf).state ∧ cf'.waiters = cf.waiters

theorem foldl_forget_state (h : cf'.state = cf.state) (drop : List Nat) :
    (drop.foldl ColdFill.forget cf').state = (drop.foldl ColdFill.forget cf).state := by
  induction drop generalizing cf cf' with
  | nil => exact h
  | cons j drop ih => exact ih (by rw [forget_state, forget_state, h])

theorem Drops.none (h : cf'.state = cf.state) (hw : cf'.waiters = cf.waiters) : Drops cf cf' :=
  ⟨[], h, hw⟩

theorem Drops.of_same {cf₁ : ColdFill} (h : Drops cf₁ cf') (hs : cf₁.state = cf.state)
    (hw : cf₁.waiters = cf.waiters) : Drops cf cf' := by
  obtain ⟨drop, hstate, hwaiters⟩ := h
  exact ⟨drop, hstate.trans (foldl_forget_state hs drop), hwaiters.trans hw⟩

/-- What `stage` does to the record drops some transient ones. -/
theorem dropTransient_drops (i b : Nat) (l : List Nat) (cf : ColdFill) :
    Drops cf (ColdFill.dropTransient i b l cf) := by
  induction l generalizing cf with
  | nil => exact .none rfl rfl
  | cons j rest ih =>
      have hforget : Drops cf (ColdFill.dropTransient i b rest (cf.forget j)) := by
        obtain ⟨drop, hstate, hwaiters⟩ := ih (cf.forget j)
        exact ⟨j :: drop, hstate, hwaiters.trans (cf.forget_waiters j)⟩
      unfold ColdFill.dropTransient
      dsimp only
      split
      · -- the record at the front is dropped, or is not a transient one any more
        split
        · exact ih cf
        · split
          · split
            · exact hforget
            · exact ih cf
          · exact ih cf
      · exact .none rfl rfl

/-- The section of `stage` up to its waiters. -/
theorem stageRecord_drops (cf : ColdFill) (rnt : Bool) (i : Nat) (kind : BasketKind)
    (record : Bytes) (fromCache keepIt has : Bool) :
    Drops cf (cf.stageRecord rnt i kind record fromCache keepIt has).1 := by
  -- only past the budgets does it drop records: elsewhere the states are as they were
  unfold ColdFill.stageRecord
  dsimp only
  generalize (!rnt && decide (kind = .original) && has) = inCache
  generalize (if inCache = true then 0 else record.length) = b
  split
  · exact .none rfl rfl
  split
  · exact .none rfl rfl
  split
  · exact .none rfl rfl
  split
  · exact .none rfl rfl
  split <;> exact (dropTransient_drops i b _ _).of_same rfl rfl

/-- The records dropped are forgotten one by one, then the waiters are taken and the state is
stored. -/
theorem staging_becomes {r : Nat} {keep : Bool} {drop : List Nat} (h : s.Shows cf)
    (hmu : s.mu = some (t, .staging r i drop keep))
    (hstate : cf'.state = Function.update (drop.foldl ColdFill.forget cf).state i
      (if keep then .ready else .absent))
    (hwaiters : cf'.waiters = cf.waiters.filter fun w => w.1 != i) : s.Becomes t cf' := by
  induction drop generalizing s cf with
  | cons j drop ih =>
      exact Becomes.of_run hmu
        (ih ((shows_forget h j).next _) rfl hstate (by rw [cf.forget_waiters, hwaiters]))
  | nil =>
      refine Becomes.of_run hmu (Becomes.of_run rfl (Shows.done ⟨?_, ?_⟩))
      · rw [hstate, List.foldl_nil, ← h.state]
        rfl
      · rw [hwaiters]
        exact (shows_take h t .stage i true none []).waiters

/-- [SRC ColdRun.cc:1709-1791] -/
theorem stage_becomes (h : s.Shows cf) (rnt : Bool) (i : Nat) (kind : BasketKind) (record : Bytes)
    (fromCache keepIt has : Bool) (r : Nat) :
    ∃ drop keep, s.mu = some (t, .staging r i drop keep) →
      s.Becomes t (cf.stage rnt i kind record fromCache keepIt has).1 := by
  obtain ⟨drop, hstate, hwaiters⟩ := stageRecord_drops cf rnt i kind record fromCache keepIt has
  refine ⟨drop, (cf.stageRecord rnt i kind record fromCache keepIt has).2, fun hmu => ?_⟩
  refine staging_becomes h hmu ?_ ?_
  · rw [← hstate, ColdFill.stage]
    simp only
    split <;> rfl
  · rw [← hwaiters, ColdFill.stage]
    simp only
    split <;> rfl

end ClaimWorld

end UCache
