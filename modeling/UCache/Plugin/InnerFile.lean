/-
Module: UCache.Plugin.InnerFile
Purpose: The inner file of a handle: who may use it, when a failed open swaps it for a fresh one,
  and when the handle's end destroys it.
Trusted boundary: none
Main exports: FileStatus, Opener, inner_file_leased
-/
import UCache.Lib.Leases
import UCache.Lib.Run

namespace UCache

open Lib

/-! ### The handle's state -/

/-- What became of the one `Open` that an `XrdCl::File` gets: a failed one is terminal. -/
inductive FileStatus where
  | fresh
  | opened
  | failed
deriving DecidableEq, Repr

/-- Who runs `ensureInnerOpen`. -/
inductive Back where
  | setup
  | acquire
deriving DecidableEq, Repr

/-- [SRC UCacheFile.cc:116-193] The open that the application asked for.  The pointers are what was
read from `inner`; the numbers count the attempts. -/
inductive Opener where
  | inFlight (p : Option Nat) (n : Nat)
  | timer (n : Nat)
  /-- `doRetry` found the handle valid. -/
  | checked (n : Nat)
  | swapped (p : Option Nat) (n : Nat)
  | done (ok : Bool)
deriving DecidableEq, Repr

/-- Where a thread that serves the handle stands. -/
inductive Pc where
  | idle
  /-- `ensureEntry` saw that the setup is not done. -/
  | wantSetup
  /-- `inner->Stat` runs, on the pointer that was read. -/
  | stating (p : Option Nat)
  /-- In `ensureInnerOpen`, before `innerOpenMu`. -/
  | wantLazy (b : Back)
  /-- `Open` runs, on the pointer that was read; the number counts the retries. -/
  | opening (b : Back) (p : Option Nat) (n : Nat)
  | lazyFailed (b : Back)
  /-- The failed open saw that nobody uses the inner file. -/
  | lazySwap (b : Back)
  | ready
  /-- In `acquireInner`, before `mu`. -/
  | taking
  /-- In `acquireInnerIfOpen`, before `mu`. -/
  | peeking
  | holding (p : Option Nat)
  /-- The inner file was given back. -/
  | between
  | refused
deriving DecidableEq, Repr

/-- [SRC UCacheFile.h:99-130] The part of `HandleState` around the inner file, with how the handle
was opened.  The objects are numbered in the order of their making, and `gone` lists those
destroyed. -/
structure InnerWorld where
  passthroughOnly : Bool
  cacheOpen : Bool
  cacheOnly : Bool := cacheOpen
  file : Option Nat := some 0
  made : Nat := 1
  status : Nat → FileStatus := fun _ => .fresh
  gone : List Nat := []
  ops : Nat := 0
  valid : Bool := true
  opened : Bool := false
  openOk : Bool := false
  lazyFail : Bool := false
  setupDone : Bool := false
  setupMu : Option Nat := none
  lazyMu : Option Nat := none
  opener : Opener
  pc : Nat → Pc := fun _ => .idle

/-- [SRC UCacheFile.cc:1436-1499] A handle whose open has just been asked for.  On a trusted cache
the origin is not asked. -/
def openInner (passthroughOnly trusted : Bool) : InnerWorld where
  passthroughOnly := passthroughOnly
  cacheOpen := !passthroughOnly && trusted
  opener := if !passthroughOnly && trusted then .done true else .inFlight (some 0) 1

namespace InnerWorld

def setPc (w : InnerWorld) (t : Nat) (pc : Pc) : InnerWorld :=
  { w with pc := Function.update w.pc t pc }

/-- The status of the object behind a pointer. -/
def setStatus (w : InnerWorld) (p : Option Nat) (s : FileStatus) : InnerWorld :=
  match p with
  | some f => { w with status := Function.update w.status f s }
  | none => w

/-- [SRC UCacheFile.cc:676-691] -/
def resetInner (w : InnerWorld) : InnerWorld :=
  { w with
    file := some w.made
    made := w.made + 1
    status := Function.update w.status w.made .fresh
    gone := w.gone ++ w.file.toList }

/-- [SRC UCacheFile.cc:1680-1684, 352-356] `ensureInnerOpen` returns to the setup, which asks the
inner file for its size whatever came of it, or to `acquireInner`. -/
def backPc (w : InnerWorld) (b : Back) (ok : Bool) : Pc :=
  match b with
  | .setup => .stating w.file
  | .acquire => if ok then .taking else .refused

def backTo (w : InnerWorld) (t : Nat) (b : Back) (ok : Bool) : InnerWorld :=
  w.setPc t (w.backPc b ok)

/-- [SRC UCacheFile.cc:159-173] -/
def decideRetryOrForward (w : InnerWorld) (openRetries n : Nat) (retryable : Bool) : InnerWorld :=
  { w with opener := if n ≤ openRetries ∧ retryable then .timer n else .done false }

/-- [SRC UCacheFile.cc:292-309] The lock is `innerOpenMu`; `recent` says that the last failure is
within the cool-down. -/
def ensureInnerOpen (w : InnerWorld) (t : Nat) (b : Back) (recent : Bool) : InnerWorld :=
  if w.opened then w.backTo t b w.openOk
  else if w.lazyFail ∧ recent then w.backTo t b false
  else { w.setPc t (.opening b w.file 1) with lazyMu := some t }

/-- [SRC UCacheFile.cc:310-337] The open ends. -/
def lazyReply (w : InnerWorld) (openRetries t : Nat) (b : Back) (p : Option Nat) (n : Nat)
    (ok retryable : Bool) : InnerWorld :=
  if ok then
    { (w.setStatus p .opened).backTo t b true with
      openOk := true
      opened := true
      lazyFail := false
      lazyMu := none }
  else if n ≤ openRetries ∧ retryable then
    let w' := (w.setStatus p .failed).resetInner
    w'.setPc t (.opening b w'.file (n + 1))
  else { (w.setStatus p .failed).setPc t (.lazyFailed b) with openOk := false, lazyFail := true }

/-- [SRC UCacheFile.cc:1601-1684] The setup, once it has `setupMu`: `found` says that a trusted
entry is there.  It is the one place that withdraws the trust. -/
def setup (w : InnerWorld) (t : Nat) (found : Bool) : InnerWorld :=
  if w.setupDone then w.setPc t .ready
  else if w.cacheOnly then
    if found then { w.setPc t .ready with setupDone := true }
    else { w.setPc t (.wantLazy .setup) with cacheOnly := false, setupMu := some t }
  else { w.setPc t (.stating w.file) with setupMu := some t }

end InnerWorld

/-! ### Its steps -/

inductive InnerAct where
  /-- The open in flight answers. -/
  | openReply (ok retryable : Bool)
  | retryCheck
  | retryReset
  /-- The open of the fresh file is issued, or refused on the spot. -/
  | retryIssue (taken retryable : Bool)
  /-- A request of the application, or its part that runs on the executor. -/
  | ask (t : Nat)
  | setup (t : Nat) (found : Bool)
  | stat (t : Nat)
  | acquire (t : Nat)
  | lazyLock (t : Nat) (recent : Bool)
  | lazyReply (t : Nat) (ok retryable : Bool)
  | lazyCheck (t : Nat)
  | lazyReset (t : Nat)
  | take (t : Nat)
  /-- Read-ahead asks for the inner file. -/
  | peek (t : Nat)
  | takeOpen (t : Nat)
  | release (t : Nat)
  | finish (t : Nat)
  /-- The handle ends: `shutdownInner`, up to its wait. -/
  | shut
  | destroy

namespace InnerWorld

/-- [SRC UCacheFile.cc:124-193] A step of the open. -/
def openStep (w : InnerWorld) (openRetries : Nat) : InnerAct → Option InnerWorld
  | .openReply ok retryable =>
      match w.opener with
      | .inFlight p n =>
          some (if ok then { w.setStatus p .opened with opener := .done true }
            else (w.setStatus p .failed).decideRetryOrForward openRetries n retryable)
      | _ => none
  | .retryCheck =>
      match w.opener with
      | .timer n => some { w with opener := if w.valid then .checked n else .done false }
      | _ => none
  | .retryReset =>
      match w.opener with
      | .checked n =>
          let w' := w.resetInner
          some { w' with opener := .swapped w'.file n }
      | _ => none
  | .retryIssue taken retryable =>
      match w.opener with
      | .swapped p n =>
          some (if taken then { w with opener := .inFlight p (n + 1) }
            else w.decideRetryOrForward openRetries (n + 1) retryable)
      | _ => none
  | _ => none

/-- A step of a request in its setup or its lazy open. -/
def lazyStep (w : InnerWorld) (openRetries : Nat) : InnerAct → Option InnerWorld
  | .ask t =>
      if w.pc t = .idle then
        some (w.setPc t (if w.passthroughOnly ∨ w.setupDone then .ready else .wantSetup))
      else none
  | .setup t found =>
      if w.pc t = .wantSetup ∧ w.setupMu = none then some (w.setup t found) else none
  | .stat t =>
      match w.pc t with
      | .stating _ => some { w.setPc t .ready with setupDone := true, setupMu := none }
      | _ => none
  | .lazyLock t recent =>
      match w.pc t with
      | .wantLazy b => if w.lazyMu = none then some (w.ensureInnerOpen t b recent) else none
      | _ => none
  | .lazyReply t ok retryable =>
      match w.pc t with
      | .opening b p n => some (w.lazyReply openRetries t b p n ok retryable)
      | _ => none
  | .lazyCheck t =>
      match w.pc t with
      | .lazyFailed b =>
          some (if w.ops = 0 then w.setPc t (.lazySwap b)
            else { w.backTo t b false with lazyMu := none })
      | _ => none
  | .lazyReset t =>
      match w.pc t with
      | .lazySwap b => some { w.resetInner.backTo t b false with lazyMu := none }
      | _ => none
  | _ => none

/-- [SRC UCacheFile.cc:352-378, 663-672] A step of a request that uses the inner file, or of the
handle's end. -/
def useStep (w : InnerWorld) : InnerAct → Option InnerWorld
  | .acquire t =>
      if w.pc t = .ready ∨ w.pc t = .between then
        some (w.setPc t (if w.cacheOnly ∧ ¬ w.opened then .wantLazy .acquire else .taking))
      else none
  | .take t =>
      if w.pc t = .taking then
        some (if w.valid then { w.setPc t (.holding w.file) with ops := w.ops + 1 }
          else w.setPc t .refused)
      else none
  | .peek t =>
      if w.pc t = .idle ∧ w.setupDone then
        some (if w.cacheOnly ∧ ¬ w.opened then w else w.setPc t .peeking)
      else none
  | .takeOpen t =>
      if w.pc t = .peeking then
        some (if w.valid ∧ w.file.map w.status = some .opened then
            { w.setPc t (.holding w.file) with ops := w.ops + 1 }
          else w.setPc t .refused)
      else none
  | .release t =>
      match w.pc t with
      | .holding _ => some { w.setPc t .between with ops := w.ops - 1 }
      | _ => none
  | .finish t =>
      if w.pc t = .ready ∨ w.pc t = .between ∨ w.pc t = .refused then some (w.setPc t .idle)
      else none
  | .shut => if w.valid then some { w with valid := false } else none
  | .destroy =>
      if w.valid = false ∧ w.ops = 0 then
        some { w with file := none, gone := w.gone ++ w.file.toList }
      else none
  | _ => none

def step (openRetries : Nat) (w : InnerWorld) (act : InnerAct) : Option InnerWorld :=
  w.openStep openRetries act <|> w.lazyStep openRetries act <|> w.useStep act

end InnerWorld

/-! ### What is safe -/

/-- The pointer a thread uses without having been counted. -/
def Pc.raw : Pc → Option (Option Nat)
  | .stating p => some p
  | .opening _ p _ => some p
  | _ => none

/-- The object a thread has been lent. -/
def Pc.lent : Pc → Option Nat
  | .holding p => p
  | _ => none

/-- The open's own pointer. -/
def Opener.raw : Opener → Option (Option Nat)
  | .inFlight p _ => some p
  | .swapped p _ => some p
  | _ => none

/-- Asked nothing, or past its setup and about to take the inner file or past any lazy open: the handle
may end around it.  A request that is set up and may yet open (`.ready`) is not calm. -/
def Pc.Calm : Pc → Prop
  | .idle | .taking | .peeking | .holding _ | .between | .refused => True
  | _ => False

/-- What the application owes: no request before its open succeeded or after the handle's end began,
and no end unless every request is calm and the open waits for its retry timer or is over. -/
def InnerLegal (w : InnerWorld) : InnerAct → Prop
  | .ask _ => w.opener = .done true ∧ w.valid = true
  | .shut => (∀ t, (w.pc t).Calm) ∧ match w.opener with
      | .timer _ | .done _ => True
      | _ => False
  | _ => True

/-- Nothing uses an object that is not there, and a handle that still trusts its cache, or never
did, lends out only what was opened. -/
structure InnerSafe (w : InnerWorld) : Prop where
  counted : Total (Leases.weight fun t => (w.pc t).lent) w.ops
  lent : ∀ t p, w.pc t = .holding p → ∃ f, p = some f ∧ w.file = some f
  raw : ∀ t p, (w.pc t).raw = some p → ∃ f, p = some f ∧ w.file = some f
  openRaw : ∀ p, w.opener.raw = some p → ∃ f, p = some f ∧ w.file = some f
  present : w.valid = true → w.file ≠ none
  gone : ∀ f, w.file = some f → f ∉ w.gone
  once : w.gone.Nodup
  opened : w.cacheOnly = w.cacheOpen → ∀ t f, w.pc t = .holding (some f) → w.status f = .opened

/-! ### What holds between the steps -/

/-- The setup is behind, or there is none. -/
def InnerWorld.Past (w : InnerWorld) : Prop := w.passthroughOnly = true ∨ w.setupDone = true

/-- The origin's open is behind, or was not left to a request. -/
def InnerWorld.Open (w : InnerWorld) : Prop := w.cacheOnly = false ∨ w.opened = true

/-- `setupMu` is in the thread's hands. -/
def InnerWorld.InSetup (w : InnerWorld) (t : Nat) : Prop :=
  w.passthroughOnly = false ∧ w.setupMu = some t ∧ w.setupDone = false

def BackOk (w : InnerWorld) (t : Nat) : Back → Prop
  | .setup => w.InSetup t ∧ w.cacheOpen = true
  | .acquire => w.setupDone = true ∧ w.cacheOnly = true

/-- `innerOpenMu` is in the thread's hands. -/
def InnerWorld.InLazy (w : InnerWorld) (t : Nat) (b : Back) : Prop :=
  w.valid = true ∧ w.lazyMu = some t ∧ w.opened = false ∧ BackOk w t b

/-- What is known where a thread stands. -/
def PcOk (w : InnerWorld) (t : Nat) : Pc → Prop
  | .idle | .refused => True
  | .wantSetup => w.valid = true ∧ w.passthroughOnly = false
  | .stating p => w.valid = true ∧ w.InSetup t ∧ p = w.file
  | .wantLazy b => w.valid = true ∧ BackOk w t b
  | .opening b p _ => w.InLazy t b ∧ p = w.file
  | .lazyFailed b | .lazySwap b => w.InLazy t b
  | .ready => w.valid = true ∧ w.Past
  | .taking | .peeking | .between => w.Past ∧ w.Open
  | .holding p => w.Past ∧ w.Open ∧ p ≠ none

/-- Nobody has asked for anything yet. -/
structure InnerWorld.Unasked (w : InnerWorld) : Prop where
  idle : ∀ t, w.pc t = .idle
  own : w.cacheOpen = false
  undone : w.setupDone = false

def OpenerOk (w : InnerWorld) : Opener → Prop
  | .inFlight p _ | .swapped p _ => w.valid = true ∧ p = w.file ∧ w.Unasked
  | .checked _ => w.valid = true ∧ w.Unasked
  | .timer _ => w.Unasked
  | .done ok => (ok = false → w.Unasked) ∧
      (w.cacheOpen = false → ok = true → ∀ f, w.file = some f → w.status f = .opened)

/-- The inner file as a thing that is lent. -/
def InnerWorld.leases (w : InnerWorld) : Leases Nat where
  thing := w.file
  made := w.made
  held := fun t => (w.pc t).lent
  count := w.ops
  lending := w.valid
  gone := w.gone

structure InnerOk (w : InnerWorld) : Prop where
  leased : w.leases.Safe
  present : w.valid = true → w.file ≠ none
  trust : w.cacheOnly = true → w.cacheOpen = true ∧ w.passthroughOnly = false
  latched : w.opened = true → w.cacheOpen = true ∧ ∀ f, w.file = some f → w.status f = .opened
  opener : OpenerOk w w.opener
  threads : ∀ t, PcOk w t (w.pc t)

variable {w w' : InnerWorld} {t : Nat} {pc pc' : Pc} {b : Back}

/-- What another thread's step may do, as this one sees it. -/
structure OthersKeep (w w' : InnerWorld) (t : Nat) : Prop where
  valid : w'.valid = w.valid
  alone : w'.passthroughOnly = w.passthroughOnly
  own : w'.cacheOpen = w.cacheOpen
  past : w.setupDone = true → w'.setupDone = true
  trust : w.setupDone = true → w'.cacheOnly = w.cacheOnly
  opens : w.Open → w'.Open
  setup : w.InSetup t → w'.InSetup t ∧ w'.file = w.file
  lazily : w.valid = true → w.lazyMu = some t → w.opened = false →
    w'.lazyMu = some t ∧ w'.opened = false ∧ w'.file = w.file

theorem OthersKeep.back (hc : OthersKeep w w' t) (h : BackOk w t b) : BackOk w' t b := by
  cases b with
  | setup => exact ⟨(hc.setup h.1).1, hc.own.trans h.2⟩
  | acquire => exact ⟨hc.past h.1, (hc.trust h.1).trans h.2⟩

theorem OthersKeep.inLazy (hc : OthersKeep w w' t) (h : w.InLazy t b) :
    w'.InLazy t b ∧ w'.file = w.file := by
  obtain ⟨hvalid, hheld, hclosed, hback⟩ := h
  obtain ⟨hheld', hclosed', hfile⟩ := hc.lazily hvalid hheld hclosed
  exact ⟨⟨hc.valid.trans hvalid, hheld', hclosed', hc.back hback⟩, hfile⟩

theorem OthersKeep.gone (hc : OthersKeep w w' t) (h : w.Past) : w'.Past :=
  h.elim (fun hpass => .inl (hc.alone.trans hpass)) fun hdone => .inr (hc.past hdone)

theorem PcOk.carry (hc : OthersKeep w w' t) (h : PcOk w t pc) : PcOk w' t pc := by
  cases pc with
  | idle | refused => exact trivial
  | wantSetup => exact ⟨hc.valid.trans h.1, hc.alone.trans h.2⟩
  | stating p =>
      obtain ⟨hvalid, hin, hp⟩ := h
      obtain ⟨hin', hfile⟩ := hc.setup hin
      exact ⟨hc.valid.trans hvalid, hin', hp.trans hfile.symm⟩
  | wantLazy b => exact ⟨hc.valid.trans h.1, hc.back h.2⟩
  | opening b p n =>
      obtain ⟨hin, hfile⟩ := hc.inLazy h.1
      exact ⟨hin, h.2.trans hfile.symm⟩
  | lazyFailed b | lazySwap b => exact (hc.inLazy h).1
  | ready => exact ⟨hc.valid.trans h.1, hc.gone h.2⟩
  | taking | peeking | between => exact ⟨hc.gone h.1, hc.opens h.2⟩
  | holding p => exact ⟨hc.gone h.1, hc.opens h.2.1, h.2.2⟩

/-- A thread that has asked for something came after the open. -/
theorem InnerOk.asked (h : InnerOk w) (hsome : w.setupDone = true ∨ w.pc t ≠ .idle) :
    w.opener = .done true := by
  have hbusy : ¬ w.Unasked := by
    rintro ⟨hidle, -, hundone⟩
    rcases hsome with hdone | hpc
    · rw [hundone] at hdone
      cases hdone
    · exact hpc (hidle t)
  have hop := h.opener
  cases ho : w.opener with
  | inFlight p n =>
      rw [ho] at hop
      exact absurd hop.2.2 hbusy
  | swapped p n =>
      rw [ho] at hop
      exact absurd hop.2.2 hbusy
  | checked n =>
      rw [ho] at hop
      exact absurd hop.2 hbusy
  | timer n =>
      rw [ho] at hop
      exact absurd hop hbusy
  | done ok =>
      rw [ho] at hop
      cases ok with
      | true => rfl
      | false => exact absurd (hop.1 rfl) hbusy

/-- What is known of a thread that has asked for something. -/
theorem InnerOk.stands (h : InnerOk w) (hpc : w.pc t = pc) (hbusy : pc ≠ .idle) :
    w.opener = .done true ∧ PcOk w t pc :=
  ⟨h.asked (.inr fun hidle => hbusy (hpc.symm.trans hidle)), hpc ▸ h.threads t⟩

/-- A step that leaves the guards as they are. -/
theorem OthersKeep.plain (pcs : Nat → Pc) (ops : Nat) (status : Nat → FileStatus) :
    OthersKeep w { w with pc := pcs, ops := ops, status := status } t where
  valid := rfl
  alone := rfl
  own := rfl
  past := id
  trust := fun _ => rfl
  opens := id
  setup := fun h => ⟨h, rfl⟩
  lazily := fun _ hmu hclosed => ⟨hmu, hclosed, rfl⟩

theorem threads_setPc (h : ∀ t, PcOk w t (w.pc t)) (hpc : w'.pc = Function.update w.pc t pc')
    (hnew : PcOk w' t pc') (hothers : ∀ t', t' ≠ t → OthersKeep w w' t') :
    ∀ t', PcOk w' t' (w'.pc t') := by
  intro t'
  rw [hpc]
  by_cases ht : t' = t
  · subst ht
    rw [Function.update_self]
    exact hnew
  · rw [Function.update_of_ne ht]
    exact (h t').carry (hothers t' ht)

/-- A thread that has nothing before and after leaves the lease as it is. -/
theorem held_setPc (hpc : w.pc t = pc) (hold : pc.lent = none) (hnew : pc'.lent = none) :
    (fun t' => (Function.update w.pc t pc' t').lent) = fun t' => (w.pc t').lent := by
  funext t'
  by_cases ht : t' = t
  · subst ht
    rw [Function.update_self, hpc, hold, hnew]
  · rw [Function.update_of_ne ht]

/-- The lease is as it was. -/
theorem InnerOk.leased_same (h : InnerOk w) (hpc : w.pc t = pc)
    (hpc' : w'.pc = Function.update w.pc t pc') (hold : pc.lent = none) (hlent : pc'.lent = none)
    (hfile : w'.file = w.file) (hmade : w'.made = w.made) (hops : w'.ops = w.ops)
    (hvalid : w'.valid = w.valid) (hgone : w'.gone = w.gone) : w'.leases.Safe := by
  have hsame : w'.leases = w.leases := by
    simp only [InnerWorld.leases, hpc', held_setPc hpc hold hlent, hfile, hmade, hops,
      hvalid, hgone]
  rw [hsame]
  exact h.leased

/-- A step of a thread that leaves the lease to its caller. -/
theorem InnerOk.moved (h : InnerOk w) (t : Nat) (pc' : Pc) (hopener : w.opener = .done true)
    (hopener' : w'.opener = w.opener) (hpc : w'.pc = Function.update w.pc t pc')
    (hleased : w'.leases.Safe) (hpresent : w'.valid = true → w'.file ≠ none)
    (htrust : w'.cacheOnly = true → w'.cacheOpen = true ∧ w'.passthroughOnly = false)
    (hlatched : w'.opened = true →
      w'.cacheOpen = true ∧ ∀ f, w'.file = some f → w'.status f = .opened)
    (hopened : w'.cacheOpen = false →
      w.cacheOpen = false ∧ w'.file = w.file ∧ w'.status = w.status)
    (hnew : PcOk w' t pc') (hothers : ∀ t', t' ≠ t → OthersKeep w w' t') : InnerOk w' where
  leased := hleased
  present := hpresent
  trust := htrust
  latched := hlatched
  opener := by
    have hop := h.opener
    rw [hopener] at hop
    rw [hopener', hopener]
    constructor
    · intro hno
      cases hno
    · intro hown hyes f hf
      obtain ⟨hown', hfile, hstatus⟩ := hopened hown
      rw [hstatus]
      exact hop.2 hown' hyes f (hfile ▸ hf)
  threads := threads_setPc h.threads hpc hnew hothers

/-- A thread that goes on without a lease and sets guards. -/
theorem InnerOk.guarded (h : InnerOk w) (hpc : w.pc t = pc) (hopener : w.opener = .done true)
    (hold : pc.lent = none) (hlent : pc'.lent = none) {done cacheOnly : Bool}
    {setupMu lazyMu : Option Nat} (hw : w' = { w.setPc t pc' with
      setupDone := done, cacheOnly := cacheOnly, setupMu := setupMu, lazyMu := lazyMu })
    (hcache : cacheOnly = true → w.cacheOnly = true) (hnew : PcOk w' t pc')
    (hothers : ∀ t', t' ≠ t → OthersKeep w w' t') : InnerOk w' := by
  subst hw
  refine h.moved t pc' hopener ?_ ?_ ?_ h.present (fun hyes => h.trust (hcache hyes)) h.latched
    (fun hown => ⟨hown, rfl, rfl⟩) hnew hothers
  · rfl
  · rfl
  · exact h.leased_same hpc rfl hold hlent rfl rfl rfl rfl rfl

/-- A thread that goes on without a lease, on guards that stay. -/
theorem InnerOk.quiet (h : InnerOk w) (hpc : w.pc t = pc) (hopener : w.opener = .done true)
    (hold : pc.lent = none) (hlent : pc'.lent = none) (hnew : PcOk (w.setPc t pc') t pc') :
    InnerOk (w.setPc t pc') :=
  h.guarded hpc hopener hold hlent rfl id hnew fun _ _ => OthersKeep.plain _ _ _

/-! ### The setup and the lazy open -/

/-- Another thread than the one in the setup is not in it. -/
theorem not_inSetup {t' : Nat} (h : w.InSetup t) (ht : t' ≠ t) : ¬ w.InSetup t' := fun h' =>
  ht (Option.some.inj (h'.2.1.symm.trans h.2.1))

/-- The setup ends. -/
theorem setupDone_keeps (h : InnerOk w) (hpc : w.pc t = pc) (hopener : w.opener = .done true)
    (hold : pc.lent = none) (hvalid : w.valid = true) (hmine : ∀ t', t' ≠ t → ¬ w.InSetup t')
    (mu : Option Nat) : InnerOk { w.setPc t .ready with setupDone := true, setupMu := mu } :=
  h.guarded hpc hopener hold rfl rfl id ⟨hvalid, .inr rfl⟩ fun t' ht =>
    ⟨rfl, rfl, rfl, fun _ => rfl, fun _ => rfl, id, fun hin => absurd hin (hmine t' ht),
      fun _ hmu hclosed => ⟨hmu, hclosed, rfl⟩⟩

/-- The one that asked first goes into the setup. -/
theorem setup_keeps (h : InnerOk w) (hpc : w.pc t = .wantSetup) (hfree : w.setupMu = none)
    (found : Bool) : InnerOk (w.setup t found) := by
  obtain ⟨hopener, hvalid, halone⟩ := h.stands hpc Pc.noConfusion
  have hmine : ∀ t', t' ≠ t → ¬ w.InSetup t' := by
    rintro t' - ⟨-, hmu, -⟩
    rw [hfree] at hmu
    cases hmu
  unfold InnerWorld.setup
  by_cases hdone : w.setupDone = true
  · rw [if_pos hdone]
    exact h.quiet hpc hopener rfl rfl ⟨hvalid, .inr hdone⟩
  rw [if_neg hdone]
  have hundone : w.setupDone = false := Bool.eq_false_iff.2 hdone
  by_cases hcache : w.cacheOnly = true
  · rw [if_pos hcache]
    cases found with
    | true =>
        rw [if_pos rfl]
        exact setupDone_keeps h hpc hopener rfl hvalid hmine w.setupMu
    | false =>
        -- the trust is withdrawn before anyone was lent the inner file
        rw [if_neg Bool.false_ne_true]
        refine h.guarded hpc hopener rfl rfl rfl (fun _ => hcache)
          ⟨hvalid, ⟨halone, rfl, hundone⟩, (h.trust hcache).1⟩ fun t' ht =>
          ⟨rfl, rfl, rfl, id, fun hyes => ?_, fun _ => .inl rfl,
            fun hin => absurd hin (hmine t' ht), fun _ hmu hclosed => ⟨hmu, hclosed, rfl⟩⟩
        exact absurd hyes hdone
  · rw [if_neg hcache]
    exact h.guarded hpc hopener rfl rfl rfl id ⟨hvalid, ⟨halone, rfl, hundone⟩, rfl⟩
      fun t' ht => ⟨rfl, rfl, rfl, id, fun _ => rfl, id, fun hin => absurd hin (hmine t' ht),
        fun _ hmu hclosed => ⟨hmu, hclosed, rfl⟩⟩

theorem lent_backPc (ok : Bool) : (w.backPc b ok).lent = none := by
  cases b with
  | setup => rfl
  | acquire => cases ok <;> rfl

/-- Back in the setup, or past the lazy open. -/
theorem backPc_ok {ok : Bool} (hvalid : w.valid = true) (hback : BackOk w t b)
    (hfile : w'.file = w.file) (hopen : ok = true → w.Open) : PcOk w t (w'.backPc b ok) := by
  cases b with
  | setup => exact ⟨hvalid, hback.1, hfile⟩
  | acquire =>
      cases ok with
      | true => exact ⟨.inr hback.1, hopen rfl⟩
      | false => exact trivial

theorem BackOk.trusted (h : InnerOk w) (hback : BackOk w t b) : w.cacheOpen = true := by
  cases b with
  | setup => exact hback.2
  | acquire => exact (h.trust hback.2).1

/-- A trusted handle's open was the cache's: its first lazy open finds nobody with a lease. -/
theorem lazy_idle (h : InnerOk w) (hclosed : w.opened = false) (hback : BackOk w t b) :
    w.ops = 0 := by
  apply h.leased.zero
  intro t'
  show (w.pc t').lent = none
  cases hpc : w.pc t' with
  | holding p =>
      have hthread := h.threads t'
      rw [hpc] at hthread
      obtain ⟨hpast, hopen, -⟩ := hthread
      cases b with
      | setup =>
          obtain ⟨⟨halone, -, hundone⟩, -⟩ := hback
          rcases hpast with hpass | hdone
          · rw [halone] at hpass
            cases hpass
          · rw [hundone] at hdone
            cases hdone
      | acquire =>
          rcases hopen with hno | hyes
          · rw [hback.2] at hno
            cases hno
          · rw [hclosed] at hyes
            cases hyes
  | _ => rfl

/-- Another thread's guards, around a lazy open that swaps the file. -/
theorem carries_lazy {t' : Nat} (ht : t' ≠ t) (hin : w.InLazy t b)
    (hvalid : w'.valid = w.valid) (halone : w'.passthroughOnly = w.passthroughOnly)
    (hown : w'.cacheOpen = w.cacheOpen) (hcache : w'.cacheOnly = w.cacheOnly)
    (hdone : w'.setupDone = w.setupDone)
    (hopened : w.opened = true → w'.opened = true) : OthersKeep w w' t' where
  valid := hvalid
  alone := halone
  own := hown
  past := fun h => hdone.trans h
  trust := fun _ => hcache
  opens := fun h => h.elim (fun hno => .inl (hcache.trans hno)) fun hyes => .inr (hopened hyes)
  setup := by
    intro hin'
    obtain ⟨-, -, -, hback⟩ := hin
    cases b with
    | setup => exact absurd hin' (not_inSetup hback.1 ht)
    | acquire =>
        have hundone := hin'.2.2
        rw [hback.1] at hundone
        cases hundone
  lazily := by
    intro _ hmu' _
    exact absurd (Option.some.inj (hmu'.symm.trans hin.2.1)) ht

/-- A failed file is swapped for a fresh one, with nobody around. -/
theorem leased_reset (h : InnerOk w) (hzero : w.ops = 0) (hpc : w.pc t = pc)
    (hold : pc.lent = none) (hlent : pc'.lent = none) (hpc' : w'.pc = Function.update w.pc t pc')
    (hfile : w'.file = some w.made) (hmade : w'.made = w.made + 1) (hops : w'.ops = w.ops)
    (hvalid : w'.valid = w.valid) (hgone : w'.gone = w.gone ++ w.file.toList) :
    w'.leases.Safe := by
  have hnext := h.leased.replace hzero
  simp only [InnerWorld.leases] at hnext
  simp only [InnerWorld.leases, hpc', held_setPc hpc hold hlent, hfile, hmade, hops, hvalid, hgone]
  exact hnext

theorem ensureInnerOpen_keeps (h : InnerOk w) (hpc : w.pc t = .wantLazy b)
    (hfree : w.lazyMu = none) (recent : Bool) : InnerOk (w.ensureInnerOpen t b recent) := by
  obtain ⟨hopener, hvalid, hback⟩ := h.stands hpc Pc.noConfusion
  unfold InnerWorld.ensureInnerOpen
  by_cases hopened : w.opened = true
  · rw [if_pos hopened]
    exact h.quiet hpc hopener rfl (lent_backPc _)
      (backPc_ok hvalid hback rfl fun _ => .inr hopened)
  rw [if_neg hopened]
  by_cases hrecent : w.lazyFail ∧ recent
  · rw [if_pos hrecent]
    exact h.quiet hpc hopener rfl (lent_backPc _)
      (backPc_ok hvalid hback rfl fun hno => Bool.noConfusion hno)
  · rw [if_neg hrecent]
    refine h.guarded hpc hopener rfl rfl rfl id
      ⟨⟨hvalid, rfl, Bool.eq_false_iff.2 hopened, hback⟩, rfl⟩ fun t' ht =>
      ⟨rfl, rfl, rfl, id, fun _ => rfl, id, fun hin => ⟨hin, rfl⟩, fun _ hmu _ => ?_⟩
    rw [hfree] at hmu
    cases hmu

theorem lazyReply_keeps (h : InnerOk w) {p : Option Nat} {n : Nat}
    (hpc : w.pc t = .opening b p n) (openRetries : Nat) (ok retryable : Bool) :
    InnerOk (w.lazyReply openRetries t b p n ok retryable) := by
  obtain ⟨hopener, hin, rfl⟩ := h.stands hpc Pc.noConfusion
  obtain ⟨hvalid, -, hclosed, hback⟩ := id hin
  have htrusted := BackOk.trusted h hback
  obtain ⟨f, hf⟩ := Option.ne_none_iff_exists'.1 (h.present hvalid)
  have hnot : w.opened ≠ true := Bool.eq_false_iff.1 hclosed
  unfold InnerWorld.lazyReply
  rw [hf]
  by_cases hok : ok = true
  · rw [if_pos hok]
    refine h.moved t (w.backPc b true) hopener ?_ ?_ ?_ h.present h.trust
      (fun _ => ⟨htrusted, fun g hg => ?_⟩)
      (fun hown => Bool.noConfusion (htrusted.symm.trans hown))
      (backPc_ok hvalid hback rfl fun _ => .inr rfl)
      fun t' ht => carries_lazy ht hin rfl rfl rfl rfl rfl fun _ => rfl
    · rfl
    · rfl
    · exact h.leased_same hpc rfl rfl (lent_backPc _) rfl rfl rfl rfl rfl
    · obtain rfl : g = f := Option.some.inj (hg.symm.trans hf)
      exact Function.update_self _ _ _
  rw [if_neg hok]
  by_cases hagain : n ≤ openRetries ∧ retryable
  · rw [if_pos hagain]
    refine h.moved t (.opening b (some w.made) (n + 1)) hopener ?_ ?_ ?_ (fun _ hnone => ?_)
      h.trust (fun hyes => absurd hyes hnot)
      (fun hown => Bool.noConfusion (htrusted.symm.trans hown)) ⟨hin, rfl⟩
      fun t' ht => carries_lazy ht hin rfl rfl rfl rfl rfl id
    · rfl
    · rfl
    · exact leased_reset h (lazy_idle h hclosed hback) hpc rfl rfl rfl rfl rfl rfl rfl rfl
    · cases hnone
  · rw [if_neg hagain]
    refine h.moved t (.lazyFailed b) hopener ?_ ?_ ?_ h.present h.trust
      (fun hyes => absurd hyes hnot) (fun hown => Bool.noConfusion (htrusted.symm.trans hown)) hin
      fun t' ht => carries_lazy ht hin rfl rfl rfl rfl rfl id
    · rfl
    · rfl
    · exact h.leased_same hpc rfl rfl rfl rfl rfl rfl rfl rfl

/-- The lazy open gives up. -/
theorem lazyCheck_keeps (h : InnerOk w) (hpc : w.pc t = .lazyFailed b) :
    InnerOk (if w.ops = 0 then w.setPc t (.lazySwap b)
      else { w.backTo t b false with lazyMu := none }) := by
  obtain ⟨hopener, hin⟩ := h.stands hpc Pc.noConfusion
  obtain ⟨-, -, hclosed, hback⟩ := id hin
  rw [if_pos (lazy_idle h hclosed hback)]
  exact h.quiet hpc hopener rfl rfl hin

theorem lazyReset_keeps (h : InnerOk w) (hpc : w.pc t = .lazySwap b) :
    InnerOk { w.resetInner.backTo t b false with lazyMu := none } := by
  obtain ⟨hopener, hin⟩ := h.stands hpc Pc.noConfusion
  replace hin : w.InLazy t b := hin
  obtain ⟨hvalid, -, hclosed, hback⟩ := id hin
  have htrusted := BackOk.trusted h hback
  refine h.moved t (w.resetInner.backPc b false) hopener ?_ ?_ ?_ (fun _ hnone => ?_) h.trust
    (fun hyes => absurd hyes (Bool.eq_false_iff.1 hclosed))
    (fun hown => Bool.noConfusion (htrusted.symm.trans hown)) ?_
    fun t' ht => carries_lazy ht hin rfl rfl rfl rfl rfl id
  · rfl
  · rfl
  · exact leased_reset h (lazy_idle h hclosed hback) hpc rfl (lent_backPc _) rfl rfl rfl rfl rfl
      rfl
  · cases hnone
  · cases b with
    | setup => exact ⟨hvalid, hback.1, rfl⟩
    | acquire => exact trivial

/-! ### Uses of the inner file -/

/-- The inner file goes to one more holder. -/
theorem lend_keeps (h : InnerOk w) (hpc : w.pc t = pc) (hopener : w.opener = .done true)
    (hold : pc.lent = none) (hvalid : w.valid = true) (hpast : w.Past) (hopen : w.Open) :
    InnerOk { w.setPc t (.holding w.file) with ops := w.ops + 1 } := by
  obtain ⟨f, hf⟩ := Option.ne_none_iff_exists'.1 (h.present hvalid)
  refine h.moved t (.holding w.file) hopener ?_ ?_ ?_ h.present h.trust h.latched
    (fun hown => ⟨hown, rfl, rfl⟩) ⟨hpast, hopen, h.present hvalid⟩
    fun _ _ => OthersKeep.plain _ _ _
  · rfl
  · rfl
  · have hnext := h.leased.lend (i := t) hf (by rw [← hold, ← hpc]; rfl)
    have hheld : (fun t' => ((w.setPc t (.holding w.file)).pc t').lent) =
        Function.update (fun t' => (w.pc t').lent) t (some f) := by
      funext t'
      by_cases ht : t' = t
      · subst ht
        simp only [InnerWorld.setPc, Function.update_self]
        exact hf
      · simp only [InnerWorld.setPc, Function.update_of_ne ht]
    simp only [InnerWorld.leases, hheld]
    exact hnext

theorem take_keeps (h : InnerOk w) (hpc : w.pc t = .taking) :
    InnerOk (if w.valid then { w.setPc t (.holding w.file) with ops := w.ops + 1 }
      else w.setPc t .refused) := by
  obtain ⟨hopener, hthread⟩ := h.stands hpc Pc.noConfusion
  by_cases hvalid : w.valid = true
  · rw [if_pos hvalid]
    exact lend_keeps h hpc hopener rfl hvalid hthread.1 hthread.2
  · rw [if_neg hvalid]
    exact h.quiet hpc hopener rfl rfl trivial

theorem takeOpen_keeps (h : InnerOk w) (hpc : w.pc t = .peeking) :
    InnerOk (if w.valid ∧ w.file.map w.status = some .opened then
        { w.setPc t (.holding w.file) with ops := w.ops + 1 }
      else w.setPc t .refused) := by
  obtain ⟨hopener, hthread⟩ := h.stands hpc Pc.noConfusion
  by_cases hvalid : w.valid ∧ w.file.map w.status = some .opened
  · rw [if_pos hvalid]
    exact lend_keeps h hpc hopener rfl hvalid.1 hthread.1 hthread.2
  · rw [if_neg hvalid]
    exact h.quiet hpc hopener rfl rfl trivial

theorem release_keeps (h : InnerOk w) {p : Option Nat} (hpc : w.pc t = .holding p) :
    InnerOk { w.setPc t .between with ops := w.ops - 1 } := by
  obtain ⟨hopener, hpast, hopen, hp⟩ := h.stands hpc Pc.noConfusion
  obtain ⟨f, rfl⟩ := Option.ne_none_iff_exists'.1 hp
  refine h.moved t .between hopener ?_ ?_ ?_ h.present h.trust h.latched
    (fun hown => ⟨hown, rfl, rfl⟩) ⟨hpast, hopen⟩ fun _ _ => OthersKeep.plain _ _ _
  · rfl
  · rfl
  · have hmine : w.leases.held t = some f := by
      show (w.pc t).lent = some f
      rw [hpc]
      rfl
    have hnext := h.leased.back hmine
    have hheld : (fun t' => ((w.setPc t .between).pc t').lent) =
        Function.update (fun t' => (w.pc t').lent) t none := by
      funext t'
      by_cases ht : t' = t
      · subst ht
        simp only [InnerWorld.setPc, Function.update_self]
        rfl
      · simp only [InnerWorld.setPc, Function.update_of_ne ht]
    simp only [InnerWorld.leases, hheld]
    exact hnext

/-! ### The open, and the end -/

/-- A step of the open, of which no thread has seen anything. -/
theorem InnerOk.unasked (h : InnerOk w) (hunasked : w.Unasked) (hpc : w'.pc = w.pc)
    (hcache : w'.cacheOnly = w.cacheOnly) (hopened : w'.opened = w.opened)
    (hleased : w'.leases.Safe) (hpresent : w'.valid = true → w'.file ≠ none)
    (hopener : OpenerOk w' w'.opener) : InnerOk w' where
  leased := hleased
  present := hpresent
  trust := by
    intro hyes
    rw [hcache] at hyes
    have htrusted := (h.trust hyes).1
    rw [hunasked.own] at htrusted
    cases htrusted
  latched := by
    intro hyes
    rw [hopened] at hyes
    have htrusted := (h.latched hyes).1
    rw [hunasked.own] at htrusted
    cases htrusted
  opener := hopener
  threads := by
    intro t
    rw [hpc, hunasked.idle t]
    trivial

theorem decide_keeps (h : InnerOk w) (hunasked : w.Unasked) (openRetries n : Nat)
    (retryable : Bool) (status : Nat → FileStatus) :
    InnerOk ({ w with status := status }.decideRetryOrForward openRetries n retryable) := by
  refine h.unasked hunasked rfl rfl rfl h.leased h.present ?_
  show OpenerOk _ (if n ≤ openRetries ∧ retryable then .timer n else .done false)
  by_cases hagain : n ≤ openRetries ∧ retryable
  · rw [if_pos hagain]
    exact { hunasked with }
  · rw [if_neg hagain]
    exact ⟨fun _ => { hunasked with }, fun _ hno => Bool.noConfusion hno⟩

theorem openReply_keeps (h : InnerOk w) {p : Option Nat} {n : Nat}
    (ho : w.opener = .inFlight p n) (openRetries : Nat) (ok retryable : Bool) :
    InnerOk (if ok then { w.setStatus p .opened with opener := .done true }
      else (w.setStatus p .failed).decideRetryOrForward openRetries n retryable) := by
  have hop := h.opener
  rw [ho] at hop
  obtain ⟨hvalid, rfl, hunasked⟩ := hop
  obtain ⟨f, hf⟩ := Option.ne_none_iff_exists'.1 (h.present hvalid)
  rw [hf]
  by_cases hok : ok = true
  · rw [if_pos hok]
    refine h.unasked hunasked rfl rfl rfl h.leased h.present ?_
    refine ⟨fun hno => Bool.noConfusion hno, fun _ _ g hg => ?_⟩
    obtain rfl : g = f := Option.some.inj (hg.symm.trans hf)
    exact Function.update_self _ _ _
  · rw [if_neg hok]
    exact decide_keeps h hunasked openRetries n retryable _

theorem retryCheck_keeps (h : InnerOk w) {n : Nat} (ho : w.opener = .timer n) :
    InnerOk { w with opener := if w.valid then .checked n else .done false } := by
  have hunasked := h.opener
  rw [ho] at hunasked
  replace hunasked : w.Unasked := hunasked
  refine h.unasked hunasked rfl rfl rfl h.leased h.present ?_
  show OpenerOk _ (if w.valid then .checked n else .done false)
  by_cases hvalid : w.valid = true
  · rw [if_pos hvalid]
    exact ⟨hvalid, { hunasked with }⟩
  · rw [if_neg hvalid]
    exact ⟨fun _ => { hunasked with },
      fun _ hno => Bool.noConfusion hno⟩

theorem retryReset_keeps (h : InnerOk w) {n : Nat} (ho : w.opener = .checked n) :
    InnerOk { w.resetInner with opener := .swapped w.resetInner.file n } := by
  have hop := h.opener
  rw [ho] at hop
  obtain ⟨hvalid, hunasked⟩ := hop
  have hzero : w.ops = 0 := by
    apply h.leased.zero
    intro t
    show (w.pc t).lent = none
    rw [hunasked.idle t]
    rfl
  refine h.unasked hunasked rfl rfl rfl (h.leased.replace hzero) ?_ ?_
  · intro _ hnone
    cases hnone
  · exact ⟨hvalid, rfl, { hunasked with }⟩

theorem retryIssue_keeps (h : InnerOk w) {p : Option Nat} {n : Nat}
    (ho : w.opener = .swapped p n) (openRetries : Nat) (taken retryable : Bool) :
    InnerOk (if taken then { w with opener := .inFlight p (n + 1) }
      else w.decideRetryOrForward openRetries (n + 1) retryable) := by
  have hop := h.opener
  rw [ho] at hop
  obtain ⟨hvalid, hp, hunasked⟩ := hop
  by_cases htaken : taken = true
  · rw [if_pos htaken]
    exact h.unasked hunasked rfl rfl rfl h.leased h.present
      ⟨hvalid, hp, { hunasked with }⟩
  · rw [if_neg htaken]
    exact decide_keeps h hunasked openRetries (n + 1) retryable w.status

/-- What is known of a calm thread says nothing about whether the handle is valid. -/
theorem PcOk.shut (hcalm : pc.Calm) (h : PcOk w t pc) : PcOk { w with valid := false } t pc := by
  cases pc with
  | idle | refused => exact trivial
  | taking | peeking | holding p | between => exact h
  | _ => exact hcalm.elim

theorem shut_keeps (h : InnerOk w) (hcalm : ∀ t, (w.pc t).Calm)
    (hopener : match w.opener with
      | .timer _ | .done _ => True
      | _ => False) : InnerOk { w with valid := false } where
  leased := h.leased.stop
  present := fun hno => Bool.noConfusion hno
  trust := h.trust
  latched := h.latched
  opener := by
    have hop := h.opener
    show OpenerOk _ w.opener
    cases ho : w.opener with
    | timer n =>
        rw [ho] at hop
        exact { hop with }
    | done ok =>
        rw [ho] at hop
        exact ⟨fun hno => { hop.1 hno with }, hop.2⟩
    | inFlight p n =>
        rw [ho] at hopener
        exact hopener.elim
    | checked n =>
        rw [ho] at hopener
        exact hopener.elim
    | swapped p n =>
        rw [ho] at hopener
        exact hopener.elim
  threads := fun t => (h.threads t).shut (hcalm t)

/-- Where something is known of the file, the handle is valid. -/
theorem PcOk.destroyed (hvalid : w.valid = false) (gone : List Nat) (h : PcOk w t pc) :
    PcOk { w with file := none, gone := gone } t pc := by
  have hno : w.valid ≠ true := Bool.eq_false_iff.1 hvalid
  cases pc with
  | idle | refused => exact trivial
  | taking | peeking | holding p | between => exact h
  | opening b p n => exact absurd h.1.1 hno
  | _ => exact absurd h.1 hno

theorem destroy_keeps (h : InnerOk w) (hvalid : w.valid = false) (hzero : w.ops = 0) :
    InnerOk { w with file := none, gone := w.gone ++ w.file.toList } where
  leased := h.leased.remove hzero
  present := fun hyes => absurd hyes (Bool.eq_false_iff.1 hvalid)
  trust := h.trust
  latched := fun hyes => ⟨(h.latched hyes).1, fun _ hf => by cases hf⟩
  opener := by
    have hop := h.opener
    have hno : w.valid ≠ true := Bool.eq_false_iff.1 hvalid
    show OpenerOk _ w.opener
    cases ho : w.opener with
    | timer n =>
        rw [ho] at hop
        exact { hop with }
    | done ok =>
        rw [ho] at hop
        refine ⟨fun hfail => { hop.1 hfail with }, ?_⟩
        intro _ _ f hf
        cases hf
    | inFlight p n =>
        rw [ho] at hop
        exact absurd hop.1 hno
    | checked n =>
        rw [ho] at hop
        exact absurd hop.1 hno
    | swapped p n =>
        rw [ho] at hop
        exact absurd hop.1 hno
  threads := fun t => (h.threads t).destroyed hvalid _

/-! ### Every step -/

variable {openRetries : Nat}

theorem openStep_keeps (h : InnerOk w) {act : InnerAct}
    (hstep : w.openStep openRetries act = some w') : InnerOk w' := by
  cases act with
  | openReply ok retryable =>
      simp only [InnerWorld.openStep] at hstep
      split at hstep
      · rename_i p n ho
        cases hstep
        exact openReply_keeps h ho openRetries ok retryable
      · cases hstep
  | retryCheck =>
      simp only [InnerWorld.openStep] at hstep
      split at hstep
      · rename_i n ho
        cases hstep
        exact retryCheck_keeps h ho
      · cases hstep
  | retryReset =>
      simp only [InnerWorld.openStep] at hstep
      split at hstep
      · rename_i n ho
        cases hstep
        exact retryReset_keeps h ho
      · cases hstep
  | retryIssue taken retryable =>
      simp only [InnerWorld.openStep] at hstep
      split at hstep
      · rename_i p n ho
        cases hstep
        exact retryIssue_keeps h ho openRetries taken retryable
      · cases hstep
  | _ => cases hstep

theorem lazyStep_keeps (h : InnerOk w) {act : InnerAct} (hlegal : InnerLegal w act)
    (hstep : w.lazyStep openRetries act = some w') : InnerOk w' := by
  cases act with
  | ask t =>
      simp only [InnerWorld.lazyStep] at hstep
      split at hstep
      · rename_i hidle
        cases hstep
        obtain ⟨hopener, hvalid⟩ := hlegal
        split
        · rename_i hpast
          exact h.quiet hidle hopener rfl rfl ⟨hvalid, hpast⟩
        · rename_i hpast
          exact h.quiet hidle hopener rfl rfl
            ⟨hvalid, Bool.eq_false_iff.2 fun hpass => hpast (.inl hpass)⟩
      · cases hstep
  | setup t found =>
      simp only [InnerWorld.lazyStep] at hstep
      split at hstep
      · rename_i hasked
        cases hstep
        exact setup_keeps h hasked.1 hasked.2 found
      · cases hstep
  | stat t =>
      simp only [InnerWorld.lazyStep] at hstep
      split at hstep
      · rename_i p hpc
        cases hstep
        obtain ⟨hopener, hthread⟩ := h.stands hpc Pc.noConfusion
        exact setupDone_keeps h hpc hopener rfl hthread.1
          (fun t' ht => not_inSetup hthread.2.1 ht) none
      · cases hstep
  | lazyLock t recent =>
      simp only [InnerWorld.lazyStep] at hstep
      split at hstep
      · rename_i b hpc
        split at hstep
        · rename_i hfree
          cases hstep
          exact ensureInnerOpen_keeps h hpc hfree recent
        · cases hstep
      · cases hstep
  | lazyReply t ok retryable =>
      simp only [InnerWorld.lazyStep] at hstep
      split at hstep
      · rename_i b p n hpc
        cases hstep
        exact lazyReply_keeps h hpc openRetries ok retryable
      · cases hstep
  | lazyCheck t =>
      simp only [InnerWorld.lazyStep] at hstep
      split at hstep
      · rename_i b hpc
        cases hstep
        exact lazyCheck_keeps h hpc
      · cases hstep
  | lazyReset t =>
      simp only [InnerWorld.lazyStep] at hstep
      split at hstep
      · rename_i b hpc
        cases hstep
        exact lazyReset_keeps h hpc
      · cases hstep
  | _ => cases hstep

/-- The inner file may be taken where no lazy open is due. -/
theorem open_of_not_lazy (hlazy : ¬ (w.cacheOnly = true ∧ ¬ w.opened = true)) : w.Open := by
  by_cases hcache : w.cacheOnly = true
  · right
    by_contra hno
    exact hlazy ⟨hcache, hno⟩
  · exact .inl (Bool.eq_false_iff.2 hcache)

theorem acquire_keeps (h : InnerOk w) (hpc : w.pc t = .ready ∨ w.pc t = .between) :
    InnerOk (w.setPc t (if w.cacheOnly ∧ ¬ w.opened then .wantLazy .acquire else .taking)) := by
  rcases hpc with hpc | hpc
  · obtain ⟨hopener, hvalid, hpast⟩ := h.stands hpc Pc.noConfusion
    by_cases hlazy : w.cacheOnly ∧ ¬ w.opened
    · rw [if_pos hlazy]
      refine h.quiet hpc hopener rfl rfl ⟨hvalid, hpast.resolve_left fun hpass => ?_, hlazy.1⟩
      have halone := (h.trust hlazy.1).2
      rw [hpass] at halone
      cases halone
    · rw [if_neg hlazy]
      exact h.quiet hpc hopener rfl rfl ⟨hpast, open_of_not_lazy hlazy⟩
  · obtain ⟨hopener, hpast, hopen⟩ := h.stands hpc Pc.noConfusion
    rw [if_neg fun hlazy => hopen.elim (fun hno => absurd (hno.symm.trans hlazy.1)
      Bool.false_ne_true) hlazy.2]
    exact h.quiet hpc hopener rfl rfl ⟨hpast, hopen⟩

theorem useStep_keeps (h : InnerOk w) {act : InnerAct} (hlegal : InnerLegal w act)
    (hstep : w.useStep act = some w') : InnerOk w' := by
  cases act with
  | acquire t =>
      simp only [InnerWorld.useStep] at hstep
      split at hstep
      · rename_i hpc
        cases hstep
        exact acquire_keeps h hpc
      · cases hstep
  | take t =>
      simp only [InnerWorld.useStep] at hstep
      split at hstep
      · rename_i hpc
        cases hstep
        exact take_keeps h hpc
      · cases hstep
  | peek t =>
      simp only [InnerWorld.useStep] at hstep
      split at hstep
      · rename_i hpc
        cases hstep
        split
        · exact h
        · rename_i hlazy
          exact h.quiet hpc.1 (h.asked (t := t) (.inl hpc.2)) rfl rfl
            ⟨.inr hpc.2, open_of_not_lazy hlazy⟩
      · cases hstep
  | takeOpen t =>
      simp only [InnerWorld.useStep] at hstep
      split at hstep
      · rename_i hpc
        cases hstep
        exact takeOpen_keeps h hpc
      · cases hstep
  | release t =>
      simp only [InnerWorld.useStep] at hstep
      split at hstep
      · rename_i p hpc
        cases hstep
        exact release_keeps h hpc
      · cases hstep
  | finish t =>
      simp only [InnerWorld.useStep] at hstep
      split at hstep
      · rename_i hpc
        cases hstep
        rcases hpc with hpc | hpc | hpc <;>
          exact h.quiet hpc (h.stands hpc Pc.noConfusion).1 rfl rfl trivial
      · cases hstep
  | shut =>
      simp only [InnerWorld.useStep] at hstep
      split at hstep
      · cases hstep
        exact shut_keeps h hlegal.1 hlegal.2
      · cases hstep
  | destroy =>
      simp only [InnerWorld.useStep] at hstep
      split at hstep
      · rename_i hend
        cases hstep
        exact destroy_keeps h hend.1 hend.2
      · cases hstep
  | _ => cases hstep

/-- Every step keeps what is known. -/
theorem innerOk_step (h : InnerOk w) {act : InnerAct} (hlegal : InnerLegal w act)
    (hstep : w.step openRetries act = some w') : InnerOk w' := by
  simp only [InnerWorld.step, Option.orElse_eq_some] at hstep
  rcases hstep with hopen | ⟨-, hlazy | ⟨-, huse⟩⟩
  · exact openStep_keeps h hopen
  · exact lazyStep_keeps h hlegal hlazy
  · exact useStep_keeps h hlegal huse

theorem innerOk_open (passthroughOnly trusted : Bool) :
    InnerOk (openInner passthroughOnly trusted) where
  leased := Leases.safe_start true
  present := fun _ hnone => by cases hnone
  trust := by
    cases passthroughOnly
    · exact fun hyes => ⟨hyes, rfl⟩
    · intro hno
      cases hno
  latched := fun hno => Bool.noConfusion hno
  opener := by
    by_cases htrusted : (!passthroughOnly && trusted) = true
    · simp only [openInner, htrusted, if_true]
      exact ⟨fun hno => Bool.noConfusion hno, fun hno => Bool.noConfusion hno⟩
    · simp only [openInner, htrusted]
      exact ⟨rfl, rfl, fun _ => rfl, rfl, rfl⟩
  threads := fun _ => trivial

theorem InnerOk.safe (h : InnerOk w) : InnerSafe w where
  counted := h.leased.counted
  lent := by
    intro t p hpc
    have hthread := h.threads t
    rw [hpc] at hthread
    obtain ⟨f, rfl⟩ := Option.ne_none_iff_exists'.1 hthread.2.2
    refine ⟨f, rfl, h.leased.live t f ?_⟩
    show (w.pc t).lent = some f
    rw [hpc]
    rfl
  raw := by
    intro t p hraw
    have hthread := h.threads t
    cases hpc : w.pc t with
    | stating q =>
        rw [hpc] at hraw hthread
        cases hraw
        obtain ⟨hvalid, -, rfl⟩ := hthread
        obtain ⟨f, hf⟩ := Option.ne_none_iff_exists'.1 (h.present hvalid)
        exact ⟨f, hf, hf⟩
    | opening b q n =>
        rw [hpc] at hraw hthread
        cases hraw
        obtain ⟨⟨hvalid, -⟩, rfl⟩ := hthread
        obtain ⟨f, hf⟩ := Option.ne_none_iff_exists'.1 (h.present hvalid)
        exact ⟨f, hf, hf⟩
    | _ =>
        rw [hpc] at hraw
        cases hraw
  openRaw := by
    intro p hraw
    have hop := h.opener
    cases ho : w.opener with
    | inFlight q n =>
        rw [ho] at hraw hop
        cases hraw
        obtain ⟨hvalid, rfl, -⟩ := hop
        obtain ⟨f, hf⟩ := Option.ne_none_iff_exists'.1 (h.present hvalid)
        exact ⟨f, hf, hf⟩
    | swapped q n =>
        rw [ho] at hraw hop
        cases hraw
        obtain ⟨hvalid, rfl, -⟩ := hop
        obtain ⟨f, hf⟩ := Option.ne_none_iff_exists'.1 (h.present hvalid)
        exact ⟨f, hf, hf⟩
    | _ =>
        rw [ho] at hraw
        cases hraw
  present := h.present
  gone := fun f hf => (h.leased.fresh f hf).2
  once := h.leased.once
  opened := by
    intro hsame t f hpc
    have hthread := h.threads t
    rw [hpc] at hthread
    have hlive : w.file = some f := by
      apply h.leased.live t f
      show (w.pc t).lent = some f
      rw [hpc]
      rfl
    have hopener := h.asked (t := t) (.inr (by rw [hpc]; exact Pc.noConfusion))
    by_cases hown : w.cacheOpen = true
    · rcases hthread.2.1 with hno | hyes
      · rw [hsame, hown] at hno
        cases hno
      · exact (h.latched hyes).2 f hlive
    · have hop := h.opener
      rw [hopener] at hop
      exact hop.2 (Bool.eq_false_iff.2 hown) rfl f hlive

/-- [SRC UCacheFile.cc:116-193, 292-378, 663-691, 1590-1684] The inner file of a handle, in any run
of its open, its requests, its read-ahead and its end: as long as the application asks only once its
open has succeeded and ends the handle around its setup and lazy open, whoever uses the inner file
uses the one that is there, it is swapped or destroyed only while nobody holds it, and no object
twice; and what is lent was opened, unless the trust in the cache was withdrawn. -/
theorem inner_file_leased {passthroughOnly trusted : Bool} {openRetries : Nat}
    {acts : List InnerAct} {w : InnerWorld}
    (hlegal : Along (InnerWorld.step openRetries) InnerLegal
      (openInner passthroughOnly trusted) acts)
    (hrun : exec (InnerWorld.step openRetries) (openInner passthroughOnly trusted) acts = some w) :
    InnerSafe w :=
  (exec_invariant_along InnerOk (fun _ _ _ hs hcond hstep => innerOk_step hs hcond hstep)
    (innerOk_open passthroughOnly trusted) hlegal hrun).safe

/-! ### A trusted handle that misses -/

variable {a : InnerAct}

/-- The thread of a step. -/
def InnerAct.thread : InnerAct → Option Nat
  | .ask t | .setup t _ | .stat t | .acquire t | .lazyLock t _ | .lazyReply t _ _ | .lazyCheck t
  | .lazyReset t | .take t | .peek t | .takeOpen t | .release t | .finish t => some t
  | _ => none

/-- A request misses: the lazy open fails once, and the fresh file opens.  Read-ahead takes the
inner file as well, the handle ends around both, and is destroyed once both gave the file back. -/
def missThenEnd : List InnerAct :=
  [.ask 0, .setup 0 true, .acquire 0, .lazyLock 0 false, .lazyReply 0 false true,
   .lazyReply 0 true false, .take 0, .peek 1, .takeOpen 1, .shut, .release 0, .release 1, .destroy]

/-- Its conditions, on the two threads that it has. -/
def legalCheck (w : InnerWorld) : InnerAct → Bool
  | .ask _ => decide (w.opener = .done true) && w.valid
  | .shut => decide ((w.pc 0).lent ≠ none) && decide ((w.pc 1).lent ≠ none) &&
      decide (w.opener = .done true)
  | _ => true

theorem calm_of_lent (h : pc.lent ≠ none) : pc.Calm := by
  cases pc with
  | holding p => exact trivial
  | _ => exact absurd rfl h

theorem legalCheck_sound (hrest : ∀ t, 1 < t → w.pc t = .idle) (h : legalCheck w a = true) :
    InnerLegal w a := by
  cases a with
  | ask t =>
      simp only [legalCheck, Bool.and_eq_true, decide_eq_true_eq] at h
      exact h
  | shut =>
      simp only [legalCheck, Bool.and_eq_true, decide_eq_true_eq] at h
      obtain ⟨⟨hzero, hone⟩, hopener⟩ := h
      constructor
      · intro t
        rcases Nat.lt_or_ge 1 t with ht | ht
        · rw [hrest t ht]
          trivial
        · obtain rfl | rfl : t = 0 ∨ t = 1 := by omega
          · exact calm_of_lent hzero
          · exact calm_of_lent hone
      · rw [hopener]
        trivial
  | _ => exact trivial

/-- All other threads stand where they stood. -/
def InnerWorld.Moves (w w' : InnerWorld) (a : InnerAct) : Prop :=
  ∀ t, a.thread ≠ some t → w'.pc t = w.pc t

theorem moves_update {u : Nat} (hu : a.thread = some u)
    (h : ∃ pc, w'.pc = Function.update w.pc u pc) : w.Moves w' a := by
  intro t hother
  obtain ⟨pc, hpc⟩ := h
  rw [hpc]
  apply Function.update_of_ne
  rintro rfl
  exact hother hu

theorem setStatus_pc (p : Option Nat) (s : FileStatus) : (w.setStatus p s).pc = w.pc := by
  cases p <;> rfl

theorem setup_pc (t : Nat) (found : Bool) :
    ∃ pc, (w.setup t found).pc = Function.update w.pc t pc := by
  unfold InnerWorld.setup
  repeat' split
  all_goals exact ⟨_, rfl⟩

theorem ensureInnerOpen_pc (t : Nat) (b : Back) (recent : Bool) :
    ∃ pc, (w.ensureInnerOpen t b recent).pc = Function.update w.pc t pc := by
  unfold InnerWorld.ensureInnerOpen
  repeat' split
  all_goals exact ⟨_, rfl⟩

theorem lazyReply_pc (openRetries t : Nat) (b : Back) (p : Option Nat) (n : Nat)
    (ok retryable : Bool) :
    ∃ pc, (w.lazyReply openRetries t b p n ok retryable).pc = Function.update w.pc t pc := by
  unfold InnerWorld.lazyReply
  split
  · exact ⟨_, congrArg (fun f => Function.update f t _) (setStatus_pc p .opened)⟩
  · split <;> exact ⟨_, congrArg (fun f => Function.update f t _) (setStatus_pc p .failed)⟩

theorem openStep_pc (hstep : w.openStep openRetries a = some w') : w'.pc = w.pc := by
  cases a with
  | openReply ok retryable =>
      simp only [InnerWorld.openStep] at hstep
      split at hstep
      · cases hstep
        split
        · exact setStatus_pc _ _
        · exact setStatus_pc _ _
      · cases hstep
  | retryCheck =>
      simp only [InnerWorld.openStep] at hstep
      split at hstep <;> cases hstep
      rfl
  | retryReset =>
      simp only [InnerWorld.openStep] at hstep
      split at hstep <;> cases hstep
      rfl
  | retryIssue taken retryable =>
      simp only [InnerWorld.openStep] at hstep
      split at hstep <;> cases hstep
      split <;> rfl
  | _ => cases hstep

theorem lazyStep_moves (hstep : w.lazyStep openRetries a = some w') : w.Moves w' a := by
  cases a with
  | ask t =>
      simp only [InnerWorld.lazyStep] at hstep
      split at hstep <;> cases hstep
      exact moves_update rfl ⟨_, rfl⟩
  | setup t found =>
      simp only [InnerWorld.lazyStep] at hstep
      split at hstep <;> cases hstep
      exact moves_update rfl (setup_pc t found)
  | stat t =>
      simp only [InnerWorld.lazyStep] at hstep
      split at hstep <;> cases hstep
      exact moves_update rfl ⟨_, rfl⟩
  | lazyLock t recent =>
      simp only [InnerWorld.lazyStep] at hstep
      split at hstep
      · split at hstep <;> cases hstep
        exact moves_update rfl (ensureInnerOpen_pc t _ recent)
      · cases hstep
  | lazyReply t ok retryable =>
      simp only [InnerWorld.lazyStep] at hstep
      split at hstep <;> cases hstep
      exact moves_update rfl (lazyReply_pc _ t _ _ _ ok retryable)
  | lazyCheck t =>
      simp only [InnerWorld.lazyStep] at hstep
      split at hstep <;> cases hstep
      split <;> exact moves_update rfl ⟨_, rfl⟩
  | lazyReset t =>
      simp only [InnerWorld.lazyStep] at hstep
      split at hstep <;> cases hstep
      exact moves_update rfl ⟨_, rfl⟩
  | _ => cases hstep

theorem useStep_moves (hstep : w.useStep a = some w') : w.Moves w' a := by
  cases a with
  | acquire t =>
      simp only [InnerWorld.useStep] at hstep
      split at hstep <;> cases hstep
      exact moves_update rfl ⟨_, rfl⟩
  | take t =>
      simp only [InnerWorld.useStep] at hstep
      split at hstep <;> cases hstep
      split <;> exact moves_update rfl ⟨_, rfl⟩
  | peek t =>
      simp only [InnerWorld.useStep] at hstep
      split at hstep <;> cases hstep
      split
      · exact fun _ _ => rfl
      · exact moves_update rfl ⟨_, rfl⟩
  | takeOpen t =>
      simp only [InnerWorld.useStep] at hstep
      split at hstep <;> cases hstep
      split <;> exact moves_update rfl ⟨_, rfl⟩
  | release t =>
      simp only [InnerWorld.useStep] at hstep
      split at hstep <;> cases hstep
      exact moves_update rfl ⟨_, rfl⟩
  | finish t =>
      simp only [InnerWorld.useStep] at hstep
      split at hstep <;> cases hstep
      exact moves_update rfl ⟨_, rfl⟩
  | shut =>
      simp only [InnerWorld.useStep] at hstep
      split at hstep <;> cases hstep
      exact fun _ _ => rfl
  | destroy =>
      simp only [InnerWorld.useStep] at hstep
      split at hstep <;> cases hstep
      exact fun _ _ => rfl
  | _ => cases hstep

/-- A step of a request moves its own thread only. -/
theorem step_moves (hstep : w.step openRetries a = some w') : w.Moves w' a := by
  simp only [InnerWorld.step, Option.orElse_eq_some] at hstep
  rcases hstep with hopen | ⟨-, hlazy | ⟨-, huse⟩⟩
  · exact fun t _ => congrFun (openStep_pc hopen) t
  · exact lazyStep_moves hlazy
  · exact useStep_moves huse

/-- It is on one of the first two threads, or on none. -/
def InnerAct.OfTwo (a : InnerAct) : Prop := ∀ t, 1 < t → a.thread ≠ some t

theorem missThenEnd_ofTwo : ∀ a ∈ missThenEnd, a.OfTwo := by
  intro a ha t ht hthread
  have hsmall : (a.thread.all fun u => decide (u ≤ 1)) = true := by
    have hall : ∀ a ∈ missThenEnd, (a.thread.all fun u => decide (u ≤ 1)) = true := by decide
    exact hall a ha
  rw [hthread, Option.all_some, decide_eq_true_eq] at hsmall
  omega

/-- Both uses of the inner file are given back before the handle is destroyed. -/
theorem miss_then_end_leased : ∃ w,
    exec (InnerWorld.step 1) (openInner false true) missThenEnd = some w ∧ InnerSafe w ∧
      w.gone = [0, 1] ∧ w.file = none ∧ w.status 0 = .failed ∧ w.status 1 = .opened := by
  have hends : (exec (InnerWorld.step 1) (openInner false true) missThenEnd).any (fun w =>
      decide (w.gone = [0, 1] ∧ w.file = none ∧ w.status 0 = .failed ∧ w.status 1 = .opened)) =
        true := by
    decide +kernel
  obtain ⟨w, hrun, hend⟩ := (Option.any_eq_true _ _).1 hends
  rw [decide_eq_true_eq] at hend
  have hlegal : Along (InnerWorld.step 1) InnerLegal (openInner false true) missThenEnd := by
    refine along_of_check (fun w => ∀ t, 1 < t → w.pc t = .idle) InnerAct.OfTwo ?_
      (fun _ _ hrest _ => legalCheck_sound hrest) (fun _ _ => rfl) missThenEnd_ofTwo
      (by decide +kernel)
    intro w a w' hrest hpart hstep t ht
    rw [step_moves hstep t (hpart t ht)]
    exact hrest t ht
  exact ⟨w, hrun, inner_file_leased hlegal hrun, hend⟩

end UCache
