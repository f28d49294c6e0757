/-
Module: UCache.Plugin.ShownLayout
Purpose: Which layout a process shows a file in.  Any number of handles choose at once, each looking
  at the record, attaching to a slot run or a replica and trying to record what it got, while stores
  and replicas come and go on disk.
Trusted boundary: none
Main exports: ShownLayout, noteShownLayout, one_address_space
-/
import UCache.Core.ReplicaView
import UCache.Lib.Run
import UCache.Plugin.SlotRun

namespace UCache

open Lib

/-! ### The record -/

/-- [SRC ColdRun.h:73] -/
inductive ShownLayout where
  | none | original | compact | slot
deriving DecidableEq, Repr

/-- [SRC ColdRun.cc:343-348] -/
structure Shown where
  layout : ShownLayout := .none
  hash : UInt64 := 0
  slotFactor100 : Nat := 0
  codecs : String := ""
deriving DecidableEq, Repr

/-- [SRC ColdRun.cc:2102-2109] A key that is not in the map has shown nothing. -/
def shownLayout (v : Option Shown) : ShownLayout × UInt64 :=
  match v with
  | Option.none => (.none, 0)
  | some v => (v.layout, v.hash)

/-- [SRC ColdRun.cc:2111-2132] What the map holds for the key afterwards; its layout and its hash
are what the caller is told. -/
def noteShownLayout (v : Option Shown) (s : ShownLayout) (hash : UInt64)
    (run : Option SlotRun) : Shown :=
  let v := v.getD {}
  if v.layout = .none ∨ v.layout = .original ∨ (v.layout = s ∧ v.hash = hash) then
    if v.layout ≠ s ∨ v.hash ≠ hash then
      match s, run with
      | .slot, some run =>
          { v with
            layout := s, hash := hash
            slotFactor100 := run.slotFactor100, codecs := joinCodecs run.codecs }
      | _, _ => { v with layout := s, hash := hash }
    else v
  else v

/-- [SRC ColdRun.cc:355-364] -/
def shownSlotParams (v : Option Shown) : Option (Nat × String) :=
  v.bind fun v =>
    if v.layout ≠ .slot ∨ v.slotFactor100 = 0 then Option.none
    else some (v.slotFactor100, v.codecs)

/-- [SRC UCacheFile.cc:1517-1520] -/
def compactId (m : ReplicaMeta) : UInt64 :=
  ((crc32c (ReplicaFile.serialize m)).toUInt64 <<< 32) ^^^ UInt64.ofNat m.virtualSize

/-- A layout with other offsets than the file's own. -/
def ShownLayout.Rewritten (l : ShownLayout) : Prop := l = .compact ∨ l = .slot

instance : DecidablePred ShownLayout.Rewritten :=
  fun l => inferInstanceAs (Decidable (l = .compact ∨ l = .slot))

/-- A rewritten layout stays. -/
theorem noteShownLayout_rewritten {v : Shown} (h : v.layout.Rewritten) (s : ShownLayout)
    (hash : UInt64) (run : Option SlotRun) : noteShownLayout (some v) s hash run = v := by
  unfold noteShownLayout
  dsimp only [Option.getD_some]
  split
  · split
    · rename_i hopen hdiff
      have hne : ¬ (v.layout = .none ∨ v.layout = .original) := by
        rcases h with h | h <;> simp [h]
      tauto
    · rfl
  · rfl

/-- Either the caller's layout is the one that holds from now on, or a rewritten one held before and
still does. -/
theorem noteShownLayout_cases (v : Option Shown) (s : ShownLayout) (hash : UInt64)
    (run : Option SlotRun) :
    ((noteShownLayout v s hash run).layout = s ∧ (noteShownLayout v s hash run).hash = hash) ∨
      ((noteShownLayout v s hash run).layout.Rewritten ∧
        v = some (noteShownLayout v s hash run)) := by
  by_cases hrew : (v.getD {}).layout.Rewritten
  · cases v with
    | none => simp [ShownLayout.Rewritten] at hrew
    | some v =>
        have hv : v.layout.Rewritten := hrew
        rw [noteShownLayout_rewritten hv]
        exact .inr ⟨hv, rfl⟩
  · have hopen : (v.getD {}).layout = .none ∨ (v.getD {}).layout = .original := by
      revert hrew
      cases (v.getD {}).layout <;> simp [ShownLayout.Rewritten]
    left
    unfold noteShownLayout
    dsimp only
    rw [if_pos (by tauto)]
    split
    · split <;> exact ⟨rfl, rfl⟩
    · rename_i hsame
      tauto

/-! ### The handles -/

/-- [SRC UCacheFile.cc:1522-1584, ColdRun.cc:2136-2175] Where a handle stands in `chooseLayout`.  A
`coldAttach` is looking into the registry, building a run, or entering the run it built. -/
inductive ChoosePc where
  | look
  | attach (mode : AttachMode) (hash : UInt64)
  | build (mode : AttachMode) (hash : UInt64)
  | enter (mode : AttachMode) (hash : UInt64) (run : SlotRun)
  | openShown (hash : UInt64)
  | openView
  | noteCompact (v : ReplicaMeta)
  | noteSlot (r : Nat)
  | detach (r : Nat)
  | noteOriginal
  | done
  | closed
deriving DecidableEq, Repr

/-- A handle: what it was opened with, its pass through the loop, and what it got.  `capped` is a
ghost: the loop was left by its cap on the passes. -/
structure LayoutHandle where
  file : SetupFile
  pass : Nat := 0
  pc : ChoosePc := .look
  view : Option ReplicaMeta := none
  cold : Option Nat := none
  capped : Bool := false
deriving DecidableEq, Repr

/-- The process: what it has shown of each key, its registry of slot runs, and its handles. -/
structure LayoutWorld where
  shown : String → Option Shown := fun _ => none
  registry : String → Option Nat := fun _ => none
  runs : List SlotRun := []
  handles : Nat → Option LayoutHandle := fun _ => none

/-- What a step of a handle meets: the answers of a build, the replica that `openView` finds and
adopts, and whether the file may be recompressed. -/
structure LayoutSeen where
  build : BuildSeen
  view : Option ReplicaMeta
  recompress : Bool

inductive LayoutAct where
  | start (i : Nat) (file : SetupFile)
  | run (i : Nat) (e : LayoutSeen)
  | close (i : Nat)

namespace LayoutWorld

def setHandle (s : LayoutWorld) (i : Nat) (h : LayoutHandle) : LayoutWorld :=
  { s with handles := Function.update s.handles i (some h) }

/-- [SRC ColdRun.cc:2145-2147, 2167-2170] The run is of the same file, and has the layout asked
for. -/
def joinable (run : SlotRun) (f : SetupFile) (mode : AttachMode) (hash : UInt64) : Bool :=
  decide (run.layout.L.originSize = f.size) && decide (run.file.entry = f.entry) &&
    (decide (mode ≠ .matched) || decide (coldLayoutHash run = hash))

/-- The run of the key that a handle may join. -/
def registered (s : LayoutWorld) (f : SetupFile) (mode : AttachMode) (hash : UInt64) :
    Option Nat :=
  (s.registry f.key).filter fun r => (s.runs[r]?).any (joinable · f mode hash)

/-- `++handles` -/
def addHandle (s : LayoutWorld) (r : Nat) : LayoutWorld :=
  { s with runs := s.runs.modify r fun c => { c with handles := c.handles + 1 } }

/-- [SRC ColdRun.cc:2177-2193] `coldDetach`: the last handle takes the run out of the registry. -/
def detach (s : LayoutWorld) (r : Nat) : LayoutWorld :=
  match s.runs[r]? with
  | none => s
  | some c =>
      let runs := s.runs.set r { c with handles := c.handles - 1 }
      if c.handles - 1 = 0 ∧ s.registry c.file.key = some r then
        { s with runs := runs, registry := Function.update s.registry c.file.key none }
      else { s with runs := runs }

/-- [SRC UCacheFile.cc:1531-1539, 1552-1570] What `chooseLayout` does with what `coldAttach`
returned. -/
def attached (h : LayoutHandle) (mode : AttachMode) (r : Option Nat) : LayoutHandle :=
  match mode, r with
  | .matched, r => { h with pc := .done, cold := r }
  | _, some r => { h with pc := .noteSlot r }
  | .existing, none => { h with pc := .openView }
  | .create, none => { h with pc := .noteOriginal }

/-- The loop goes round. -/
def again (h : LayoutHandle) : LayoutHandle := { h with pc := .look, pass := h.pass + 1 }

/-- [SRC UCacheFile.cc:1528-1551] -/
def stepLook (s : LayoutWorld) (i : Nat) (h : LayoutHandle) : LayoutWorld :=
  match shownLayout (s.shown h.file.key) with
  | (.slot, hash) => s.setHandle i { h with pc := .attach .matched hash }
  | (.compact, hash) => s.setHandle i { h with pc := .openShown hash }
  | _ =>
      if 3 ≤ h.pass then s.setHandle i { h with pc := .done, capped := true }
      else s.setHandle i { h with pc := .attach .existing 0 }

/-- [SRC ColdRun.cc:2141-2152] -/
def stepAttach (s : LayoutWorld) (i : Nat) (h : LayoutHandle) (mode : AttachMode)
    (hash : UInt64) : LayoutWorld :=
  match s.registered h.file mode hash with
  | some r => (s.addHandle r).setHandle i (attached h mode (some r))
  | none => s.setHandle i { h with pc := .build mode hash }

/-- [SRC ColdRun.cc:2153-2162] -/
def stepBuild (cx : SetupCx) (s : LayoutWorld) (i : Nat) (h : LayoutHandle) (mode : AttachMode)
    (hash : UInt64) (w : BuildSeen) : LayoutWorld :=
  match build cx h.file mode hash (shownSlotParams (s.shown h.file.key)) w with
  | some run => s.setHandle i { h with pc := .enter mode hash run }
  | none => s.setHandle i (attached h mode none)

/-- [SRC ColdRun.cc:2166-2174] A racing handle built it first: join that one, drop ours. -/
def stepEnter (s : LayoutWorld) (i : Nat) (h : LayoutHandle) (mode : AttachMode) (hash : UInt64)
    (run : SlotRun) : LayoutWorld :=
  match s.registered h.file mode hash with
  | some r => (s.addHandle r).setHandle i (attached h mode (some r))
  | none =>
      { s with
        runs := s.runs ++ [{ run with handles := 1 }]
        registry := Function.update s.registry h.file.key (some s.runs.length) }.setHandle i
        (attached h mode (some s.runs.length))

/-- [SRC UCacheFile.cc:1541-1549] -/
def stepOpenShown (s : LayoutWorld) (i : Nat) (h : LayoutHandle) (hash : UInt64)
    (view : Option ReplicaMeta) : LayoutWorld :=
  s.setHandle i { h with pc := .done, view := view.filter fun v => compactId v = hash }

/-- [SRC UCacheFile.cc:1555-1570] -/
def stepOpenView (s : LayoutWorld) (i : Nat) (h : LayoutHandle) (e : LayoutSeen) : LayoutWorld :=
  match e.view with
  | some v => s.setHandle i { h with pc := .noteCompact v }
  | none =>
      s.setHandle i { h with pc := if e.recompress then .attach .create 0 else .noteOriginal }

/-- Record a layout, and go on with `won` when it is the one that holds, with `lost` otherwise. -/
def stepNote (s : LayoutWorld) (i : Nat) (h : LayoutHandle) (l : ShownLayout) (hash : UInt64)
    (run : Option SlotRun) (won lost : LayoutHandle) : LayoutWorld :=
  let v := noteShownLayout (s.shown h.file.key) l hash run
  { s with shown := Function.update s.shown h.file.key (some v) }.setHandle i
    (if v.layout = l ∧ (l = ShownLayout.original ∨ v.hash = hash) then won else lost)

/-- One step of a handle. -/
def stepHandle (cx : SetupCx) (s : LayoutWorld) (i : Nat) (h : LayoutHandle) (e : LayoutSeen) :
    ChoosePc → Option LayoutWorld
  | .look => some (s.stepLook i h)
  | .attach mode hash => some (s.stepAttach i h mode hash)
  | .build mode hash => some (s.stepBuild cx i h mode hash e.build)
  | .enter mode hash run => some (s.stepEnter i h mode hash run)
  | .openShown hash => some (s.stepOpenShown i h hash e.view)
  | .openView => some (s.stepOpenView i h e)
  | .noteCompact v =>
      some (s.stepNote i h .compact (compactId v) none { h with pc := .done, view := some v }
        (again h))
  | .noteSlot r =>
      (s.runs[r]?).map fun run =>
        s.stepNote i h .slot (coldLayoutHash run) (some run) { h with pc := .done, cold := some r }
          { h with pc := .detach r }
  | .detach r => some ((s.detach r).setHandle i (again h))
  | .noteOriginal => some (s.stepNote i h .original 0 none { h with pc := .done } (again h))
  | .done => none
  | .closed => none

/-- One step of the process. -/
def step (cx : SetupCx) (s : LayoutWorld) : LayoutAct → Option LayoutWorld
  | .start i file =>
      match s.handles i with
      | none => some (s.setHandle i { file := file })
      | some _ => none
  | .run i e => (s.handles i).bind fun h => s.stepHandle cx i h e h.pc
  | .close i =>
      (s.handles i).bind fun h =>
        if h.pc = .done then
          some (((h.cold.map s.detach).getD s).setHandle i { h with pc := .closed })
        else none

/-! ### What a step may change -/

variable {s s' : LayoutWorld} {hash : UInt64}

/-- The process has shown the key in a rewritten layout, with this identity. -/
def Shows (s : LayoutWorld) (key : String) (l : ShownLayout) (hash : UInt64) : Prop :=
  l.Rewritten ∧ ∃ v, s.shown key = some v ∧ v.layout = l ∧ v.hash = hash

/-- The process has shown the key in some rewritten layout. -/
def Settled (s : LayoutWorld) (key : String) : Prop := ∃ l hash, s.Shows key l hash

def runHash (s : LayoutWorld) (r : Nat) : Option UInt64 := (s.runs[r]?).map coldLayoutHash

/-- What was shown stays shown, and a run keeps its layout. -/
structure Grows (s s' : LayoutWorld) : Prop where
  shows : ∀ {key l hash}, s.Shows key l hash → s'.Shows key l hash
  runs : ∀ {r x}, s.runHash r = some x → s'.runHash r = some x

theorem Shows.unique {key : String} {l l' : ShownLayout} {hash' : UInt64} (h : s.Shows key l hash)
    (h' : s.Shows key l' hash') : l = l' ∧ hash = hash' := by
  obtain ⟨-, v, hv, rfl, rfl⟩ := h
  obtain ⟨-, v', hv', rfl, rfl⟩ := h'
  rw [hv] at hv'
  cases hv'
  exact ⟨rfl, rfl⟩

namespace Grows

theorem refl (s : LayoutWorld) : Grows s s := ⟨id, id⟩

theorem trans {t u : LayoutWorld} (h : Grows s t) (h' : Grows t u) : Grows s u :=
  ⟨fun hs => h'.shows (h.shows hs), fun hr => h'.runs (h.runs hr)⟩

theorem settled (h : Grows s s') {key : String} (hs : s.Settled key) : s'.Settled key := by
  obtain ⟨l, hash, hs⟩ := hs
  exact ⟨l, hash, h.shows hs⟩

end Grows

theorem grows_setHandle (s : LayoutWorld) (i : Nat) (h : LayoutHandle) :
    Grows s (s.setHandle i h) := ⟨id, id⟩

theorem runHash_addHandle (s : LayoutWorld) (q r : Nat) :
    (s.addHandle q).runHash r = s.runHash r := by
  simp only [runHash, addHandle, List.getElem?_modify]
  cases s.runs[r]? with
  | none => rfl
  | some c => by_cases hq : q = r <;> simp [hq, coldLayoutHash]

theorem grows_addHandle (s : LayoutWorld) (q : Nat) : Grows s (s.addHandle q) :=
  ⟨id, fun {r _} hr => by rw [runHash_addHandle]; exact hr⟩

theorem grows_detach (s : LayoutWorld) (q : Nat) : Grows s (s.detach q) := by
  unfold detach
  split
  · exact .refl s
  · rename_i c hc
    have hset : ∀ r, ((s.runs.set q { c with handles := c.handles - 1 })[r]?).map coldLayoutHash =
        s.runHash r := by
      intro r
      rw [runHash, List.getElem?_set]
      by_cases hq : q = r
      · subst hq
        obtain ⟨hlt, rfl⟩ := List.getElem?_eq_some_iff.1 hc
        simp [hlt, coldLayoutHash]
      · simp [hq]
    dsimp only
    split
    · exact ⟨id, fun {r _} hr => (hset r).trans hr⟩
    · exact ⟨id, fun {r _} hr => (hset r).trans hr⟩

@[simp] theorem handles_setHandle (s : LayoutWorld) (i : Nat) (h : LayoutHandle) :
    (s.setHandle i h).handles = Function.update s.handles i (some h) := rfl

@[simp] theorem handles_addHandle (s : LayoutWorld) (r : Nat) :
    (s.addHandle r).handles = s.handles := rfl

@[simp] theorem handles_detach (s : LayoutWorld) (r : Nat) : (s.detach r).handles = s.handles := by
  unfold detach
  split
  · rfl
  · dsimp only
    split <;> rfl

/-! ### The invariant -/

variable {h : LayoutHandle} {cx : SetupCx}

/-- What holds all through a `coldAttach`. -/
def AttachOk (s : LayoutWorld) (h : LayoutHandle) (mode : AttachMode) (hash : UInt64) : Prop :=
  match mode with
  | .matched => h.pass ≤ 1 ∧ s.Shows h.file.key .slot hash
  | _ => h.pass = 0

/-- What a handle has established where it stands: it follows a layout only after it saw it
recorded, and goes round only after a rewritten layout was recorded. -/
def PcOk (s : LayoutWorld) (h : LayoutHandle) : ChoosePc → Prop
  | .look => h.pass = 0 ∨ h.pass = 1 ∧ s.Settled h.file.key
  | .attach mode hash => AttachOk s h mode hash
  | .build mode hash => AttachOk s h mode hash
  | .enter mode hash run => AttachOk s h mode hash ∧ (mode = .matched → coldLayoutHash run = hash)
  | .openShown hash => h.pass ≤ 1 ∧ s.Shows h.file.key .compact hash
  | .noteSlot r => h.pass = 0 ∧ ∃ x, s.runHash r = some x
  | .detach _ => h.pass = 0 ∧ s.Settled h.file.key
  | .done => h.pass ≤ 1
  | .closed => h.pass ≤ 1
  | _ => h.pass = 0

/-- The handle has its answer. -/
def finished : ChoosePc → Bool
  | .done => true
  | .closed => true
  | _ => false

structure HandleOk (s : LayoutWorld) (h : LayoutHandle) : Prop where
  pcOk : PcOk s h h.pc
  view : ∀ v, h.view = some v → s.Shows h.file.key .compact (compactId v)
  cold : ∀ r, h.cold = some r → ∃ x, s.runHash r = some x ∧ s.Shows h.file.key .slot x
  empty : finished h.pc = false → h.view = none ∧ h.cold = none
  one : h.view = none ∨ h.cold = none
  capped : h.capped = false

/-- How many steps a handle can still take from a place in the loop. -/
def stepsLeft (pass : Nat) : ChoosePc → Nat
  | .look => if pass = 0 then 14 else 4
  | .attach .existing _ => 13
  | .build .existing _ => 12
  | .enter .existing _ _ => 11
  | .openView => 10
  | .attach .create _ => 9
  | .build .create _ => 8
  | .enter .create _ _ => 7
  | .noteCompact _ => 6
  | .noteSlot _ => 6
  | .noteOriginal => 6
  | .detach _ => 5
  | .attach .matched _ => 3
  | .build .matched _ => 2
  | .enter .matched _ _ => 1
  | .openShown _ => 1
  | .done => 0
  | .closed => 0

def rank (h : LayoutHandle) : Nat := stepsLeft h.pass h.pc

theorem AttachOk.mono (hg : Grows s s') {mode : AttachMode} (hok : AttachOk s h mode hash) :
    AttachOk s' h mode hash := by
  cases mode with
  | matched => exact hok.imp_right hg.shows
  | existing => exact hok
  | create => exact hok

theorem PcOk.mono (hg : Grows s s') {pc : ChoosePc} (hok : PcOk s h pc) : PcOk s' h pc := by
  cases pc with
  | look => exact hok.imp id (And.imp_right hg.settled)
  | attach mode hash => exact AttachOk.mono hg hok
  | build mode hash => exact AttachOk.mono hg hok
  | enter mode hash run => exact ⟨AttachOk.mono hg hok.1, hok.2⟩
  | openShown hash => exact hok.imp_right hg.shows
  | noteSlot r => exact hok.imp_right fun ⟨x, hx⟩ => ⟨x, hg.runs hx⟩
  | detach r => exact hok.imp_right hg.settled
  | openView => exact hok
  | noteCompact v => exact hok
  | noteOriginal => exact hok
  | done => exact hok
  | closed => exact hok

theorem PcOk.pass_le {pc : ChoosePc} (hok : PcOk s h pc) : h.pass ≤ 1 := by
  have hzero : h.pass = 0 → h.pass ≤ 1 := by omega
  have hattach : ∀ {mode hash}, AttachOk s h mode hash → h.pass ≤ 1 := by
    intro mode hash hat
    cases mode with
    | matched => exact hat.1
    | existing => exact hzero hat
    | create => exact hzero hat
  cases pc with
  | look => rcases hok with h0 | h1 <;> omega
  | attach mode hash => exact hattach hok
  | build mode hash => exact hattach hok
  | enter mode hash run => exact hattach hok.1
  | openShown hash => exact hok.1
  | noteSlot r => exact hzero hok.1
  | detach r => exact hzero hok.1
  | openView => exact hzero hok
  | noteCompact v => exact hzero hok
  | noteOriginal => exact hzero hok
  | done => exact hok
  | closed => exact hok

theorem HandleOk.mono (hg : Grows s s') (hok : HandleOk s h) : HandleOk s' h where
  pcOk := hok.pcOk.mono hg
  view v hv := hg.shows (hok.view v hv)
  cold r hr := by
    obtain ⟨x, hx, hs⟩ := hok.cold r hr
    exact ⟨x, hg.runs hx, hg.shows hs⟩
  empty := hok.empty
  one := hok.one
  capped := hok.capped

/-- What one step of handle `i` does to the process. -/
structure Moves (s : LayoutWorld) (i : Nat) (h : LayoutHandle) (s' : LayoutWorld) : Prop where
  grows : Grows s s'
  next : ∃ h', s'.handles = Function.update s.handles i (some h') ∧ HandleOk s' h' ∧
    rank h' < rank h

section Steps

variable {s : LayoutWorld} {i : Nat} {h : LayoutHandle}

/-- A handle that is still choosing goes to another place in the loop. -/
theorem HandleOk.goes (hok : HandleOk s h) (hbusy : finished h.pc = false) {pc : ChoosePc}
    (hpc : PcOk s h pc) : HandleOk s { h with pc := pc } where
  pcOk := by
    -- what holds at a place reads the handle's file and pass only
    cases pc <;> exact hpc
  view := hok.view
  cold := hok.cold
  empty _ := hok.empty hbusy
  one := hok.one
  capped := hok.capped

/-- A handle goes round: it has seen a rewritten layout recorded. -/
theorem HandleOk.again (hok : HandleOk s h) (hbusy : finished h.pc = false) (hzero : h.pass = 0)
    (hset : s.Settled h.file.key) : HandleOk s (again h) where
  pcOk := .inr ⟨by simp [LayoutWorld.again, hzero], hset⟩
  view := hok.view
  cold := hok.cold
  empty _ := hok.empty hbusy
  one := hok.one
  capped := hok.capped

/-- A handle gets a slot run, or none. -/
theorem HandleOk.gotCold (hok : HandleOk s h) (hbusy : finished h.pc = false) (hpass : h.pass ≤ 1)
    {r : Option Nat} (hr : ∀ q ∈ r, ∃ x, s.runHash q = some x ∧ s.Shows h.file.key .slot x) :
    HandleOk s { h with pc := .done, cold := r } where
  pcOk := hpass
  view := hok.view
  cold := hr
  empty hdone := by cases hdone
  one := .inl (hok.empty hbusy).1
  capped := hok.capped

/-- A handle gets a replica, or none. -/
theorem HandleOk.gotView (hok : HandleOk s h) (hbusy : finished h.pc = false) (hpass : h.pass ≤ 1)
    {v : Option ReplicaMeta} (hv : ∀ m ∈ v, s.Shows h.file.key .compact (compactId m)) :
    HandleOk s { h with pc := .done, view := v } where
  pcOk := hpass
  view := hv
  cold := hok.cold
  empty hdone := by cases hdone
  one := .inr (hok.empty hbusy).2
  capped := hok.capped

/-- Only the handle moves. -/
theorem Moves.stay {h' : LayoutHandle} (hok : HandleOk s h') (hrank : rank h' < rank h) :
    Moves s i h (s.setHandle i h') :=
  ⟨grows_setHandle s i h', h', rfl, hok.mono (grows_setHandle s i h'), hrank⟩

/-- The process changes, and then the handle moves. -/
theorem Moves.after {t : LayoutWorld} {h' : LayoutHandle} (hg : Grows s t)
    (hsame : t.handles = s.handles) (hok : HandleOk t h') (hrank : rank h' < rank h) :
    Moves s i h (t.setHandle i h') :=
  ⟨hg.trans (grows_setHandle t i h'), h', by simp [hsame],
    hok.mono (grows_setHandle t i h'), hrank⟩

/-- A look follows a rewritten layout that was recorded, and tries for one otherwise. -/
theorem stepLook_cases (s : LayoutWorld) (i : Nat) (h : LayoutHandle) :
    (∃ hash, s.Shows h.file.key .slot hash ∧
      s.stepLook i h = s.setHandle i { h with pc := .attach .matched hash }) ∨
    (∃ hash, s.Shows h.file.key .compact hash ∧
      s.stepLook i h = s.setHandle i { h with pc := .openShown hash }) ∨
    (¬ s.Settled h.file.key ∧
      s.stepLook i h =
        if 3 ≤ h.pass then s.setHandle i { h with pc := .done, capped := true }
        else s.setHandle i { h with pc := .attach .existing 0 }) := by
  unfold stepLook
  cases hv : s.shown h.file.key with
  | none =>
      refine .inr (.inr ⟨?_, rfl⟩)
      rintro ⟨l, hash, -, v, hs, -⟩
      rw [hv] at hs
      cases hs
  | some v =>
      obtain ⟨layout, hash, factor, codecs⟩ := v
      have hopen : ¬ layout.Rewritten → ¬ s.Settled h.file.key := by
        rintro hrew ⟨l, x, hl, v, hs, rfl, -⟩
        rw [hv] at hs
        cases hs
        exact hrew hl
      cases layout with
      | none => exact .inr (.inr ⟨hopen (by decide), rfl⟩)
      | original => exact .inr (.inr ⟨hopen (by decide), rfl⟩)
      | compact => exact .inr (.inl ⟨hash, ⟨.inl rfl, _, hv, rfl, rfl⟩, rfl⟩)
      | slot => exact .inl ⟨hash, ⟨.inr rfl, _, hv, rfl, rfl⟩, rfl⟩

theorem stepLook_moves (hok : HandleOk s h) (hpc : h.pc = .look) :
    Moves s i h (s.stepLook i h) := by
  have hbusy : finished h.pc = false := by rw [hpc]; rfl
  have hlook : h.pass = 0 ∨ h.pass = 1 ∧ s.Settled h.file.key := by
    have := hok.pcOk
    rwa [hpc] at this
  have hpass : h.pass ≤ 1 := by omega
  have hrank : 4 ≤ rank h := by
    rw [rank, hpc, stepsLeft]
    split <;> omega
  rcases stepLook_cases s i h with ⟨hash, hs, heq⟩ | ⟨hash, hs, heq⟩ | ⟨hs, heq⟩
  · rw [heq]
    exact .stay (hok.goes hbusy ⟨hpass, hs⟩) (by show 3 < rank h; omega)
  · rw [heq]
    exact .stay (hok.goes hbusy ⟨hpass, hs⟩) (by show 1 < rank h; omega)
  · -- nothing rewritten was recorded: this is the first pass
    have hzero : h.pass = 0 := hlook.resolve_right fun h1 => hs h1.2
    rw [heq, if_neg (by omega)]
    exact .stay (hok.goes hbusy hzero) (by simp [rank, stepsLeft, hpc, hzero])

/-- A run that a handle joins is there, and has the layout asked for. -/
theorem registered_inv {f : SetupFile} {mode : AttachMode} {r : Nat}
    (h : s.registered f mode hash = some r) :
    ∃ x, s.runHash r = some x ∧ (mode = .matched → x = hash) := by
  obtain ⟨-, hany⟩ := Option.filter_eq_some_iff.1 h
  obtain ⟨run, hrun, hjoin⟩ := (Option.any_eq_true _ _).1 hany
  refine ⟨coldLayoutHash run, by rw [runHash, hrun]; rfl, ?_⟩
  rintro rfl
  simp only [joinable, Bool.and_eq_true] at hjoin
  simpa using hjoin.2

theorem HandleOk.attached (hok : HandleOk s h) (hbusy : finished h.pc = false) {mode : AttachMode}
    (hat : AttachOk s h mode hash) {r : Option Nat}
    (hr : ∀ q ∈ r, ∃ x, s.runHash q = some x ∧ (mode = .matched → x = hash)) :
    HandleOk s (attached h mode r) := by
  cases mode with
  | matched =>
      refine hok.gotCold hbusy hat.1 ?_
      intro q hq
      obtain ⟨x, hx, heq⟩ := hr q hq
      rw [heq rfl] at hx
      exact ⟨hash, hx, hat.2⟩
  | existing =>
      cases r with
      | none => exact hok.goes hbusy hat
      | some q => exact hok.goes hbusy ⟨hat, (hr q rfl).imp fun _ hx => hx.1⟩
  | create =>
      cases r with
      | none => exact hok.goes hbusy hat
      | some q => exact hok.goes hbusy ⟨hat, (hr q rfl).imp fun _ hx => hx.1⟩

/-- A handle joins the run that the registry has. -/
theorem joined_moves {mode : AttachMode} {r : Nat} (hok : HandleOk s h)
    (hbusy : finished h.pc = false) (hat : AttachOk s h mode hash)
    (hr : s.registered h.file mode hash = some r)
    (hrank : rank (attached h mode (some r)) < rank h) :
    Moves s i h ((s.addHandle r).setHandle i (attached h mode (some r))) := by
  have hg := grows_addHandle s r
  have hrun : ∀ q ∈ some r, ∃ x, (s.addHandle r).runHash q = some x ∧ (mode = .matched → x = hash) := by
    intro q hq
    cases hq
    obtain ⟨x, hx, hm⟩ := registered_inv hr
    exact ⟨x, hg.runs hx, hm⟩
  exact .after hg rfl ((hok.mono hg).attached hbusy (hat.mono hg) hrun) hrank

theorem stepAttach_moves {mode : AttachMode} (hok : HandleOk s h) (hpc : h.pc = .attach mode hash) :
    Moves s i h (s.stepAttach i h mode hash) := by
  have hbusy : finished h.pc = false := by rw [hpc]; rfl
  have hat : AttachOk s h mode hash := by
    have := hok.pcOk
    rwa [hpc] at this
  unfold stepAttach
  split
  · rename_i r hr
    refine joined_moves hok hbusy hat hr ?_
    rw [rank, rank, hpc]
    cases mode <;> simp [attached, stepsLeft]
  · refine .stay (hok.goes hbusy hat) ?_
    rw [rank, rank, hpc]
    cases mode <;> simp [stepsLeft]

theorem stepBuild_moves {mode : AttachMode} {w : BuildSeen} (hok : HandleOk s h)
    (hpc : h.pc = .build mode hash) : Moves s i h (s.stepBuild cx i h mode hash w) := by
  have hbusy : finished h.pc = false := by rw [hpc]; rfl
  have hat : AttachOk s h mode hash := by
    have := hok.pcOk
    rwa [hpc] at this
  unfold stepBuild
  split
  · rename_i run hrun
    have hmatch : mode = .matched → coldLayoutHash run = hash := by
      rintro rfl
      exact build_matched hrun
    refine .stay (hok.goes hbusy ⟨hat, hmatch⟩) ?_
    rw [rank, rank, hpc]
    cases mode <;> simp [stepsLeft]
  · refine .stay (hok.attached hbusy hat (by simp)) ?_
    rw [rank, rank, hpc]
    cases mode <;> simp [attached, stepsLeft]

theorem stepEnter_moves {mode : AttachMode} {run : SlotRun} (hok : HandleOk s h)
    (hpc : h.pc = .enter mode hash run) : Moves s i h (s.stepEnter i h mode hash run) := by
  have hbusy : finished h.pc = false := by rw [hpc]; rfl
  obtain ⟨hat, hmatch⟩ : AttachOk s h mode hash ∧ (mode = .matched → coldLayoutHash run = hash) := by
    have := hok.pcOk
    rwa [hpc] at this
  have hrank : ∀ r, rank (attached h mode (some r)) < rank h := by
    intro r
    rw [rank, rank, hpc]
    cases mode <;> simp [attached, stepsLeft]
  unfold stepEnter
  split
  · rename_i r hr
    exact joined_moves hok hbusy hat hr (hrank r)
  · -- the run that was built is registered, under a number of its own
    have hg : Grows s
        { s with
          runs := s.runs ++ [{ run with handles := 1 }]
          registry := Function.update s.registry h.file.key (some s.runs.length) } := by
      refine ⟨id, ?_⟩
      intro r x hx
      obtain ⟨c, hc, hcx⟩ := Option.map_eq_some_iff.1 hx
      obtain ⟨hlt, -⟩ := List.getElem?_eq_some_iff.1 hc
      simpa [runHash, List.getElem?_append_left hlt, hc] using hcx
    refine .after hg rfl ((hok.mono hg).attached hbusy (hat.mono hg) ?_) (hrank _)
    intro q hq
    cases hq
    exact ⟨coldLayoutHash run, by simp [runHash, coldLayoutHash], hmatch⟩

/-- The process after a layout was noted. -/
def noted (s : LayoutWorld) (key : String) (l : ShownLayout) (hash : UInt64)
    (run : Option SlotRun) : LayoutWorld :=
  { s with
    shown := Function.update s.shown key (some (noteShownLayout (s.shown key) l hash run)) }

theorem grows_noted (s : LayoutWorld) (key : String) (l : ShownLayout) (hash : UInt64)
    (run : Option SlotRun) : Grows s (s.noted key l hash run) := by
  refine ⟨?_, id⟩
  rintro key' l' hash' ⟨hrew, v, hv, rfl, rfl⟩
  refine ⟨hrew, v, ?_, rfl, rfl⟩
  by_cases hkey : key' = key
  · subst hkey
    simp [noted, hv, noteShownLayout_rewritten hrew]
  · simp [noted, hkey, hv]

/-- Who notes a layout sees it recorded, or learns of a rewritten one that was. -/
theorem stepNote_moves {l : ShownLayout} {run : Option SlotRun} {won lost : LayoutHandle}
    (hwon : (l.Rewritten → (s.noted h.file.key l hash run).Shows h.file.key l hash) →
      HandleOk (s.noted h.file.key l hash run) won)
    (hlost : (s.noted h.file.key l hash run).Settled h.file.key →
      HandleOk (s.noted h.file.key l hash run) lost)
    (hrank : rank won < rank h ∧ rank lost < rank h) :
    Moves s i h (s.stepNote i h l hash run won lost) := by
  have hself : (s.noted h.file.key l hash run).shown h.file.key =
      some (noteShownLayout (s.shown h.file.key) l hash run) := by simp [noted]
  have hg := grows_noted s h.file.key l hash run
  unfold stepNote
  dsimp only
  split
  · rename_i hw
    refine .after hg rfl (hwon ?_) hrank.1
    intro hrew
    refine ⟨hrew, _, hself, hw.1, hw.2.resolve_left ?_⟩
    rintro rfl
    exact absurd hrew (by decide)
  · rename_i hl
    refine .after hg rfl (hlost ?_) hrank.2
    rcases noteShownLayout_cases (s.shown h.file.key) l hash run with hc | ⟨hrew, -⟩
    · exact absurd ⟨hc.1, .inr hc.2⟩ hl
    · exact ⟨_, _, hrew, _, hself, rfl, rfl⟩

/-- One step of a handle that is still choosing. -/
theorem stepHandle_moves {e : LayoutSeen} (hok : HandleOk s h)
    (hstep : s.stepHandle cx i h e h.pc = some s') : Moves s i h s' := by
  have hpcOk := hok.pcOk
  cases hpc : h.pc with
  | look =>
      rw [hpc] at hstep
      cases hstep
      exact stepLook_moves hok hpc
  | attach mode hash =>
      rw [hpc] at hstep
      cases hstep
      exact stepAttach_moves hok hpc
  | build mode hash =>
      rw [hpc] at hstep
      cases hstep
      exact stepBuild_moves hok hpc
  | enter mode hash run =>
      rw [hpc] at hstep
      cases hstep
      exact stepEnter_moves hok hpc
  | openShown hash =>
      rw [hpc] at hstep hpcOk
      cases hstep
      refine .stay (hok.gotView (by rw [hpc]; rfl) hpcOk.1 ?_) (by simp [rank, hpc, stepsLeft])
      intro m hm
      obtain ⟨-, hid⟩ := Option.filter_eq_some_iff.1 hm
      rw [of_decide_eq_true hid]
      exact hpcOk.2
  | openView =>
      rw [hpc] at hstep hpcOk
      cases hstep
      have hbusy : finished h.pc = false := by rw [hpc]; rfl
      unfold stepOpenView
      split
      · exact .stay (hok.goes hbusy hpcOk) (by simp [rank, hpc, stepsLeft])
      · split
        · exact .stay (hok.goes hbusy hpcOk) (by simp [rank, hpc, stepsLeft])
        · exact .stay (hok.goes hbusy hpcOk) (by simp [rank, hpc, stepsLeft])
  | noteCompact v =>
      rw [hpc] at hstep hpcOk
      cases hstep
      have hbusy : finished h.pc = false := by rw [hpc]; rfl
      have hg := grows_noted s h.file.key .compact (compactId v) none
      have hzero : h.pass = 0 := hpcOk
      refine stepNote_moves (fun hs => ?_) (fun hset => (hok.mono hg).again hbusy hzero hset)
        (by simp [rank, hpc, stepsLeft, again])
      refine (hok.mono hg).gotView hbusy (by omega) ?_
      intro m hm
      cases hm
      exact hs (.inl rfl)
  | noteSlot r =>
      rw [hpc] at hstep hpcOk
      obtain ⟨run, hrun, rfl⟩ := Option.map_eq_some_iff.1 hstep
      have hbusy : finished h.pc = false := by rw [hpc]; rfl
      have hg := grows_noted s h.file.key .slot (coldLayoutHash run) (some run)
      have hzero : h.pass = 0 := hpcOk.1
      refine stepNote_moves (fun hs => ?_)
        (fun hset => (hok.mono hg).goes hbusy ⟨hpcOk.1, hset⟩) (by simp [rank, hpc, stepsLeft])
      refine (hok.mono hg).gotCold hbusy (by omega) ?_
      intro q hq
      cases hq
      exact ⟨_, hg.runs (by rw [runHash, hrun]; rfl), hs (.inr rfl)⟩
  | detach r =>
      rw [hpc] at hstep hpcOk
      cases hstep
      have hg := grows_detach s r
      exact .after hg (by simp)
        ((hok.mono hg).again (by rw [hpc]; rfl) hpcOk.1 (hg.settled hpcOk.2))
        (by simp [rank, hpc, stepsLeft, again])
  | noteOriginal =>
      rw [hpc] at hstep hpcOk
      cases hstep
      have hbusy : finished h.pc = false := by rw [hpc]; rfl
      have hg := grows_noted s h.file.key .original 0 none
      have hzero : h.pass = 0 := hpcOk
      refine stepNote_moves (fun _ => (hok.mono hg).goes hbusy ?_)
        (fun hset => (hok.mono hg).again hbusy hzero hset) (by simp [rank, hpc, stepsLeft, again])
      exact (by omega : h.pass ≤ 1)
  | done =>
      rw [hpc] at hstep
      cases hstep
  | closed =>
      rw [hpc] at hstep
      cases hstep

end Steps

/-! ### Runs -/

/-- Every handle has established what it relies on. -/
def Inv (s : LayoutWorld) : Prop := ∀ i h, s.handles i = some h → HandleOk s h

/-- The invariant after one handle moved. -/
theorem Inv.update (hinv : s.Inv) (hg : Grows s s') {i : Nat}
    (hs : s'.handles = Function.update s.handles i (some h)) (hok : HandleOk s' h) : s'.Inv := by
  intro j h' hj
  rw [hs] at hj
  by_cases hji : j = i
  · subst hji
    rw [Function.update_self] at hj
    cases hj
    exact hok
  · rw [Function.update_of_ne hji] at hj
    exact (hinv j h' hj).mono hg

/-- How many steps handle `i` can still take. -/
def rankAt (s : LayoutWorld) (i : Nat) : Nat := ((s.handles i).map rank).getD 14

/-- Is the action a step of handle `i`? -/
def stepOf (i : Nat) : LayoutAct → Bool
  | .run j _ => j == i
  | _ => false

theorem rankAt_update {i : Nat} (hs : s'.handles = Function.update s.handles i (some h)) (j : Nat) :
    s'.rankAt j = if j = i then rank h else s.rankAt j := by
  rw [rankAt, hs]
  by_cases hji : j = i
  · subst hji
    simp
  · simp [hji, rankAt]

/-- What one step of the process keeps, and what it costs the handle that takes it. -/
theorem step_inv {a : LayoutAct} (hinv : s.Inv) (hstep : s.step cx a = some s') :
    s'.Inv ∧ Grows s s' ∧ ∀ j, s'.rankAt j + (stepOf j a).toNat ≤ s.rankAt j := by
  cases a with
  | start i file =>
      rw [step] at hstep
      split at hstep
      · rename_i hnone
        cases hstep
        have hg := grows_setHandle s i { file := file }
        have hok : HandleOk (s.setHandle i { file := file }) { file := file } :=
          ⟨.inl rfl, by simp, by simp, by simp, by simp, rfl⟩
        refine ⟨hinv.update hg rfl hok, hg, fun j => ?_⟩
        rw [rankAt_update rfl]
        split
        · rename_i hj
          subst hj
          simp [rankAt, hnone, rank, stepsLeft, stepOf]
        · simp [stepOf]
      · cases hstep
  | run i e =>
      obtain ⟨h, hh, hstep⟩ := Option.bind_eq_some_iff.1 hstep
      obtain ⟨hg, h', hs, hok, hrank⟩ := stepHandle_moves (hinv i h hh) hstep
      refine ⟨hinv.update hg hs hok, hg, fun j => ?_⟩
      rw [rankAt_update hs]
      split
      · rename_i hj
        subst hj
        simpa [rankAt, hh, stepOf] using Nat.succ_le_of_lt hrank
      · rename_i hj
        simp [stepOf, Ne.symm hj]
  | close i =>
      obtain ⟨h, hh, hstep⟩ := Option.bind_eq_some_iff.1 hstep
      split at hstep
      · rename_i hdone
        cases hstep
        have hok := hinv i h hh
        have hpass : h.pass ≤ 1 := by
          have := hok.pcOk
          rwa [hdone] at this
        have hclosed : ∀ {t : LayoutWorld}, HandleOk t h → HandleOk t { h with pc := .closed } :=
          fun hok => ⟨hpass, hok.view, hok.cold, by simp [finished], hok.one, hok.capped⟩
        have hdetach : Grows s ((h.cold.map s.detach).getD s) ∧
            ((h.cold.map s.detach).getD s).handles = s.handles := by
          cases h.cold with
          | none => exact ⟨.refl s, rfl⟩
          | some r => exact ⟨grows_detach s r, by simp⟩
        have hg := hdetach.1.trans
          (grows_setHandle ((h.cold.map s.detach).getD s) i { h with pc := .closed })
        have hs : (((h.cold.map s.detach).getD s).setHandle i { h with pc := .closed }).handles =
            Function.update s.handles i (some { h with pc := .closed }) := by simp [hdetach.2]
        refine ⟨hinv.update hg hs (hclosed (hok.mono hg)), hg, fun j => ?_⟩
        rw [rankAt_update hs]
        split
        · rename_i hj
          subst hj
          simp [rankAt, hh, rank, stepsLeft, hdone, stepOf]
        · simp [stepOf]
      · cases hstep

/-- What every reachable state of the process meets: what each handle relies on, what was shown
before, and a bound on the steps that each handle took. -/
theorem exec_inv {acts : List LayoutAct} (hinv : s.Inv) (hrun : exec (step cx) s acts = some s') :
    s'.Inv ∧ Grows s s' ∧ ∀ j, s'.rankAt j + acts.countP (stepOf j) ≤ s.rankAt j := by
  refine exec_history (fun past t => t.Inv ∧ Grows s t ∧
    ∀ j, t.rankAt j + past.countP (stepOf j) ≤ s.rankAt j) ?_ [] ⟨hinv, .refl s, by simp⟩ hrun
  rintro past t a u ⟨ht, hg, hcount⟩ hstep
  obtain ⟨hu, hg', hcost⟩ := step_inv ht hstep
  refine ⟨hu, hg.trans hg', fun j => ?_⟩
  have h₁ := hcount j
  have h₂ := hcost j
  rw [List.countP_append, List.countP_singleton]
  cases hj : stepOf j a <;> simp [hj] at h₂ ⊢ <;> omega

theorem inv_init : ({} : LayoutWorld).Inv := by
  intro i h hh
  cases hh

/-- A handle that is still choosing can always take its next step. -/
theorem stepHandle_isSome {i : Nat} (hok : HandleOk s h) (hbusy : finished h.pc = false)
    (e : LayoutSeen) : (s.stepHandle cx i h e h.pc).isSome = true := by
  have hpcOk := hok.pcOk
  cases hpc : h.pc with
  | noteSlot r =>
      rw [hpc] at hpcOk
      obtain ⟨-, x, hx⟩ := hpcOk
      obtain ⟨run, hrun, -⟩ := Option.map_eq_some_iff.1 hx
      simp [stepHandle, hrun]
  | done => simp [finished, hpc] at hbusy
  | closed => simp [finished, hpc] at hbusy
  | _ => rfl

end LayoutWorld

/-- One address space per file per process.  In every run, with any number of handles choosing at
once and any stores and replicas found on the way: a rewritten layout that was recorded stays; a
handle that has a replica or a slot run has the one that is recorded, never both; a handle that ends
after a recording has that layout or the file as stored; the loop is left by its second pass, within
fourteen steps, and never by its cap. -/
theorem one_address_space (cx : SetupCx) {acts : List LayoutAct} {s : LayoutWorld}
    (hrun : exec (LayoutWorld.step cx) {} acts = some s) :
    (∀ i h, s.handles i = some h →
      (∀ v, h.view = some v → s.Shows h.file.key .compact (compactId v)) ∧
      (∀ r, h.cold = some r → ∃ run, s.runs[r]? = some run ∧
        s.Shows h.file.key .slot (coldLayoutHash run)) ∧
      (h.view = none ∨ h.cold = none) ∧ h.pass ≤ 1 ∧ h.capped = false ∧
      (LayoutWorld.finished h.pc = false → ∀ e, (s.step cx (.run i e)).isSome = true)) ∧
    (∀ i, acts.countP (LayoutWorld.stepOf i) ≤ 14) ∧
    ∀ key l hash, s.Shows key l hash → ∀ more s', exec (LayoutWorld.step cx) s more = some s' →
      s'.Shows key l hash ∧
      ∀ i h, s'.handles i = some h → h.file.key = key →
        (∀ v, h.view = some v → l = .compact ∧ compactId v = hash) ∧
        (∀ r, h.cold = some r → l = .slot ∧
          ∃ run, s'.runs[r]? = some run ∧ coldLayoutHash run = hash) := by
  obtain ⟨hinv, -, hcount⟩ := LayoutWorld.exec_inv LayoutWorld.inv_init hrun
  have hcold : ∀ {t : LayoutWorld} {h : LayoutHandle}, t.HandleOk h → ∀ r, h.cold = some r →
      ∃ run, t.runs[r]? = some run ∧ t.Shows h.file.key .slot (coldLayoutHash run) := by
    intro t h hok r hr
    obtain ⟨x, hx, hs⟩ := hok.cold r hr
    obtain ⟨run, hget, rfl⟩ := Option.map_eq_some_iff.1 hx
    exact ⟨run, hget, hs⟩
  refine ⟨fun i h hh => ?_, fun i => ?_, fun key l hash hs more s' hmore => ?_⟩
  · have hok := hinv i h hh
    refine ⟨hok.view, hcold hok, hok.one, hok.pcOk.pass_le, hok.capped, fun hbusy e => ?_⟩
    simpa [LayoutWorld.step, hh] using LayoutWorld.stepHandle_isSome hok hbusy e
  · have := hcount i
    simp only [LayoutWorld.rankAt, Option.map_none, Option.getD_none] at this
    omega
  · obtain ⟨hinv', hg, -⟩ := LayoutWorld.exec_inv hinv hmore
    refine ⟨hg.shows hs, fun i h hh hkey => ⟨fun v hv => ?_, fun r hr => ?_⟩⟩
    · have hshown := (hinv' i h hh).view v hv
      rw [hkey] at hshown
      obtain ⟨hl, hid⟩ := (hg.shows hs).unique hshown
      exact ⟨hl, hid.symm⟩
    · obtain ⟨run, hget, hshown⟩ := hcold (hinv' i h hh) r hr
      rw [hkey] at hshown
      obtain ⟨hl, hid⟩ := (hg.shows hs).unique hshown
      exact ⟨hl, run, hget, hid.symm⟩

section Witness

/-- A process that takes any store of the file's size, and a layout without slots. -/
def plainSetup : SetupCx where
  validate := .size
  recompressCodecs := []
  encoder := noEncoder
  decoders := noDecoders
  xxh3 := fun _ => 7

def plainLayout : ColdLayout where
  L := { originSize := 200, virtualSize := 200, metaSeek := 200, slotsBegin := 200 }

def plainFile : SetupFile := { key := "k", entry := 1, size := 200 }

/-- The store of another process. -/
def plainStore : OpenStore where
  header :=
    { layoutVersion := 3, originSize := 200, virtualSize := 200, slotFactor100 := 300
      layoutHash := 7 }
  blob := encodeLayout noEncoder 300 plainLayout

/-- What a handle meets: this store, this replica, no recompression. -/
def meets (opened : Option OpenStore) (view : Option ReplicaMeta) : LayoutSeen where
  build :=
    { opened := opened, newer := false, sidecar := false, computed := fun _ _ => .failed
      made := fun _ _ => .failed, sidecarAfter := false }
  view := view
  recompress := false

/-- Two handles choose at once.  One finds a store, the other, which looked before the store was
there, a replica; the store's layout is recorded first, and the other follows. -/
def racingHandles : List LayoutAct :=
  [.start 1 plainFile, .start 2 plainFile,
   .run 1 (meets none none), .run 2 (meets none none),
   .run 1 (meets none none), .run 2 (meets none none),
   .run 2 (meets none none), .run 1 (meets (some plainStore) none),
   .run 2 (meets none (some {})), .run 1 (meets none none),
   .run 1 (meets none none), .run 2 (meets none none),
   .run 2 (meets none none), .run 2 (meets none none)]

/-- Both handles end on the run of the store, whose layout is the one recorded. -/
theorem one_address_space_racing :
    ∃ s h₁ h₂, exec (LayoutWorld.step plainSetup) {} racingHandles = some s ∧
      s.handles 1 = some h₁ ∧ s.handles 2 = some h₂ ∧ h₁.cold = some 0 ∧ h₂.cold = some 0 ∧
      h₂.pass = 1 ∧ ∃ run, s.runs[0]? = some run ∧ s.Shows "k" .slot (coldLayoutHash run) := by
  have hends : (exec (LayoutWorld.step plainSetup) {} racingHandles).map (fun s =>
      decide ((s.handles 1).map (fun h => (h.file.key, h.cold)) = some ("k", some 0)) &&
        decide ((s.handles 2).map (fun h => (h.cold, h.pass)) = some (some 0, 1))) = some true := by
    decide +kernel
  obtain ⟨s, hrun, hs⟩ := Option.map_eq_some_iff.1 hends
  rw [Bool.and_eq_true, decide_eq_true_eq, decide_eq_true_eq] at hs
  obtain ⟨h₁, hh₁, hc₁⟩ := Option.map_eq_some_iff.1 hs.1
  obtain ⟨h₂, hh₂, hc₂⟩ := Option.map_eq_some_iff.1 hs.2
  obtain ⟨hkey, hcold₁⟩ := Prod.mk.inj hc₁
  obtain ⟨hcold₂, hpass⟩ := Prod.mk.inj hc₂
  have hok := (one_address_space plainSetup hrun).1 1 h₁ hh₁
  obtain ⟨run, hget, hshows⟩ := hok.2.1 0 hcold₁
  rw [hkey] at hshows
  exact ⟨s, h₁, h₂, hrun, hh₁, hh₂, hcold₁, hcold₂, hpass, run, hget, hshows⟩

end Witness

end UCache
