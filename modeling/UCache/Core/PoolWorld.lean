/-
Module: UCache.Core.PoolWorld
Purpose: All the entries of a process and the two process-wide counts of staged bytes.  Calls on any
  number of entries interleave; what a call has taken from or given to its entry's pools and not
  yet told the process-wide ones is owed, and the sums balance up to what is owed.
Trusted boundary: none
Main exports: PoolFrame, PoolFrame.step, stage_accounting
-/
import UCache.Core.StagePools

namespace UCache

open Lib

/-! ### Calls -/

/-- What a call has still to do.  A `readCached` past its planning section remembers the bytes it
unmarked, a drain the bytes of its snapshot; `addSpec` and `addBuf` are the atomic updates of the
process-wide counts. -/
inductive PoolFrame where
  | plain (fr : Frame)
  | reading (specServed off : Nat) (out : Bytes) (runs : List FileEntry.ReadRun) (account : Bool)
  | drainWrite (snapBytes : Nat) (todo : List (Nat × BufPage)) (done : List (Nat × UInt32))
      (force : Bool)
  | drainPublish (snapBytes : Nat) (done : List (Nat × UInt32)) (force : Bool)
  | addSpec (n : Int)
  | addBuf (n : Int)
  /-- The end of the destructor. -/
  | retire

/-- The outcome of a step on one entry: the entry, its disk, the frames that take the place of the
one that ran, and what the step itself did to the two process-wide counts. -/
structure PoolOut where
  e : FileEntry
  disk : Disk
  frames : List PoolFrame
  buf : Int := 0
  spec : Int := 0

namespace PoolFrame

/-- The sum `off + len` does not fit in 64 bits. -/
def wraps (off len : Nat) : Bool := decide (2 ^ 64 ≤ off + len)

/-- An update of a count, left out when there is nothing to move. -/
def addUnlessZero (add : Int → PoolFrame) (n : Int) : List PoolFrame :=
  if n = 0 then [] else [add n]

/-- `movePools` of `readCached` and the `covered` branch of `writePages`. -/
def movePools (n : Nat) : List PoolFrame :=
  addUnlessZero addSpec (-n) ++ addUnlessZero addBuf n

/-- Does the call go into the locked loop of `writePages`? -/
def stages (e : FileEntry) (off : Nat) (bytes : Bytes) : Bool :=
  !(bytes.isEmpty || decide (min (off + bytes.length) e.meta_.fileSize ≤ off) ||
    decide (e.cfg.fillBufferMb ≤ 0))

/-- [SRC FileEntry.cc:538-548] -/
def writeMoves (e : FileEntry) (off : Nat) (bytes : Bytes) : List PoolFrame :=
  if stages e off bytes then
    movePools (e.coveredBytes off bytes) ++ addUnlessZero addBuf (e.stagedBytes off bytes)
  else []

/-- `specServed` of a call, zero where it returns before its loop. -/
def specServed (e : FileEntry) (off : Nat) (buf : Bytes) (account : Bool) : Nat :=
  if buf.isEmpty || decide (e.meta_.fileSize < off + buf.length) then 0
  else e.readServed off buf account

/-- A section that makes no move of its own. -/
def lift (r : FileEntry × Disk × List Frame) : PoolOut :=
  { e := r.1
    disk := r.2.1
    frames := r.2.2.map plain }

/-- A call that returns at once. -/
def skip (e : FileEntry) (d : Disk) : PoolOut :=
  { e := e
    disk := d
    frames := [] }

/-- The frames of a drain, with the bytes of its snapshot. -/
def ofDrain (snapBytes : Nat) : Frame → PoolFrame
  | .drainWrite todo done force => .drainWrite snapBytes todo done force
  | .drainPublish done force => .drainPublish snapBytes done force
  | fr => .plain fr

/-- After the planning section: the runs that are left, or the exit at an absent page. -/
def afterPlan (served : Nat) : List Frame → List PoolFrame
  | [.readRuns off out runs account] => [.reading served off out runs account]
  | frames => movePools served ++ frames.map plain

/-- After a run: the next one, the exit of a run that failed, or the end. -/
def afterRun (served : Nat) (last : Bool) : List Frame → List PoolFrame
  | [.readRuns off out runs account] => [.reading served off out runs account]
  | frames =>
      if last then movePools served ++ frames.map plain else frames.map plain ++ movePools served

/-- The sections that touch the pools, with the order the source has for the updates of the
process-wide counts; every other section or system call as it is. -/
def plainStep (c : Choice) (e : FileEntry) (d : Disk) : Frame → Option PoolOut
  | .writePages off bytes =>
      if wraps off bytes.length then some (skip e d)
      else
        let r := Frame.stepWritePages e d off bytes
        some { e := r.1, disk := r.2.1, frames := writeMoves e off bytes ++ r.2.2.map plain }
  | .stageSpeculative off bytes =>
      if wraps off bytes.length then some (skip e d)
      else
        some
          { e := e.stageSpeculative off bytes
            disk := d
            frames := addUnlessZero addSpec (e.specStagedBytes off bytes) }
  | .dropSpeculative off len =>
      if wraps off len then some (skip e d)
      else
        some
          { e := e.dropSpeculative off len
            disk := d
            frames := addUnlessZero addSpec (-e.droppedBytes off len) }
  | .consumeSpeculative off len =>
      if wraps off len then some (skip e d)
      else
        some
          { e := e.consumeSpeculative off len
            disk := d
            frames := addUnlessZero addSpec (-e.consumedBytes off len) }
  | .releaseRanges ranges =>
      -- The counts move inside the loop, page by page, under the lock.
      let r := Frame.stepReleaseRanges e d ranges
      some
        { e := r.1
          disk := r.2.1
          frames := r.2.2.map plain
          buf := -e.releasedBytes false ranges
          spec := -e.releasedBytes true ranges }
  | .readCached off buf account =>
      if wraps off buf.length then some (skip e d)
      else
        let r := Frame.stepReadCached e d off buf account
        some
          { e := r.1
            disk := r.2.1
            frames := afterPlan (specServed e off buf account) r.2.2 }
  | .flushBuffer force =>
      (Frame.stepFlushBuffer c e d force).map fun r =>
        { e := r.1
          disk := r.2.1
          frames := r.2.2.map (ofDrain e.bufBytes) }
  | fr => (fr.step c e d).map lift

/-- One step of a call on an entry.  `retire` ends the entry and is not a step on it. -/
def step (c : Choice) (e : FileEntry) (d : Disk) : PoolFrame → Option PoolOut
  | .plain fr => plainStep c e d fr
  | .reading served off out runs account =>
      let r := Frame.stepReadRuns c e d off out runs account
      some
        { e := r.1
          disk := r.2.1
          frames := afterRun served runs.isEmpty r.2.2 }
  | .drainWrite snapBytes todo done force =>
      let r := Frame.stepDrainWrite c e d todo done force
      some
        { e := r.1
          disk := r.2.1
          frames := r.2.2.map (ofDrain snapBytes) }
  | .drainPublish snapBytes done force =>
      some
        { e := e.drainPublish done
          disk := d
          frames := addUnlessZero addBuf (-snapBytes) ++ [.plain (.flushMeta force)] }
  | .addSpec n =>
      some
        { e := e
          disk := d
          frames := []
          spec := n }
  | .addBuf n =>
      some
        { e := e
          disk := d
          frames := []
          buf := n }
  | .retire => none

end PoolFrame

/-! ### The process -/

/-- An entry and the calls made on it, each with what it has still to do. -/
structure PoolEntry where
  e : FileEntry
  disk : Disk
  calls : List (List PoolFrame) := []
  closing : Bool := false

/-- The entries of the process, an entry that was destroyed leaving a hole, and the two counts:
unsigned 64-bit and wrapping, as the atomics are. -/
structure PoolWorld where
  entries : List (Option PoolEntry) := []
  bufTotal : BitVec 64 := 0
  specTotal : BitVec 64 := 0

inductive PoolAct where
  | open_ (cfg : Config) (key : Bytes) (v : Validators) (now : Nat) (stored : Bool)
      (sidecar : Option MetaData) (data : DataFile)
  | call (h : Nat) (op : Op)
  | step (h k : Nat) (c : Choice)
  | destroy (h : Nat)
  /-- Another process changes what this entry sees of the disk. -/
  | disk (h : Nat) (d : Disk)

namespace PoolWorld

/-- The live entry with this number. -/
def entry (w : PoolWorld) (h : Nat) : Option PoolEntry := w.entries[h]?.join

def setEntry (w : PoolWorld) (h : Nat) (p : Option PoolEntry) : PoolWorld :=
  { w with entries := w.entries.set h p }

/-- [SRC FileEntry.cc:161-175] The destructor, with no other call on the entry: the speculative
pages go, then the drain and the commit, then what a failed drain left behind. -/
def destructor (p : PoolEntry) : PoolEntry :=
  let dropped := p.e.droppedBytes 0 p.e.meta_.fileSize
  { p with
    e := p.e.dropSpeculative 0 p.e.meta_.fileSize
    calls := [PoolFrame.addUnlessZero .addSpec (-dropped) ++
      [.plain (.flushBuffer true), .plain (.flushMeta true), .retire]]
    closing := true }

/-- One step of call `k` of entry `h`. -/
def stepCall (w : PoolWorld) (h k : Nat) (c : Choice) (p : PoolEntry) : Option PoolWorld :=
  match p.calls[k]? with
  | some (.retire :: _) =>
      some
        { w.setEntry h none with
          bufTotal := w.bufTotal + BitVec.ofInt 64 (-p.e.bufBytes) }
  | some (fr :: rest) =>
      (fr.step c p.e p.disk).map fun r =>
        { w.setEntry h (some { p with
            e := r.e
            disk := r.disk
            calls := p.calls.set k (r.frames ++ rest) }) with
          bufTotal := w.bufTotal + BitVec.ofInt 64 r.buf
          specTotal := w.specTotal + BitVec.ofInt 64 r.spec }
  | _ => none

/-- One action in the world of entries. -/
def step (w : PoolWorld) : PoolAct → Option PoolWorld
  | .open_ cfg key v now stored sidecar data =>
      let m := Machine.opened cfg key v now stored sidecar data
      some { w with entries := w.entries ++ [some { e := m.e, disk := m.disk }] }
  | .call h op =>
      (w.entry h).bind fun p =>
        if p.closing then none
        else some (w.setEntry h (some { p with calls := p.calls ++ [op.frames.map .plain] }))
  | .step h k c => (w.entry h).bind (stepCall w h k c)
  | .destroy h =>
      (w.entry h).bind fun p =>
        if p.closing || p.calls.any (fun frames => !frames.isEmpty) then none
        else some (w.setEntry h (some (destructor p)))
  | .disk h d => (w.entry h).map fun p => w.setEntry h (some { p with disk := d })

/-- No call is in progress. -/
def idle (w : PoolWorld) : Prop := ∀ h p, w.entry h = some p → ∀ frames ∈ p.calls, frames = []

/-- Sum over the live entries. -/
def total (f : PoolEntry → Int) (w : PoolWorld) : Int :=
  (w.entries.map fun o => (o.map f).getD 0).sum

end PoolWorld

/-! ### What is owed -/

namespace PoolFrame

/-- What the frame will still add to `g_bufTotal_`. -/
def owedBuf : PoolFrame → Int
  | .reading served _ _ _ _ => served
  | .drainWrite snapBytes _ _ _ => -snapBytes
  | .drainPublish snapBytes _ _ => -snapBytes
  | .addBuf n => n
  | _ => 0

/-- What the frame will still add to `g_specTotal_`. -/
def owedSpec : PoolFrame → Int
  | .reading served _ _ _ _ => -served
  | .addSpec n => n
  | _ => 0

/-- A frame that a step can leave behind: never the staging of read-ahead, never the end of the
destructor. -/
def later : PoolFrame → Bool
  | .plain (.stageSpeculative _ _) => false
  | .retire => false
  | _ => true

/-- What a call still owes. -/
def owes (owed : PoolFrame → Int) (frames : List PoolFrame) : Int := (frames.map owed).sum

@[simp] theorem owes_nil (owed : PoolFrame → Int) : owes owed [] = 0 := rfl

@[simp] theorem owes_cons (owed : PoolFrame → Int) (fr : PoolFrame) (frames : List PoolFrame) :
    owes owed (fr :: frames) = owed fr + owes owed frames := by
  simp [owes]

@[simp] theorem owes_append (owed : PoolFrame → Int) (xs ys : List PoolFrame) :
    owes owed (xs ++ ys) = owes owed xs + owes owed ys := by
  simp [owes]

@[simp] theorem owes_plain (frames : List Frame) :
    owes owedBuf (frames.map plain) = 0 ∧ owes owedSpec (frames.map plain) = 0 := by
  induction frames with
  | nil => exact ⟨rfl, rfl⟩
  | cons fr frames ih => simp [owedBuf, owedSpec, ih]

@[simp] theorem owes_addBuf (n : Int) :
    owes owedBuf (addUnlessZero addBuf n) = n ∧ owes owedSpec (addUnlessZero addBuf n) = 0 := by
  unfold addUnlessZero
  split <;> simp_all [owedBuf, owedSpec]

@[simp] theorem owes_addSpec (n : Int) :
    owes owedBuf (addUnlessZero addSpec n) = 0 ∧ owes owedSpec (addUnlessZero addSpec n) = n := by
  unfold addUnlessZero
  split <;> simp_all [owedBuf, owedSpec]

@[simp] theorem owes_movePools (n : Nat) :
    owes owedBuf (movePools n) = n ∧ owes owedSpec (movePools n) = -n := by
  simp [movePools]

/-- Whatever the planning section goes on to, the bytes it unmarked are owed. -/
theorem owes_afterPlan (served : Nat) (frames : List Frame) :
    owes owedBuf (afterPlan served frames) = served ∧
      owes owedSpec (afterPlan served frames) = -served := by
  unfold afterPlan
  split
  · simp [owedBuf, owedSpec]
  · simp

/-- They stay owed from run to run and over every exit. -/
theorem owes_afterRun (served : Nat) (last : Bool) (frames : List Frame) :
    owes owedBuf (afterRun served last frames) = served ∧
      owes owedSpec (afterRun served last frames) = -served := by
  unfold afterRun
  split
  · simp [owedBuf, owedSpec]
  · split <;> simp

end PoolFrame

/-! ### One step on an entry -/

/-- The step of a frame from `e` to `r`: the entry's counts are right after it, they changed by
exactly what the step told the process-wide counts or left owed, and nothing it leaves behind
stages read-ahead. -/
structure PoolStep (e : FileEntry) (fr : PoolFrame) (r : PoolOut) : Prop where
  moves : Moves e r.e (r.buf + PoolFrame.owes PoolFrame.owedBuf r.frames - fr.owedBuf)
    (r.spec + PoolFrame.owes PoolFrame.owedSpec r.frames - fr.owedSpec)
  later : ∀ fr' ∈ r.frames, fr'.later = true
  noSpec : fr.later = true → e.specBytes = 0 → r.e.specBytes = 0

namespace PoolFrame

variable {c : Choice} {e : FileEntry} {d : Disk}

/-- Sections that leave the pools alone: `flushMeta`, the clock, direct writes, the disk, the
scrub. -/
def still : Frame → Bool
  | .writePages _ _ => false
  | .stageSpeculative _ _ => false
  | .dropSpeculative _ _ => false
  | .consumeSpeculative _ _ => false
  | .releaseRanges _ => false
  | .readCached _ _ _ => false
  | .flushBuffer _ => false
  | _ => true

/-- Nothing a section of the entry goes on to stages read-ahead. -/
theorem later_step {fr : Frame} {r : FileEntry × Disk × List Frame}
    (hstep : fr.step c e d = some r) : ∀ fr' ∈ r.2.2, (plain fr').later = true := by
  suffices hall : r.2.2.all (fun fr' => (plain fr').later) = true from List.all_eq_true.1 hall
  cases fr with
  | flushBuffer force =>
      simp only [Frame.step, Frame.stepFlushBuffer] at hstep
      split at hstep
      · split at hstep
        · simp at hstep
        · cases hstep
          rfl
      · split at hstep <;> (cases hstep; rfl)
  | checkpoint =>
      simp only [Frame.step] at hstep
      split at hstep <;> (cases hstep; rfl)
  | _ =>
      cases hstep
      simp only [Frame.stepFlushMeta, Frame.stepMetaLoad, Frame.stepMetaStore, Frame.stepMetaEnd,
        Frame.stepTouchAtime, Frame.stepWritePages, Frame.stepDirectCheck, Frame.stepDirectWrite,
        Frame.stepDrainWrite, Frame.stepReleaseRanges, Frame.stepPunch, Frame.stepReadCached,
        Frame.stepReadRuns, Frame.stepDemoteBadPages, Frame.stepVerifyAll, Frame.stepScrubPage]
      repeat' split
      all_goals rfl

theorem moves_still {fr : Frame} {r : FileEntry × Disk × List Frame} (hfr : still fr = true)
    (h : Pooled e) (hstep : fr.step c e d = some r) : Moves e r.1 0 0 := by
  cases fr with
  | writePages off bytes => simp [still] at hfr
  | stageSpeculative off bytes => simp [still] at hfr
  | dropSpeculative off len => simp [still] at hfr
  | consumeSpeculative off len => simp [still] at hfr
  | releaseRanges ranges => simp [still] at hfr
  | readCached off buf account => simp [still] at hfr
  | flushBuffer force => simp [still] at hfr
  | flushMeta force =>
      cases hstep
      unfold Frame.stepFlushMeta
      split
      · exact Moves.refl h
      · exact Moves.of_stage h rfl rfl rfl rfl rfl rfl rfl
  | metaEnd f out merged ok =>
      cases hstep
      unfold Frame.stepMetaEnd
      cases ok <;> cases merged
      · exact Moves.of_stage h rfl rfl rfl rfl rfl rfl rfl
      · exact Moves.of_stage h rfl rfl rfl rfl rfl rfl rfl
      · exact Moves.refl h
      · exact Moves.of_stage h rfl rfl rfl rfl rfl rfl rfl
  | touchAtime =>
      cases hstep
      unfold Frame.stepTouchAtime
      simp only
      split
      · exact Moves.of_stage h rfl rfl rfl rfl rfl rfl rfl
      · exact Moves.refl h
  | directPublish done =>
      cases hstep
      exact moves_directPublish h done
  | drainPublish done force =>
      cases hstep
      exact moves_drainPublish h done
  | checkpoint =>
      simp only [Frame.step] at hstep
      split at hstep <;> (cases hstep; exact Moves.refl h)
  | setPinned p =>
      cases hstep
      exact Moves.of_stage h rfl rfl rfl rfl rfl rfl rfl
  | demote i =>
      cases hstep
      exact moves_demoteRun h i
  | _ =>
      cases hstep
      simp only [Frame.stepMetaLoad, Frame.stepMetaStore, Frame.stepDirectCheck,
        Frame.stepDirectWrite, Frame.stepDrainWrite, Frame.stepPunch, Frame.stepReadRuns,
        Frame.stepDemoteBadPages, Frame.stepVerifyAll, Frame.stepScrubPage]
      repeat' split
      all_goals exact Moves.refl h

theorem poolStep_of {fr : PoolFrame} {r : PoolOut} {db ds : Int} (hmoves : Moves e r.e db ds)
    (hdb : db = r.buf + owes owedBuf r.frames - fr.owedBuf)
    (hds : ds = r.spec + owes owedSpec r.frames - fr.owedSpec)
    (hlater : ∀ fr' ∈ r.frames, fr'.later = true) (hless : fr.later = true → ds ≤ 0) :
    PoolStep e fr r := by
  refine ⟨hdb ▸ hds ▸ hmoves, hlater, ?_⟩
  intro hfr hzero
  have hspec := hmoves.spec
  have := hless hfr
  omega

theorem later_addUnlessZero {add : Int → PoolFrame} (hadd : ∀ n, (add n).later = true) (n : Int) :
    ∀ fr' ∈ addUnlessZero add n, fr'.later = true := by
  intro fr' hfr'
  unfold addUnlessZero at hfr'
  split at hfr'
  · simp at hfr'
  · rw [List.mem_singleton.1 hfr']
    exact hadd n

theorem later_movePools (n : Nat) : ∀ fr' ∈ movePools n, fr'.later = true := by
  intro fr' hfr'
  rcases List.mem_append.1 hfr' with h | h
  · exact later_addUnlessZero (fun _ => rfl) _ fr' h
  · exact later_addUnlessZero (fun _ => rfl) _ fr' h

theorem later_plain {frames : List Frame} (h : ∀ fr ∈ frames, (plain fr).later = true) :
    ∀ fr' ∈ frames.map plain, fr'.later = true := by
  simpa using h

theorem later_append {xs ys : List PoolFrame} (hx : ∀ fr ∈ xs, fr.later = true)
    (hy : ∀ fr ∈ ys, fr.later = true) : ∀ fr ∈ xs ++ ys, fr.later = true := by
  intro fr hfr
  rcases List.mem_append.1 hfr with h | h
  · exact hx fr h
  · exact hy fr h

theorem later_afterPlan (served : Nat) {frames : List Frame}
    (h : ∀ fr ∈ frames, (plain fr).later = true) :
    ∀ fr' ∈ afterPlan served frames, fr'.later = true := by
  unfold afterPlan
  split
  · simp [later]
  · exact later_append (later_movePools served) (later_plain h)

theorem later_afterRun (served : Nat) (last : Bool) {frames : List Frame}
    (h : ∀ fr ∈ frames, (plain fr).later = true) :
    ∀ fr' ∈ afterRun served last frames, fr'.later = true := by
  unfold afterRun
  split
  · simp [later]
  · split
    · exact later_append (later_movePools served) (later_plain h)
    · exact later_append (later_plain h) (later_movePools served)

theorem later_ofDrain (snapBytes : Nat) {frames : List Frame}
    (h : ∀ fr ∈ frames, (plain fr).later = true) :
    ∀ fr' ∈ frames.map (ofDrain snapBytes), fr'.later = true := by
  intro fr' hfr'
  obtain ⟨fr, hfr, rfl⟩ := List.mem_map.1 hfr'
  cases fr with
  | drainWrite todo done force => rfl
  | drainPublish done force => rfl
  | _ => exact h _ hfr

/-- A call that returns at once. -/
theorem poolStep_skip (h : Pooled e) (fr : Frame) : PoolStep e (plain fr) (skip e d) :=
  poolStep_of (Moves.refl h) rfl rfl (by simp [skip]) (fun _ => Int.le_refl 0)

/-- [SRC FileEntry.cc:497-551] What the loop staged and what it unmarked are both owed. -/
theorem poolStep_writePages (h : Pooled e) (off : Nat) (bytes : Bytes) :
    let r := Frame.stepWritePages e d off bytes
    PoolStep e (plain (.writePages off bytes))
      { e := r.1, disk := r.2.1, frames := writeMoves e off bytes ++ r.2.2.map plain } := by
  intro r
  have hlater : ∀ fr' ∈ r.2.2.map plain, fr'.later = true :=
    later_plain (@later_step {} e d (.writePages off bytes) _ rfl)
  cases hgo : stages e off bytes with
  | false =>
      have he : r.1 = e := by
        simp only [r, Frame.stepWritePages]
        split
        · rfl
        · split
          · rfl
          · rename_i h1 h2
            simp only [stages, Bool.not_eq_false', Bool.or_eq_true, decide_eq_true_eq] at hgo h1
            exact absurd hgo (by tauto)
      have hmoves : Moves e r.1 0 0 := he.symm ▸ Moves.refl h
      refine poolStep_of hmoves ?_ ?_ ?_ (fun _ => Int.le_refl 0)
      · simp [writeMoves, hgo, owedBuf]
      · simp [writeMoves, hgo, owedSpec]
      · simpa [writeMoves, hgo] using hlater
  | true =>
      have he : r.1 = e.stagePages off bytes := by
        simp only [stages, Bool.not_eq_true', Bool.or_eq_false_iff, decide_eq_false_iff_not] at hgo
        simp [r, Frame.stepWritePages, hgo.1.1, hgo.1.2, hgo.2]
      refine poolStep_of (by rw [he]; exact moves_stagePages h off bytes) ?_ ?_ ?_ ?_
      · simp [writeMoves, hgo, owedBuf]
      · simp [writeMoves, hgo, owedSpec]
      · refine later_append ?_ hlater
        simp only [writeMoves, hgo, if_true]
        exact later_append (later_movePools _) (later_addUnlessZero (fun _ => rfl) _)
      · intro _
        omega

/-- [SRC FileEntry.cc:326-437] What the planning loop unmarked is owed whatever it goes on to. -/
theorem poolStep_readCached (h : Pooled e) (off : Nat) (buf : Bytes) (account : Bool) :
    let r := Frame.stepReadCached e d off buf account
    PoolStep e (plain (.readCached off buf account))
      { e := r.1, disk := r.2.1, frames := afterPlan (specServed e off buf account) r.2.2 } := by
  intro r
  have hlater : ∀ fr' ∈ r.2.2, (plain fr').later = true :=
    @later_step {} e d (.readCached off buf account) _ rfl
  have hmoves : Moves e r.1 (specServed e off buf account)
      (-(specServed e off buf account : Int)) := by
    simp only [r, Frame.stepReadCached, specServed]
    by_cases hempty : buf.isEmpty = true
    · simpa [hempty] using Moves.refl h
    · by_cases hout : e.meta_.fileSize < off + buf.length
      · simpa [hempty, hout] using Moves.refl h
      · simpa [hempty, hout] using moves_readPlan h off buf account
  refine poolStep_of hmoves ?_ ?_ (later_afterPlan _ hlater) (fun _ => by omega)
  · simp [(owes_afterPlan _ _).1, owedBuf]
  · simp [(owes_afterPlan _ _).2, owedSpec]

/-- [SRC FileEntry.cc:784-817] The snapshot leaves the pool at once and is owed by the drain. -/
theorem poolStep_flushBuffer (h : Pooled e) {force : Bool} {r : FileEntry × Disk × List Frame}
    (hstep : Frame.stepFlushBuffer c e d force = some r) :
    PoolStep e (plain (.flushBuffer force))
      { e := r.1, disk := r.2.1, frames := r.2.2.map (ofDrain e.bufBytes) } := by
  have hlater := later_ofDrain e.bufBytes
    (@later_step c e d (.flushBuffer force) _ hstep)
  have hnone : ∀ d', PoolStep e (plain (.flushBuffer force)) { e := e, disk := d', frames := [] } :=
    fun _ => poolStep_of (Moves.refl h) rfl rfl (by simp) (fun _ => Int.le_refl 0)
  unfold Frame.stepFlushBuffer at hstep
  split at hstep
  · split at hstep
    · simp at hstep
    · cases hstep
      exact hnone d
  · split at hstep
    · cases hstep
      exact hnone d
    · cases hstep
      refine poolStep_of (moves_drainSnapshot h) ?_ ?_ hlater (fun _ => Int.le_refl 0)
      · simp [ofDrain, owedBuf]
      · simp [ofDrain, owedSpec]

/-- [SRC FileEntry.cc:820-870] A drain on its way still owes its snapshot. -/
theorem poolStep_drainWrite (h : Pooled e) (snapBytes : Nat) (todo : List (Nat × BufPage))
    (done : List (Nat × UInt32)) (force : Bool) :
    let r := Frame.stepDrainWrite c e d todo done force
    PoolStep e (.drainWrite snapBytes todo done force)
      { e := r.1, disk := r.2.1, frames := r.2.2.map (ofDrain snapBytes) } := by
  intro r
  have hlater := later_ofDrain snapBytes
    (@later_step c e d (.drainWrite todo done force) _ rfl)
  have hmoves : Moves e r.1 0 0 :=
    @moves_still c e d (.drainWrite todo done force) _ rfl h rfl
  have howed : owes owedBuf (r.2.2.map (ofDrain snapBytes)) = -snapBytes ∧
      owes owedSpec (r.2.2.map (ofDrain snapBytes)) = 0 := by
    simp only [r, Frame.stepDrainWrite]
    split
    · split <;> simp [ofDrain, owedBuf, owedSpec]
    · simp [ofDrain, owedBuf, owedSpec]
  refine poolStep_of hmoves ?_ ?_ hlater (fun _ => Int.le_refl 0)
  · simp [howed.1, owedBuf]
  · simp [howed.2, owedSpec]

theorem poolStep_reading (h : Pooled e) (served off : Nat) (out : Bytes)
    (runs : List FileEntry.ReadRun) (account : Bool) :
    let r := Frame.stepReadRuns c e d off out runs account
    PoolStep e (.reading served off out runs account)
      { e := r.1, disk := r.2.1, frames := afterRun served runs.isEmpty r.2.2 } := by
  intro r
  have hlater := later_afterRun served runs.isEmpty
    (@later_step c e d (.readRuns off out runs account) _ rfl)
  have hmoves : Moves e r.1 0 0 :=
    @moves_still c e d (.readRuns off out runs account) _ rfl h rfl
  refine poolStep_of hmoves ?_ ?_ hlater (fun _ => Int.le_refl 0)
  · simp [(owes_afterRun _ _ _).1, owedBuf]
  · simp [(owes_afterRun _ _ _).2, owedSpec]

/-- A call that moves one pool and owes the move. -/
theorem poolStep_addSpec {fr : Frame} {e' : FileEntry} {n : Int} (hmoves : Moves e e' 0 n)
    (hless : (plain fr).later = true → n ≤ 0) :
    PoolStep e (plain fr) { e := e', disk := d, frames := addUnlessZero addSpec n } := by
  refine poolStep_of hmoves ?_ ?_ (later_addUnlessZero (fun _ => rfl) n) hless
  · simp [owedBuf]
  · simp [owedSpec]

theorem poolStep_plain (h : Pooled e) {fr : Frame} {r : PoolOut}
    (hstep : plainStep c e d fr = some r) : PoolStep e (plain fr) r := by
  have hstill : still fr = true → (fr.step c e d).map lift = some r → PoolStep e (plain fr) r := by
    intro hfr hmap
    obtain ⟨out, hout, rfl⟩ := Option.map_eq_some_iff.1 hmap
    refine poolStep_of (moves_still hfr h hout) ?_ ?_ (later_plain (later_step hout))
      (fun _ => Int.le_refl 0)
    · simp [lift, owedBuf]
    · simp [lift, owedSpec]
  cases fr with
  | writePages off bytes =>
      simp only [plainStep] at hstep
      split at hstep
      · cases hstep
        exact poolStep_skip h _
      · cases hstep
        exact poolStep_writePages h off bytes
  | stageSpeculative off bytes =>
      simp only [plainStep] at hstep
      split at hstep
      · cases hstep
        exact poolStep_skip h _
      · cases hstep
        exact poolStep_addSpec (moves_stageSpeculative h off bytes) (by simp [later])
  | dropSpeculative off len =>
      simp only [plainStep] at hstep
      split at hstep
      · cases hstep
        exact poolStep_skip h _
      · cases hstep
        exact poolStep_addSpec (moves_dropSpeculative h off len) (fun _ => by omega)
  | consumeSpeculative off len =>
      simp only [plainStep] at hstep
      split at hstep
      · cases hstep
        exact poolStep_skip h _
      · cases hstep
        exact poolStep_addSpec (moves_consumeSpeculative h off len) (fun _ => by omega)
  | releaseRanges ranges =>
      cases hstep
      refine poolStep_of (moves_releaseSection h ranges) ?_ ?_
        (later_plain (@later_step c e d (.releaseRanges ranges) _ rfl)) (fun _ => by omega)
      · simp [owedBuf]
      · simp [owedSpec]
  | readCached off buf account =>
      simp only [plainStep] at hstep
      split at hstep
      · cases hstep
        exact poolStep_skip h _
      · cases hstep
        exact poolStep_readCached h off buf account
  | flushBuffer force =>
      obtain ⟨out, hout, rfl⟩ := Option.map_eq_some_iff.1 hstep
      exact poolStep_flushBuffer h hout
  | _ => exact hstill rfl hstep

/-- Every step on an entry keeps its counts, and tells or owes the process-wide ones exactly what
it moved. -/
theorem poolStep_step (h : Pooled e) {fr : PoolFrame} {r : PoolOut}
    (hstep : fr.step c e d = some r) : PoolStep e fr r := by
  cases fr with
  | plain fr => exact poolStep_plain h hstep
  | reading served off out runs account =>
      cases hstep
      exact poolStep_reading h served off out runs account
  | drainWrite snapBytes todo done force =>
      cases hstep
      exact poolStep_drainWrite h snapBytes todo done force
  | drainPublish snapBytes done force =>
      cases hstep
      refine poolStep_of (moves_drainPublish h done) ?_ ?_ ?_ (fun _ => Int.le_refl 0)
      · simp [owedBuf]
      · simp [owedSpec]
      · exact later_append (later_addUnlessZero (fun _ => rfl) _) (by simp [later])
  | addSpec n =>
      cases hstep
      exact poolStep_of (Moves.refl h) (by simp [owedBuf]) (by simp [owedSpec]) (by simp)
        (fun _ => Int.le_refl 0)
  | addBuf n =>
      cases hstep
      exact poolStep_of (Moves.refl h) (by simp [owedBuf]) (by simp [owedSpec]) (by simp)
        (fun _ => Int.le_refl 0)
  | retire => simp [step] at hstep

end PoolFrame

/-! ### The balance -/

/-- Bytes of the entry the process-wide count has been told of. -/
def PoolEntry.dueBuf (p : PoolEntry) : Int :=
  p.e.bufBytes - (p.calls.map (PoolFrame.owes PoolFrame.owedBuf)).sum

def PoolEntry.dueSpec (p : PoolEntry) : Int :=
  p.e.specBytes - (p.calls.map (PoolFrame.owes PoolFrame.owedSpec)).sum

/-- An entry is counted right; while it is not being destroyed no call ends it, and while it is,
the destructor is alone with it and nothing speculative is left. -/
structure EntryBalanced (p : PoolEntry) : Prop where
  pooled : Pooled p.e
  live : p.closing = false → ∀ frames ∈ p.calls, PoolFrame.retire ∉ frames
  dying : p.closing = true → p.e.specBytes = 0 ∧
    ∃ frames, p.calls = [frames ++ [.retire]] ∧ ∀ fr ∈ frames, fr.later = true

/-- The counts are the sums over the live entries of what they have been told. -/
structure Balanced (w : PoolWorld) : Prop where
  entries : ∀ h p, w.entry h = some p → EntryBalanced p
  buf : w.bufTotal = BitVec.ofInt 64 (w.total PoolEntry.dueBuf)
  spec : w.specTotal = BitVec.ofInt 64 (w.total PoolEntry.dueSpec)

theorem sum_map_set {α : Type} (g : α → Int) {l : List α} {k : Nat} {x : α} (h : l[k]? = some x)
    (y : α) : ((l.set k y).map g).sum = (l.map g).sum - g x + g y := by
  induction l generalizing k with
  | nil => simp at h
  | cons a l ih =>
      cases k with
      | zero =>
          simp only [List.getElem?_cons_zero, Option.some.injEq] at h
          subst h
          simp
          omega
      | succ k =>
          simp only [List.getElem?_cons_succ] at h
          simp only [List.set_cons_succ, List.map_cons, List.sum_cons, ih h]
          omega

namespace PoolWorld

variable {w w' : PoolWorld} {h : Nat} {p : PoolEntry}

theorem entry_eq_some : w.entry h = some p ↔ w.entries[h]? = some (some p) := by
  simp [entry, Option.join_eq_some_iff]

theorem total_setEntry (hp : w.entry h = some p) (f : PoolEntry → Int) (q : Option PoolEntry) :
    (w.setEntry h q).total f = w.total f - f p + (q.map f).getD 0 := by
  unfold total setEntry
  rw [sum_map_set _ (entry_eq_some.1 hp)]
  rfl

theorem entry_setEntry {h' : Nat} {q : Option PoolEntry} {p' : PoolEntry}
    (hp' : (w.setEntry h q).entry h' = some p') :
    (h' = h ∧ q = some p') ∨ w.entry h' = some p' := by
  rw [entry_eq_some] at hp' ⊢
  simp only [setEntry, List.getElem?_set] at hp'
  split at hp'
  · rename_i hh
    split at hp'
    · exact Or.inl ⟨hh.symm, by simpa using hp'⟩
    · simp at hp'
  · exact Or.inr hp'

/-- An entry replaced by one that is counted right, the counts moved by what it was told. -/
theorem balanced_set (hw : Balanced w) (hp : w.entry h = some p) {p' : PoolEntry} (db ds : Int)
    (hfine : EntryBalanced p') (hbuf : p'.dueBuf = p.dueBuf + db)
    (hspec : p'.dueSpec = p.dueSpec + ds)
    (hw' : w' = { w.setEntry h (some p') with
      bufTotal := w.bufTotal + BitVec.ofInt 64 db
      specTotal := w.specTotal + BitVec.ofInt 64 ds }) : Balanced w' := by
  subst hw'
  refine ⟨?_, ?_, ?_⟩
  · intro h' q hq
    rcases entry_setEntry (w := w) (h := h) (q := some p') hq with ⟨-, hq'⟩ | hq'
    · cases hq'
      exact hfine
    · exact hw.entries h' q hq'
  · change w.bufTotal + BitVec.ofInt 64 db = BitVec.ofInt 64 ((w.setEntry h (some p')).total _)
    rw [total_setEntry hp, hw.buf, ← BitVec.ofInt_add]
    congr 1
    simp only [Option.map_some, Option.getD_some, hbuf]
    omega
  · change w.specTotal + BitVec.ofInt 64 ds = BitVec.ofInt 64 ((w.setEntry h (some p')).total _)
    rw [total_setEntry hp, hw.spec, ← BitVec.ofInt_add]
    congr 1
    simp only [Option.map_some, Option.getD_some, hspec]
    omega

/-- The same where the counts do not move. -/
theorem balanced_keep (hw : Balanced w) (hp : w.entry h = some p) {p' : PoolEntry}
    (hfine : EntryBalanced p') (hbuf : p'.dueBuf = p.dueBuf) (hspec : p'.dueSpec = p.dueSpec) :
    Balanced (w.setEntry h (some p')) := by
  refine balanced_set hw hp 0 0 hfine (by simp [hbuf]) (by simp [hspec]) ?_
  simp [setEntry]

/-! ### The steps of the process -/

theorem opened_eq_ofMeta (cfg : Config) (key : Bytes) (v : Validators) (now : Nat) (stored : Bool)
    (sidecar : Option MetaData) (data : DataFile) :
    ∃ m dirty, (Machine.opened cfg key v now stored sidecar data).e =
      FileEntry.ofMeta cfg key m dirty := by
  unfold Machine.opened
  split
  · rename_i e he
    simp only [FileEntry.openAdopt, Option.bind_eq_some_iff] at he
    obtain ⟨m, -, hm⟩ := he
    split at hm
    · cases hm
      exact ⟨m, false, rfl⟩
    · simp at hm
  · exact ⟨_, _, rfl⟩

/-- A new entry: nothing staged, nothing owed. -/
theorem balanced_open (hw : Balanced w) {e : FileEntry} {d : Disk} {cfg : Config} {key : Bytes}
    {m : MetaData} {dirty : Bool} (he : e = FileEntry.ofMeta cfg key m dirty) :
    Balanced { w with entries := w.entries ++ [some { e := e, disk := d }] } := by
  subst he
  refine ⟨?_, ?_, ?_⟩
  · intro h' q hq
    rw [entry_eq_some, List.getElem?_append] at hq
    split at hq
    · exact hw.entries h' q (entry_eq_some.2 hq)
    · rw [List.getElem?_singleton] at hq
      split at hq
      · cases hq
        exact ⟨Pooled.ofMeta cfg key m dirty, fun _ => by simp, by simp⟩
      · simp at hq
  · simpa [total, PoolEntry.dueBuf, FileEntry.ofMeta] using hw.buf
  · simpa [total, PoolEntry.dueSpec, FileEntry.ofMeta] using hw.spec

theorem balanced_call (hw : Balanced w) (hp : w.entry h = some p) (hlive : p.closing = false)
    (op : Op) :
    Balanced (w.setEntry h (some { p with calls := p.calls ++ [op.frames.map .plain] })) := by
  have hfine := hw.entries h p hp
  refine balanced_keep hw hp ⟨hfine.pooled, ?_, ?_⟩ ?_ ?_
  · intro _ frames hframes
    rcases List.mem_append.1 hframes with hmem | hmem
    · exact hfine.live hlive frames hmem
    · rw [List.mem_singleton.1 hmem]
      simp
  · simp [hlive]
  · simp [PoolEntry.dueBuf]
  · simp [PoolEntry.dueSpec]

/-- The destructor starts: the speculative pages are gone and the move is owed. -/
theorem balanced_destroy (hw : Balanced w) (hp : w.entry h = some p)
    (hidle : ∀ frames ∈ p.calls, frames = []) :
    Balanced (w.setEntry h (some (destructor p))) := by
  have hfine := hw.entries h p hp
  have hmoves := moves_dropSpeculative hfine.pooled 0 p.e.meta_.fileSize
  have hnone : ∀ owed : PoolFrame → Int, (p.calls.map (PoolFrame.owes owed)).sum = 0 := by
    intro owed
    refine List.sum_eq_zero ?_
    intro x hx
    obtain ⟨frames, hframes, rfl⟩ := List.mem_map.1 hx
    rw [hidle frames hframes]
    rfl
  refine balanced_keep hw hp ⟨hmoves.pooled, by simp [destructor], ?_⟩ ?_ ?_
  · intro _
    refine ⟨specBytes_dropAll hfine.pooled,
      PoolFrame.addUnlessZero .addSpec (-p.e.droppedBytes 0 p.e.meta_.fileSize) ++
        [.plain (.flushBuffer true), .plain (.flushMeta true)], by simp [destructor], ?_⟩
    exact PoolFrame.later_append (PoolFrame.later_addUnlessZero (fun _ => rfl) _)
      (by simp [PoolFrame.later])
  · have hbuf := hmoves.buf
    simp [PoolEntry.dueBuf, destructor, hnone, PoolFrame.owedBuf]
    omega
  · have hspec := hmoves.spec
    simp [PoolEntry.dueSpec, destructor, hnone, PoolFrame.owedSpec]
    omega

/-- The end of the destructor: what is left of the entry leaves the counts with it. -/
theorem balanced_retire (hw : Balanced w) (hp : w.entry h = some p) {k : Nat}
    {rest : List PoolFrame} (hk : p.calls[k]? = some (.retire :: rest)) :
    Balanced { w.setEntry h none with
      bufTotal := w.bufTotal + BitVec.ofInt 64 (-p.e.bufBytes) } := by
  have hfine := hw.entries h p hp
  have hclosing : p.closing = true := by
    cases hc : p.closing with
    | true => rfl
    | false => exact absurd (by simp) (hfine.live hc _ (List.mem_of_getElem? hk))
  obtain ⟨hzero, frames, hcalls, hlater⟩ := hfine.dying hclosing
  have honly : p.calls = [[.retire]] := by
    have hmem : (.retire :: rest) ∈ p.calls := List.mem_of_getElem? hk
    rw [hcalls, List.mem_singleton] at hmem
    cases frames with
    | nil => exact hcalls
    | cons fr frames =>
        simp only [List.cons_append, List.cons.injEq] at hmem
        have := hlater fr (by simp)
        rw [← hmem.1] at this
        simp [PoolFrame.later] at this
  have hbuf : p.dueBuf = p.e.bufBytes := by
    simp [PoolEntry.dueBuf, honly, PoolFrame.owedBuf]
  have hspec : p.dueSpec = 0 := by
    simp [PoolEntry.dueSpec, honly, PoolFrame.owedSpec, hzero]
  refine ⟨?_, ?_, ?_⟩
  · intro h' q hq
    rcases entry_setEntry (w := w) (h := h) (q := none) hq with ⟨-, hq'⟩ | hq'
    · simp at hq'
    · exact hw.entries h' q hq'
  · change w.bufTotal + BitVec.ofInt 64 _ = BitVec.ofInt 64 ((w.setEntry h none).total _)
    rw [total_setEntry hp, hw.buf, ← BitVec.ofInt_add, hbuf]
    congr 1
    simp
    omega
  · change w.specTotal = BitVec.ofInt 64 ((w.setEntry h none).total _)
    rw [total_setEntry hp, hw.spec, hspec]
    simp

/-- A step of a call: what it moved it told or owes. -/
theorem balanced_stepCall (hw : Balanced w) (hp : w.entry h = some p) {k : Nat} {c : Choice}
    {fr : PoolFrame} {rest : List PoolFrame} {r : PoolOut}
    (hk : p.calls[k]? = some (fr :: rest)) (hstep : fr.step c p.e p.disk = some r) :
    Balanced { w.setEntry h (some { p with
        e := r.e
        disk := r.disk
        calls := p.calls.set k (r.frames ++ rest) }) with
      bufTotal := w.bufTotal + BitVec.ofInt 64 r.buf
      specTotal := w.specTotal + BitVec.ofInt 64 r.spec } := by
  have hfine := hw.entries h p hp
  have hone := PoolFrame.poolStep_step hfine.pooled hstep
  refine balanced_set hw hp r.buf r.spec ⟨hone.moves.pooled, ?_, ?_⟩ ?_ ?_ rfl
  · intro hc frames hframes hmem
    rcases List.mem_or_eq_of_mem_set hframes with hold | rfl
    · exact hfine.live hc frames hold hmem
    · rcases List.mem_append.1 hmem with hnew | hrest
      · simpa [PoolFrame.later] using hone.later _ hnew
      · exact hfine.live hc _ (List.mem_of_getElem? hk) (by simp [hrest])
  · intro hc
    obtain ⟨hzero, frames, hcalls, hlater⟩ := hfine.dying hc
    rw [hcalls] at hk
    cases k with
    | succ k => simp at hk
    | zero =>
        simp only [List.getElem?_cons_zero, Option.some.injEq] at hk
        cases frames with
        | nil =>
            -- The last frame is not a step on the entry.
            simp only [List.nil_append, List.cons.injEq] at hk
            rw [← hk.1] at hstep
            simp [PoolFrame.step] at hstep
        | cons fr₀ frames =>
            simp only [List.cons_append, List.cons.injEq] at hk
            obtain ⟨rfl, rfl⟩ := hk
            refine ⟨hone.noSpec (hlater fr₀ (by simp)) hzero, r.frames ++ frames, ?_, ?_⟩
            · simp [hcalls]
            · exact PoolFrame.later_append hone.later fun fr' hfr' => hlater fr' (by simp [hfr'])
  · have hbuf := hone.moves.buf
    simp only [PoolEntry.dueBuf, sum_map_set _ hk, PoolFrame.owes_append, PoolFrame.owes_cons]
    omega
  · have hspec := hone.moves.spec
    simp only [PoolEntry.dueSpec, sum_map_set _ hk, PoolFrame.owes_append, PoolFrame.owes_cons]
    omega

theorem balanced_step {a : PoolAct} (hw : Balanced w) (hstep : w.step a = some w') :
    Balanced w' := by
  cases a with
  | open_ cfg key v now stored sidecar data =>
      cases hstep
      obtain ⟨m, dirty, he⟩ := opened_eq_ofMeta cfg key v now stored sidecar data
      exact balanced_open hw he
  | call h op =>
      simp only [step, Option.bind_eq_some_iff] at hstep
      obtain ⟨p, hp, hstep⟩ := hstep
      split at hstep
      · simp at hstep
      · rename_i hlive
        cases hstep
        exact balanced_call hw hp (by simpa using hlive) op
  | step h k c =>
      simp only [step, Option.bind_eq_some_iff] at hstep
      obtain ⟨p, hp, hstep⟩ := hstep
      unfold stepCall at hstep
      split at hstep
      · rename_i hk
        cases hstep
        exact balanced_retire hw hp hk
      · rename_i hk
        obtain ⟨r, hr, rfl⟩ := Option.map_eq_some_iff.1 hstep
        exact balanced_stepCall hw hp hk hr
      · simp at hstep
  | destroy h =>
      simp only [step, Option.bind_eq_some_iff] at hstep
      obtain ⟨p, hp, hstep⟩ := hstep
      split at hstep
      · simp at hstep
      · rename_i hidle
        cases hstep
        refine balanced_destroy hw hp ?_
        intro frames hframes
        simp only [Bool.or_eq_true, List.any_eq_true, not_or, not_exists, not_and] at hidle
        simpa using hidle.2 frames hframes
  | disk h d =>
      obtain ⟨p, hp, rfl⟩ := Option.map_eq_some_iff.1 hstep
      have hfine := hw.entries h p hp
      exact balanced_keep hw hp ⟨hfine.pooled, hfine.live, hfine.dying⟩ rfl rfl

theorem balanced_run {acts : List PoolAct} (hrun : exec step {} acts = some w) : Balanced w := by
  refine exec_invariant Balanced (fun _ _ _ => balanced_step) ?_ hrun
  exact ⟨by simp [entry], rfl, rfl⟩

/-- With no call in progress nothing is owed. -/
theorem total_of_idle (hidle : w.idle) {due bytes : PoolEntry → Int} {owed : PoolFrame → Int}
    (hdue : ∀ p, due p = bytes p - (p.calls.map (PoolFrame.owes owed)).sum) :
    w.total due = w.total bytes := by
  unfold total
  congr 1
  refine List.map_congr_left ?_
  intro o ho
  cases o with
  | none => rfl
  | some p =>
      obtain ⟨h, hh⟩ := List.mem_iff_getElem?.1 ho
      have hsum : (p.calls.map (PoolFrame.owes owed)).sum = 0 := by
        refine List.sum_eq_zero ?_
        intro x hx
        obtain ⟨frames, hframes, rfl⟩ := List.mem_map.1 hx
        rw [hidle h p (entry_eq_some.2 hh) frames hframes]
        rfl
      simp [hdue, hsum]

/-- Sum of a count over the live entries. -/
def liveBytes (count : FileEntry → Nat) (w : PoolWorld) : Nat :=
  (w.entries.map fun o => (o.map fun p => count p.e).getD 0).sum

theorem total_eq_liveBytes (count : FileEntry → Nat) (w : PoolWorld) :
    w.total (fun p => (count p.e : Int)) = liveBytes count w := by
  unfold total liveBytes
  induction w.entries with
  | nil => rfl
  | cons o rest ih =>
      cases o with
      | none => simpa using ih
      | some p =>
          simp only [List.map_cons, List.sum_cons, ih, Option.map_some, Option.getD_some]
          omega

end PoolWorld

/-- What is right about the stage of an entry whenever its lock is free. -/
structure StageRight (e : FileEntry) : Prop where
  buf : e.bufBytes = poolBytes e false
  spec : e.specBytes = poolBytes e true
  apart : ∀ i, e.buf i = none ∨ e.flushing i = none
  enough : ∀ i p, e.buf i = some p →
    e.meta_.pageBytes i ≤ if p.spec then e.specBytes else e.bufBytes

theorem Pooled.right {e : FileEntry} (h : Pooled e) : StageRight e := by
  refine ⟨h.buf, h.spec, ?_, fun i p hp => h.enough hp⟩
  intro i
  cases hb : e.buf i with
  | none => exact Or.inl rfl
  | some p => exact Or.inr (h.apart i p hb)

/-- Stage accounting.  After any run over any number of entries, calls interleaved step by step and
failing wherever they can: the stage of every live entry is counted right; the next step of any
call on it changes the two counts by exactly what that step tells the process-wide counts or leaves
owed, over the integers, so no decrement went below zero; and with no call in progress the
process-wide counts are the sums over the live entries. -/
theorem stage_accounting {acts : List PoolAct} {w : PoolWorld}
    (hrun : exec PoolWorld.step {} acts = some w) :
    (∀ h p, w.entry h = some p → StageRight p.e ∧
      ∀ (k : Nat) (c : Choice) (fr : PoolFrame) (rest : List PoolFrame) (r : PoolOut),
        p.calls[k]? = some (fr :: rest) → fr.step c p.e p.disk = some r →
          StageRight r.e ∧
          (r.e.bufBytes : Int) - p.e.bufBytes =
            r.buf + PoolFrame.owes PoolFrame.owedBuf r.frames - fr.owedBuf ∧
          (r.e.specBytes : Int) - p.e.specBytes =
            r.spec + PoolFrame.owes PoolFrame.owedSpec r.frames - fr.owedSpec) ∧
    (w.idle →
      w.bufTotal = BitVec.ofNat 64 (w.liveBytes FileEntry.bufBytes) ∧
      w.specTotal = BitVec.ofNat 64 (w.liveBytes FileEntry.specBytes)) := by
  have hw := PoolWorld.balanced_run hrun
  refine ⟨?_, ?_⟩
  · intro h p hp
    have hpooled := (hw.entries h p hp).pooled
    refine ⟨hpooled.right, ?_⟩
    intro k c fr rest r _ hstep
    have hmoves := (PoolFrame.poolStep_step hpooled hstep).moves
    have hbuf := hmoves.buf
    have hspec := hmoves.spec
    exact ⟨hmoves.pooled.right, by omega, by omega⟩
  · intro hidle
    have hbuf : w.total PoolEntry.dueBuf = w.liveBytes FileEntry.bufBytes := by
      rw [← PoolWorld.total_eq_liveBytes]
      exact PoolWorld.total_of_idle hidle fun _ => rfl
    have hspec : w.total PoolEntry.dueSpec = w.liveBytes FileEntry.specBytes := by
      rw [← PoolWorld.total_eq_liveBytes]
      exact PoolWorld.total_of_idle hidle fun _ => rfl
    rw [hw.buf, hw.spec, hbuf, hspec, BitVec.ofInt_natCast, BitVec.ofInt_natCast]
    exact ⟨rfl, rfl⟩

/-- Two entries of five bytes.  The first is filled; the second is read ahead and then read. -/
def twoEntryRun : List PoolAct :=
  let opened : PoolAct := .open_ {} [102] { originSize := 5 } 0 true none (DataFile.truncate 0)
  [opened, opened,
    .call 0 (.writePages 0 [1, 2, 3, 4, 5]), .step 0 0 {}, .step 0 0 {}, .step 0 0 {},
    .step 0 0 { due := false },
    .call 1 (.stageSpeculative 0 [1, 2, 3, 4, 5]), .step 1 0 {}, .step 1 0 {},
    .call 1 (.readCached 0 [0, 0, 0, 0, 0] true), .step 1 1 {}, .step 1 1 {}, .step 1 1 {},
    .step 1 1 {}, .step 1 1 {}, .step 1 1 {}]

/-- Two entries with five staged bytes each. -/
theorem stage_accounting_of_two_entries :
    ∃ w, exec PoolWorld.step {} twoEntryRun = some w ∧ w.idle ∧ w.bufTotal = 10 ∧
      w.bufTotal = BitVec.ofNat 64 (w.liveBytes FileEntry.bufBytes) ∧
      w.specTotal = BitVec.ofNat 64 (w.liveBytes FileEntry.specBytes) := by
  have hobs : (exec PoolWorld.step {} twoEntryRun).map (fun w =>
      w.entries.all (fun o => o.all fun p => p.calls.all List.isEmpty) &&
        decide (w.bufTotal = 10)) = some true := by decide +kernel
  obtain ⟨w, hw, hobs⟩ := Option.map_eq_some_iff.1 hobs
  simp only [Bool.and_eq_true, decide_eq_true_eq] at hobs
  have hidle : w.idle := by
    intro h p hp frames hframes
    have hmem : some p ∈ w.entries := List.mem_of_getElem? (PoolWorld.entry_eq_some.1 hp)
    have hcalls := List.all_eq_true.1 hobs.1 _ hmem
    exact List.isEmpty_iff.1 (List.all_eq_true.1 hcalls frames hframes)
  exact ⟨w, hw, hidle, hobs.2, (stage_accounting hw).2 hidle⟩

end UCache
