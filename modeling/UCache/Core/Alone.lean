/-
Module: UCache.Core.Alone
Purpose: The calls on one handle as functions, for when nothing else runs and no system call fails:
  what each leaves of the handle and the disk and what it answers.  Each is a run of the frames it
  pushes.
Trusted boundary: none
Main exports: Solo, Solo.exec, Timing
-/
import UCache.Core.Stage

namespace UCache

open Lib

/-! ### A run nothing disturbs -/

/-- What a frame answers its caller. -/
def Frame.answer : Frame → List Bytes
  | .readDone _ out => [out]
  | _ => []

/-- The stack of frames runs to its end, every system call succeeding, and answers `outs`. -/
inductive Solo : FileEntry → Disk → List Frame → List Bytes → FileEntry → Disk → Prop
  | done (e : FileEntry) (d : Disk) : Solo e d [] [] e d
  | step {e e₁ e' : FileEntry} {d d₁ d' : Disk} {f : Frame} {fs rest : List Frame}
      {outs : List Bytes} (c : Choice) (hok : c.ok = true)
      (hstep : f.step c e d = some (e₁, d₁, fs)) (hrest : Solo e₁ d₁ (fs ++ rest) outs e' d') :
      Solo e d (f :: rest) (f.answer ++ outs) e' d'

namespace Solo

variable {e e₁ e' : FileEntry} {d d₁ d' : Disk} {fs gs : List Frame} {os outs : List Bytes}

/-- One after the other. -/
theorem append (h1 : Solo e d fs os e₁ d₁) (h2 : Solo e₁ d₁ gs outs e' d') :
    Solo e d (fs ++ gs) (os ++ outs) e' d' := by
  induction h1 with
  | done e d => exact h2
  | step c hok hstep _ ih =>
      rw [List.append_assoc]
      refine .step c hok hstep ?_
      simpa using ih h2

/-- A single frame and what it pushes. -/
theorem frame {f : Frame} (c : Choice) (hok : c.ok = true)
    (hstep : f.step c e d = some (e₁, d₁, fs)) (hrest : Solo e₁ d₁ fs outs e' d') :
    Solo e d [f] (f.answer ++ outs) e' d' :=
  .step c hok hstep (by rwa [List.append_nil])

/-- It is a run of the machine: some thread takes every step of it, and the others stay where they
are. -/
theorem exec (h : Solo e d fs outs e' d') (t : Nat) (below : List Frame)
    (threads : Nat → List Frame) :
    ∃ acts, (∀ a ∈ acts, ∃ c : Choice, a = .step t c ∧ c.ok = true) ∧
      Lib.exec Machine.step
        { e := e, disk := d, threads := Function.update threads t (fs ++ below) } acts =
          some { e := e', disk := d', threads := Function.update threads t below } := by
  induction h with
  | done e d => exact ⟨[], by simp, by simp⟩
  | @step e e₁ e' d d₁ d' f fs rest outs c hok hstep _ ih =>
      obtain ⟨acts, hacts, hrun⟩ := ih
      refine ⟨.step t c :: acts, ?_, ?_⟩
      · intro a ha
        rcases List.mem_cons.1 ha with rfl | ha
        · exact ⟨c, rfl, hok⟩
        · exact hacts a ha
      · rw [List.append_assoc] at hrun
        simp [Lib.exec, Machine.step, hstep, hrun]

end Solo

/-! ### The calls -/

/-- What the clock decides in a call: whether a drain and a commit are due, and the time. -/
structure Timing where
  drainDue : Bool := false
  metaDue : Bool := false
  now : Nat := 0

namespace Alone

/-- [SRC FileEntry.cc:1074-1189] -/
def flushMeta (force : Bool) (t : Timing) (e : FileEntry) (d : Disk) : FileEntry × Disk :=
  if !e.dirty || (!force && !t.metaDue) then (e, d)
  else
    let (e, f) := e.flushMetaBegin
    if !d.linked then (e, d)
    else
      let (out, merged) := f.image e.cfg e.key d.sidecar
      (if merged then e.flushMetaAdopt out else e, { d with sidecar := some out })

/-- [SRC FileEntry.cc:1065-1072] -/
def touchAtime (t : Timing) (e : FileEntry) : FileEntry :=
  if e.meta_.atime + 60 ≤ t.now then
    { e with meta_ := { e.meta_ with atime := t.now }, dirty := true }
  else e

/-- [SRC FileEntry.cc:829-861] One `pwrite` a run, for as many runs as there are pages at most. -/
def drainRuns (m : MetaData) : Nat → List (Nat × BufPage) → DataFile → List (Nat × UInt32) →
    DataFile × List (Nat × UInt32)
  | n + 1, (first, p) :: rest, data, done =>
      let (run, left) := FileEntry.takeRun m first 0 ((first, p) :: rest)
      drainRuns m n left (data.write (first * m.pageSize) (Frame.runData m run))
        (done ++ run.map fun ip => (ip.1, ip.2.crc))
  | _, _, data, done => (data, done)

/-- [SRC FileEntry.cc:784-899] -/
def flushBuffer (force : Bool) (t : Timing) (e : FileEntry) (d : Disk) : FileEntry × Disk :=
  if e.bufBytes = 0 ∨ (force = false ∧ t.drainDue = false) then (e, d)
  else
    let e := e.drainSnapshot
    let (data, done) := drainRuns e.meta_ e.drainTodo.length e.drainTodo d.data []
    flushMeta force t (e.drainPublish done) { d with data := data }

/-- [SRC FileEntry.cc:721-757] The write loop of `writePagesDirect`. -/
def directPages (e : FileEntry) (off : Nat) (bytes : Bytes) :
    List Nat → DataFile → List (Nat × UInt32) → DataFile × List (Nat × UInt32)
  | [], data, done => (data, done)
  | i :: todo, data, done =>
      if e.meta_.bitmap.get i then directPages e off bytes todo data done
      else
        let page := (FileEntry.cutPage e.meta_ off bytes i).data
        directPages e off bytes todo (data.write (i * e.meta_.pageSize) page)
          (done ++ [(i, crc32c page)])

/-- [SRC FileEntry.cc:756-782] What was written is published. -/
def directEnd (t : Timing) (e : FileEntry) (done : List (Nat × UInt32)) (d : Disk) :
    FileEntry × Disk :=
  if done.isEmpty then (e, d) else flushMeta false t (touchAtime t (e.directPublish done)) d

/-- [SRC FileEntry.cc:497-551, 721-782] -/
def writePages (t : Timing) (off : Nat) (bytes : Bytes) (e : FileEntry) (d : Disk) :
    FileEntry × Disk :=
  let stop := min (off + bytes.length) e.meta_.fileSize
  let pages := FileEntry.wholePages e.meta_ off stop
  if bytes.isEmpty || decide (stop ≤ off) then (e, d)
  else if e.cfg.fillBufferMb ≤ 0 then
    let (data, done) := directPages e off bytes pages d.data []
    directEnd t e done { d with data := data }
  else
    let e' := e.stagePages off bytes
    if pages.any fun i => (e.buf i).isNone && (e'.buf i).isSome then
      flushBuffer false t (touchAtime t e') d
    else (e', d)

/-- [SRC FileEntry.cc:292-304] -/
def demoteBadPages (data : DataFile) : List (Nat × UInt32) → FileEntry → FileEntry
  | [], e => e
  | (i, crc) :: rest, e =>
      let got := data.read (i * e.meta_.pageSize) (FileEntry.runBytes e.meta_ i i)
      match FileEntry.verifyRun e.meta_ i [crc] got with
      | .ok => demoteBadPages data rest e
      | _ => demoteBadPages data rest (e.demoteRun i i)

/-- [SRC FileEntry.cc:439-472] The runs, in order: the caller's buffer, or nothing once a run has
a page that does not check. -/
def readRuns (data : DataFile) (off : Nat) : List FileEntry.ReadRun → FileEntry → Bytes →
    FileEntry × Option Bytes
  | [], e, out => (e, some out)
  | r :: rest, e, out =>
      let got := data.read (r.firstPage * e.meta_.pageSize)
        (FileEntry.runBytes e.meta_ r.firstPage r.lastPage)
      match FileEntry.verifyRun e.meta_ r.firstPage r.expect got with
      | .ok => readRuns data off rest e (FileEntry.copyRun e.meta_ off out.length out r got)
      | .mismatch i => (e.demoteRun i i, none)
      | .short i => (demoteBadPages data (Frame.expectFrom r i) e, none)

/-- [SRC FileEntry.cc:487-494] A read whose runs have all checked keeps the entry fresh. -/
def readEnd (t : Timing) (account : Bool) : FileEntry × Option Bytes → FileEntry × Option Bytes
  | (e, some out) => (if account then touchAtime t e else e, some out)
  | (e, none) => (e, none)

/-- [SRC FileEntry.cc:326-495] The answer is the caller's buffer, when the call returns true. -/
def readCached (t : Timing) (off : Nat) (buf : Bytes) (account : Bool) (e : FileEntry) (d : Disk) :
    FileEntry × Option Bytes :=
  if buf.isEmpty then (e, some buf)
  else if e.meta_.fileSize < off + buf.length then (e, none)
  else
    let (plan, found) := e.readPlan off buf account
    if !found then (plan.e, none)
    else readEnd t account (readRuns d.data off plan.runs.reverse plan.e plan.out)

/-- The holes of the spans, as byte offset and length. -/
def holesOf (m : MetaData) (spans : List (Nat × Nat)) : List (Nat × Nat) :=
  spans.map fun s => (s.1 * m.pageSize, (s.2 - s.1) * m.pageSize)

def punchAll (data : DataFile) (holes : List (Nat × Nat)) : DataFile :=
  holes.foldl (fun f h => f.punch h.1 h.2) data

/-- [SRC FileEntry.cc:1214-1282] The locked section, the commit, and a hole for every span. -/
def releaseRanges (t : Timing) (ranges : List (Nat × Nat)) (e : FileEntry) (d : Disk) :
    FileEntry × Disk :=
  let (e₁, spans) := e.releaseSection ranges
  if spans.isEmpty then (e₁, d)
  else
    let (e₂, d₂) := flushMeta true t e₁ d
    (e₂, { d₂ with data := punchAll d₂.data (holesOf e₂.meta_ spans) })

def flushAll (t : Timing) (e : FileEntry) (d : Disk) : FileEntry × Disk :=
  let (e, d) := flushBuffer true t e d
  flushMeta true t e d

/-! ### Each is a run of its frames -/

theorem solo_flushMeta (force : Bool) (t : Timing) (e : FileEntry) (d : Disk) :
    Solo e d [.flushMeta force] [] (flushMeta force t e d).1 (flushMeta force t e d).2 := by
  have hbegin : Frame.step { due := t.metaDue } e d (.flushMeta force) =
      some (if !e.dirty || (!force && !t.metaDue) then (e, d, [])
        else (e.flushMetaBegin.1, d, [.metaLoad e.flushMetaBegin.2])) := rfl
  have hload (e : FileEntry) (f : MetaFlush) : Frame.step {} e d (.metaLoad f) =
      some (if !d.linked then (e, d, [])
        else (e, d, [.metaStore f (f.image e.cfg e.key d.sidecar).1
          (f.image e.cfg e.key d.sidecar).2])) := rfl
  unfold flushMeta
  split
  · rename_i hclean
    rw [if_pos hclean] at hbegin
    exact .frame _ rfl hbegin (.done e d)
  · rename_i hdirty
    rw [if_neg hdirty] at hbegin
    refine .frame _ rfl hbegin ?_
    simp only
    split
    · rename_i hgone
      have hload := hload e.flushMetaBegin.1 e.flushMetaBegin.2
      rw [if_pos hgone] at hload
      exact .frame _ rfl hload (.done _ d)
    · rename_i hlinked
      have hload := hload e.flushMetaBegin.1 e.flushMetaBegin.2
      rw [if_neg hlinked] at hload
      exact .frame _ rfl hload (.frame {} rfl rfl (.frame {} rfl rfl (.done _ _)))

theorem solo_touchAtime (t : Timing) (e : FileEntry) (d : Disk) :
    Solo e d [.touchAtime] [] (touchAtime t e) d :=
  .frame { now := t.now } rfl rfl (.done _ d)

/-- What is left of a walk after its next run is shorter. -/
theorem length_takeRun_lt (m : MetaData) (first : Nat) (p : BufPage) (rest : List (Nat × BufPage)) :
    (FileEntry.takeRun m first 0 ((first, p) :: rest)).2.length ≤ rest.length := by
  obtain ⟨hsplit, -⟩ := takeRun_spec m rest (first + 1) (0 + m.pageBytes first)
  have hlen := congrArg List.length hsplit
  have hlimit : 0 < FileEntry.kMaxRun := by decide
  simp only [FileEntry.takeRun, hlimit, and_self, if_true]
  rw [List.length_append] at hlen
  omega

theorem solo_drainWrite (force : Bool) (t : Timing) (n : Nat) (todo : List (Nat × BufPage))
    (hn : todo.length ≤ n) (e : FileEntry) (d : Disk) (done : List (Nat × UInt32)) :
    let r := drainRuns e.meta_ n todo d.data done
    let s := flushMeta force t (e.drainPublish r.2) { d with data := r.1 }
    Solo e d [.drainWrite todo done force] [] s.1 s.2 := by
  have hlast : Frame.step {} e d (.drainWrite [] done force) =
      some (e, d, [.drainPublish done force]) := by
    simp [Frame.step, Frame.stepDrainWrite]
  induction n generalizing todo d done with
  | zero =>
      obtain rfl : todo = [] := List.length_eq_zero_iff.1 (Nat.le_zero.1 hn)
      exact .frame _ rfl hlast (.frame {} rfl rfl (solo_flushMeta force t _ d))
  | succ n ih =>
      cases todo with
      | nil => exact .frame _ rfl hlast (.frame {} rfl rfl (solo_flushMeta force t _ d))
      | cons ip rest =>
          obtain ⟨first, p⟩ := ip
          have hleft := length_takeRun_lt e.meta_ first p rest
          refine .frame {} rfl rfl (ih _ ?_ _ _ ?_)
          · exact hleft.trans (by simpa using hn)
          · simp [Frame.step, Frame.stepDrainWrite]

theorem solo_flushBuffer (force : Bool) (t : Timing) (e : FileEntry) (d : Disk)
    (hidle : e.flushInProgress = false) :
    Solo e d [.flushBuffer force] [] (flushBuffer force t e d).1 (flushBuffer force t e d).2 := by
  have hbegin : Frame.step { due := t.drainDue } e d (.flushBuffer force) =
      if e.bufBytes = 0 ∨ (force = false ∧ t.drainDue = false) then some (e, d, [])
      else some (e.drainSnapshot, d, [.drainWrite e.drainSnapshot.drainTodo [] force]) := by
    simp [Frame.step, Frame.stepFlushBuffer, hidle]
  unfold flushBuffer
  split
  · rename_i hskip
    rw [if_pos hskip] at hbegin
    exact .frame _ rfl hbegin (.done e d)
  · rename_i hgo
    rw [if_neg hgo] at hbegin
    exact .frame _ rfl hbegin (solo_drainWrite force t _ _ (Nat.le_refl _) _ d [])

theorem solo_directEnd (t : Timing) (off : Nat) (bytes : Bytes) (e : FileEntry) (d : Disk)
    (done : List (Nat × UInt32)) :
    Solo e d [.directCheck off bytes [] done] [] (directEnd t e done d).1
      (directEnd t e done d).2 := by
  have hlast : Frame.step {} e d (.directCheck off bytes [] done) =
      some (if done.isEmpty then (e, d, []) else (e, d, [.directPublish done])) := by
    simp [Frame.step, Frame.stepDirectCheck]
  unfold directEnd
  split
  · rename_i hnone
    rw [if_pos hnone] at hlast
    exact .frame _ rfl hlast (.done e d)
  · rename_i hsome
    rw [if_neg hsome] at hlast
    refine .frame _ rfl hlast (.frame {} rfl rfl ?_)
    exact (solo_touchAtime t _ d).append (solo_flushMeta false t _ d)

theorem solo_directCheck (t : Timing) (off : Nat) (bytes : Bytes) (e : FileEntry)
    (todo : List Nat) (d : Disk) (done : List (Nat × UInt32)) :
    let r := directPages e off bytes todo d.data done
    let s := directEnd t e r.2 { d with data := r.1 }
    Solo e d [.directCheck off bytes todo done] [] s.1 s.2 := by
  induction todo generalizing d done with
  | nil => exact solo_directEnd t off bytes e d done
  | cons i todo ih =>
      have hnext : Frame.step {} e d (.directCheck off bytes (i :: todo) done) =
          some (if e.meta_.bitmap.get i then (e, d, [.directCheck off bytes todo done])
            else (e, d, [.directWrite off bytes i todo done])) := by
        simp only [Frame.step, Frame.stepDirectCheck]
      simp only [directPages]
      split
      · rename_i hpresent
        rw [if_pos hpresent] at hnext
        exact .frame _ rfl hnext (ih d done)
      · rename_i habsent
        rw [if_neg habsent] at hnext
        exact .frame _ rfl hnext (.frame {} rfl rfl (ih _ _))

theorem busy_touchAtime (t : Timing) (e : FileEntry) :
    (touchAtime t e).flushInProgress = e.flushInProgress := by
  unfold touchAtime
  split <;> rfl

theorem busy_stagePages (e : FileEntry) (off : Nat) (bytes : Bytes) :
    (e.stagePages off bytes).flushInProgress = e.flushInProgress := by
  unfold FileEntry.stagePages
  generalize FileEntry.wholePages _ _ _ = pages
  induction pages generalizing e with
  | nil => rfl
  | cons i pages ih =>
      refine (ih _).trans ?_
      simp only [FileEntry.stagePage, FileEntry.unmarkSpeculative]
      split <;> split <;> rfl

theorem solo_writePages (t : Timing) (off : Nat) (bytes : Bytes) (e : FileEntry) (d : Disk)
    (hidle : e.flushInProgress = false) :
    Solo e d [.writePages off bytes] [] (writePages t off bytes e d).1
      (writePages t off bytes e d).2 := by
  have hbegin : Frame.step {} e d (.writePages off bytes) =
      some (Frame.stepWritePages e d off bytes) := rfl
  unfold writePages
  unfold Frame.stepWritePages at hbegin
  simp only at hbegin ⊢
  split
  · rename_i hnothing
    rw [if_pos hnothing] at hbegin
    exact .frame _ rfl hbegin (.done e d)
  · rename_i hsome
    rw [if_neg hsome] at hbegin
    split
    · rename_i hdirect
      rw [if_pos hdirect] at hbegin
      exact .frame _ rfl hbegin (solo_directCheck t off bytes e _ d [])
    · rename_i hbuffered
      rw [if_neg hbuffered] at hbegin
      split
      · rename_i hstaged
        rw [if_pos hstaged] at hbegin
        refine .frame _ rfl hbegin ((solo_touchAtime t _ d).append (solo_flushBuffer false t _ d ?_))
        rw [busy_touchAtime, busy_stagePages, hidle]
      · rename_i hquiet
        rw [if_neg hquiet] at hbegin
        exact .frame _ rfl hbegin (.done _ d)

theorem solo_demoteBadPages (d : Disk) (todo : List (Nat × UInt32)) (e : FileEntry) :
    Solo e d [.demoteBadPages todo] [] (demoteBadPages d.data todo e) d := by
  induction todo generalizing e with
  | nil => exact .frame {} rfl rfl (.done e d)
  | cons ic rest ih =>
      obtain ⟨i, crc⟩ := ic
      have hdemote : Solo e d [.demote i, .demoteBadPages rest] []
          (demoteBadPages d.data rest (e.demoteRun i i)) d :=
        .step {} rfl rfl (ih (e.demoteRun i i))
      have hnext : Frame.step {} e d (.demoteBadPages ((i, crc) :: rest)) =
          some (Frame.stepDemoteBadPages {} e d ((i, crc) :: rest)) := rfl
      simp only [Frame.stepDemoteBadPages, Frame.preadPages, if_true] at hnext
      simp only [demoteBadPages]
      generalize FileEntry.verifyRun _ _ _ _ = check at hnext ⊢
      cases check with
      | ok => exact .frame _ rfl hnext (ih e)
      | short => exact .frame _ rfl hnext hdemote
      | mismatch => exact .frame _ rfl hnext hdemote

theorem solo_readRuns (t : Timing) (off : Nat) (account : Bool) (d : Disk)
    (runs : List FileEntry.ReadRun) (e : FileEntry) (out : Bytes) :
    let r := readEnd t account (readRuns d.data off runs e out)
    Solo e d [.readRuns off out runs account] r.2.toList r.1 d := by
  induction runs generalizing out with
  | nil =>
      cases account with
      | true => exact .frame {} rfl rfl ((solo_touchAtime t e d).append (.frame {} rfl rfl (.done _ d)))
      | false => exact .frame {} rfl rfl (.frame {} rfl rfl (.done _ d))
  | cons r rest ih =>
      have hnext : Frame.step {} e d (.readRuns off out (r :: rest) account) =
          some (Frame.stepReadRuns {} e d off out (r :: rest) account) := rfl
      simp only [Frame.stepReadRuns, Frame.preadPages, if_true] at hnext
      simp only [readRuns]
      generalize FileEntry.verifyRun _ _ _ _ = check at hnext ⊢
      cases check with
      | ok => exact .frame _ rfl hnext (ih _)
      | short i => exact .frame _ rfl hnext (solo_demoteBadPages d _ e)
      | mismatch i => exact .frame _ rfl hnext (.frame {} rfl rfl (.done _ d))

theorem solo_readCached (t : Timing) (off : Nat) (buf : Bytes) (account : Bool) (e : FileEntry)
    (d : Disk) :
    let r := readCached t off buf account e d
    Solo e d [.readCached off buf account] r.2.toList r.1 d := by
  have hbegin : Frame.step {} e d (.readCached off buf account) =
      some (Frame.stepReadCached e d off buf account) := rfl
  unfold Frame.stepReadCached at hbegin
  unfold readCached
  simp only at hbegin ⊢
  by_cases hempty : buf.isEmpty = true
  · simp only [hempty, if_true] at hbegin ⊢
    exact .frame _ rfl hbegin (.frame {} rfl rfl (.done e d))
  simp only [hempty] at hbegin ⊢
  by_cases hpast : e.meta_.fileSize < off + buf.length
  · simp only [hpast, if_true] at hbegin ⊢
    exact .frame _ rfl hbegin (.done e d)
  simp only [hpast, if_false] at hbegin ⊢
  cases hfound : (e.readPlan off buf account).2 with
  | false =>
      simp only [hfound] at hbegin ⊢
      exact .frame _ rfl hbegin (.done _ d)
  | true =>
      simp only [hfound, if_true] at hbegin ⊢
      have hruns := solo_readRuns t off account d (e.readPlan off buf account).1.runs.reverse
        (e.readPlan off buf account).1.e (e.readPlan off buf account).1.out
      exact .frame _ rfl hbegin hruns

theorem solo_punch (e : FileEntry) (spans : List (Nat × Nat)) (d : Disk) :
    Solo e d [.punch spans] [] e
      { d with data := punchAll d.data (holesOf e.meta_ spans) } := by
  induction spans generalizing d with
  | nil => exact .frame {} rfl rfl (.done e d)
  | cons s rest ih => exact .frame {} rfl rfl (ih _)

theorem solo_releaseRanges (t : Timing) (ranges : List (Nat × Nat)) (e : FileEntry) (d : Disk) :
    Solo e d [.releaseRanges ranges] [] (releaseRanges t ranges e d).1
      (releaseRanges t ranges e d).2 := by
  have hbegin : Frame.step {} e d (.releaseRanges ranges) =
      some (Frame.stepReleaseRanges e d ranges) := rfl
  unfold Frame.stepReleaseRanges at hbegin
  unfold releaseRanges
  simp only at hbegin ⊢
  split
  · rename_i hnone
    rw [if_pos hnone] at hbegin
    exact .frame _ rfl hbegin (.done _ d)
  · rename_i hsome
    rw [if_neg hsome] at hbegin
    exact .frame _ rfl hbegin ((solo_flushMeta true t _ d).append (solo_punch _ _ _))

theorem solo_flushAll (t : Timing) (e : FileEntry) (d : Disk) (hidle : e.flushInProgress = false) :
    Solo e d Op.flushAll.frames [] (flushAll t e d).1 (flushAll t e d).2 :=
  (solo_flushBuffer true t e d hidle).append (solo_flushMeta true t _ _)

/-! ### What a commit makes of the handle -/

variable {e : FileEntry}

/-- The image a commit merges into: the sidecar of this generation and page size, unless the entry
was evicted. -/
def mergeBase (e : FileEntry) (d : Disk) : Option MetaData :=
  if d.linked then
    (MetaFile.load d.sidecar).filter fun disk =>
      decide (disk.pageSize = e.meta_.pageSize) && adoptable disk e.cfg e.key e.meta_.validators
  else none

/-- What the handle says of a page after a commit over an image that says `disk`: its own change
since its last store, and else the image. -/
def committedPage (e : FileEntry) (disk : MetaData) (i : Nat) : Bool × UInt32 :=
  if e.clearedSince.get i then (false, 0)
  else if e.setSince.get i then (true, e.meta_.pageCrcs i)
  else disk.seen i

/-- Everything of the handle that a commit leaves alone. -/
structure SameStage (e e' : FileEntry) : Prop where
  cfg : e'.cfg = e.cfg
  key : e'.key = e.key
  buf : e'.buf = e.buf
  flushing : e'.flushing = e.flushing
  bufBytes : e'.bufBytes = e.bufBytes
  specBytes : e'.specBytes = e.specBytes
  busy : e'.flushInProgress = e.flushInProgress
  pageSize : e'.meta_.pageSize = e.meta_.pageSize
  validators : e'.meta_.validators = e.meta_.validators

theorem SameStage.refl (e : FileEntry) : SameStage e e :=
  ⟨rfl, rfl, rfl, rfl, rfl, rfl, rfl, rfl, rfl⟩

theorem SameStage.trans {e₁ e' : FileEntry} (h1 : SameStage e e₁) (h2 : SameStage e₁ e') :
    SameStage e e' where
  cfg := h2.cfg.trans h1.cfg
  key := h2.key.trans h1.key
  buf := h2.buf.trans h1.buf
  flushing := h2.flushing.trans h1.flushing
  bufBytes := h2.bufBytes.trans h1.bufBytes
  specBytes := h2.specBytes.trans h1.specBytes
  busy := h2.busy.trans h1.busy
  pageSize := h2.pageSize.trans h1.pageSize
  validators := h2.validators.trans h1.validators

theorem SameStage.fileSize {e' : FileEntry} (h : SameStage e e') :
    e'.meta_.fileSize = e.meta_.fileSize := congrArg Validators.originSize h.validators

/-- A commit that goes through: the deltas are taken, and with an image to merge into every page is
what the two make of it. -/
structure Committed (e : FileEntry) (d : Disk) (e' : FileEntry) (d' : Disk) : Prop where
  stage : SameStage e e'
  clean : e'.dirty = false
  setSince : ∀ i, e'.setSince.get i = false
  clearedSince : ∀ i, e'.clearedSince.get i = false
  data : d'.data = d.data
  linked : d'.linked = d.linked
  page : ∀ i < e.meta_.npages, e'.meta_.page i =
    ((mergeBase e d).map fun disk => committedPage e disk i).getD (e.meta_.page i)
  /-- The sidecar it leaves says of every page what the handle says. -/
  stored : d.linked = true → ∃ out, d'.sidecar = some out ∧ out.pageSize = e.meta_.pageSize ∧
    out.fileSize = e.meta_.fileSize ∧
    ∀ i < e.meta_.npages, out.seen i = e'.meta_.seen i

theorem flushMeta_skip {force : Bool} {t : Timing} (d : Disk)
    (h : (!e.dirty || (!force && !t.metaDue)) = true) : flushMeta force t e d = (e, d) := by
  rw [flushMeta, if_pos h]

theorem npages_of_adoptable {disk m : MetaData} {cfg : Config} {key : Bytes}
    (hsize : disk.pageSize = m.pageSize) (h : adoptable disk cfg key m.validators = true) :
    disk.npages = m.npages := by
  simp only [adoptable, Bool.and_eq_true, decide_eq_true_eq] at h
  have hfile : disk.fileSize = m.fileSize := h.1.1.1.1.2
  simp [MetaData.npages, hsize, hfile]

/-- The image that a commit of a linked entry stores. -/
theorem image_of_mergeBase {d : Disk} (hlinked : d.linked = true) :
    e.flushMetaBegin.2.image e.cfg e.key d.sidecar =
      match mergeBase e d with
      | some disk => (e.flushMetaBegin.2.merge disk, true)
      | none => (e.meta_, false) := by
  unfold MetaFlush.image mergeBase
  rw [if_pos hlinked]
  cases MetaFile.load d.sidecar with
  | none => rfl
  | some disk =>
      by_cases hown : disk.pageSize = e.meta_.pageSize ∧
          adoptable disk e.cfg e.key e.meta_.validators = true <;>
        simp [hown, Option.filter, FileEntry.flushMetaBegin]

theorem mergeBase_eq_some {d : Disk} {disk : MetaData} (h : mergeBase e d = some disk) :
    d.linked = true ∧ MetaFile.load d.sidecar = some disk ∧ disk.pageSize = e.meta_.pageSize ∧
      adoptable disk e.cfg e.key e.meta_.validators = true := by
  unfold mergeBase at h
  split at h
  · rename_i hlinked
    simp only [Option.filter_eq_some_iff, Bool.and_eq_true, decide_eq_true_eq] at h
    exact ⟨hlinked, h.1, h.2.1, h.2.2⟩
  · cases h

theorem mergeBase_congr {e' : FileEntry} {d d' : Disk} (hcfg : e'.cfg = e.cfg)
    (hkey : e'.key = e.key) (hsize : e'.meta_.pageSize = e.meta_.pageSize)
    (hval : e'.meta_.validators = e.meta_.validators) (hside : d'.sidecar = d.sidecar)
    (hlinked : d'.linked = d.linked) : mergeBase e' d' = mergeBase e d := by
  simp only [mergeBase, hcfg, hkey, hsize, hval, hside, hlinked]

/-- A merged page is the handle's own change, and else the page on disk. -/
theorem seen_merge {disk : MetaData} {i : Nat} (hi : i < disk.npages) :
    (e.flushMetaBegin.2.merge disk).seen i = committedPage e disk i := by
  simp only [MetaData.seen, MetaFlush.merge, PageBitmap.get_updateRange, hi, if_true,
    committedPage, FileEntry.flushMetaBegin]
  by_cases hclear : e.clearedSince.get i = true
  · simp [hclear]
  · by_cases hset : e.setSince.get i = true <;> simp [hclear, hset]

/-- Adopting an image with nothing pending takes every page from it. -/
theorem page_adopt_begin {e : FileEntry} {out : MetaData} {i : Nat} (hi : i < e.meta_.npages) :
    (e.flushMetaBegin.1.flushMetaAdopt out).meta_.page i = out.seen i := by
  simp only [FileEntry.flushMetaAdopt, MetaData.page, MetaData.seen, PageBitmap.get_updateRange,
    hi, if_true, FileEntry.flushMetaBegin, PageBitmap.get_clearAll, Bool.or_self,
    Bool.false_eq_true, if_false]
  cases out.bitmap.get i <;> simp

theorem committed_flushMeta {force : Bool} {t : Timing} {e : FileEntry} {d : Disk}
    (h : (!e.dirty || (!force && !t.metaDue)) = false) :
    Committed e d (flushMeta force t e d).1 (flushMeta force t e d).2 := by
  have hgo : flushMeta force t e d =
      if !d.linked then (e.flushMetaBegin.1, d)
      else
        (if (e.flushMetaBegin.2.image e.cfg e.key d.sidecar).2 then
            e.flushMetaBegin.1.flushMetaAdopt (e.flushMetaBegin.2.image e.cfg e.key d.sidecar).1
          else e.flushMetaBegin.1,
          { d with sidecar := some (e.flushMetaBegin.2.image e.cfg e.key d.sidecar).1 }) := by
    rw [flushMeta, h]
    rfl
  cases hlinked : d.linked with
  | false =>
      have hbase : mergeBase e d = none := by simp [mergeBase, hlinked]
      rw [hgo, hlinked]
      exact ⟨⟨rfl, rfl, rfl, rfl, rfl, rfl, rfl, rfl, rfl⟩, rfl, fun _ => rfl, fun _ => rfl, rfl, rfl,
        fun i _ => by rw [hbase]; rfl, fun hl => by simp [hlinked] at hl⟩
  | true =>
      cases hbase : mergeBase e d with
      | none =>
          have hres : flushMeta force t e d =
              (e.flushMetaBegin.1, { d with sidecar := some e.meta_ }) := by
            rw [hgo, image_of_mergeBase hlinked, hbase, hlinked]
            rfl
          rw [hres]
          exact ⟨⟨rfl, rfl, rfl, rfl, rfl, rfl, rfl, rfl, rfl⟩, rfl, fun _ => rfl, fun _ => rfl, rfl,
            rfl, fun i _ => by rw [hbase]; rfl, fun _ => ⟨e.meta_, rfl, rfl, rfl, fun _ _ => rfl⟩⟩
      | some disk =>
          have hres : flushMeta force t e d =
              (e.flushMetaBegin.1.flushMetaAdopt (e.flushMetaBegin.2.merge disk),
                { d with sidecar := some (e.flushMetaBegin.2.merge disk) }) := by
            rw [hgo, image_of_mergeBase hlinked, hbase, hlinked]
            rfl
          obtain ⟨-, -, hsize, hadopt⟩ := mergeBase_eq_some hbase
          have hn := npages_of_adoptable hsize hadopt
          have hfile : disk.fileSize = e.meta_.fileSize := by
            simp only [adoptable, Bool.and_eq_true, decide_eq_true_eq] at hadopt
            exact hadopt.1.1.1.1.2
          have hpage (i : Nat) (hi : i < e.meta_.npages) :=
            @page_adopt_begin e (e.flushMetaBegin.2.merge disk) i hi
          rw [hres]
          refine ⟨⟨rfl, rfl, rfl, rfl, rfl, rfl, rfl, rfl, rfl⟩, rfl, fun _ => rfl, fun _ => rfl, rfl,
            rfl, ?_, fun _ => ⟨e.flushMetaBegin.2.merge disk, rfl, hsize, hfile, ?_⟩⟩
          · intro i hi
            rw [hbase]
            exact (hpage i hi).trans (seen_merge (hn ▸ hi))
          · intro i hi
            refine (MetaData.seen_of_page (hpage i hi) ?_).symm
            unfold MetaData.seen
            split <;> simp

end Alone

end UCache
