/-
Module: UCache.Core.EntryMachine
Purpose: One handle as threads interleaving over shared memory and disk.  A thread is a stack of
  what it has still to do; a step runs one section under the mutex, or one system call, of the
  thread the scheduler picks.
Trusted boundary: none
Main exports: DataFile, Disk, Frame
-/
import UCache.Core.FileEntry
import UCache.Lib.Run

namespace UCache

open Lib

/-! ### The disk -/

/-- The `.data` file.  `punched` is a ghost: the bytes in a hole punched since the handle was opened
that were not written after it. -/
structure DataFile where
  size : Nat
  byte : Nat → UInt8
  punched : Nat → Bool := fun _ => false

namespace DataFile

/-- A `pread`: short at the end of the file. -/
def read (d : DataFile) (off len : Nat) : Bytes :=
  (List.range (min len (d.size - off))).map fun k => d.byte (off + k)

def write (d : DataFile) (off : Nat) (b : Bytes) : DataFile :=
  if b.isEmpty then d
  else
    { size := max d.size (off + b.length)
      byte := fun k => if off ≤ k ∧ k < off + b.length then b.getD (k - off) 0 else d.byte k
      punched := fun k => d.punched k && !(decide (off ≤ k) && decide (k < off + b.length)) }

/-- Deallocate the stretch: it reads as zeros. -/
def punch (d : DataFile) (off len : Nat) : DataFile :=
  { d with
    byte := fun k => if off ≤ k ∧ k < off + len then 0 else d.byte k
    punched := fun k => d.punched k || (decide (off ≤ k) && decide (k < off + len)) }

/-- Empty sparse file of the given size. -/
def truncate (n : Nat) : DataFile := { size := n, byte := fun _ => 0 }

end DataFile

/-- What a handle sees of the disk: the sidecar at its path, the file its descriptor refers to and
whether that file still has its name. -/
structure Disk where
  sidecar : Option MetaData
  data : DataFile
  linked : Bool := true

/-! ### Threads -/

/-- What a thread has still to do.  The `meta…` frames are the sections of `flushMeta` past its
snapshot. -/
inductive Frame where
  | flushMeta (force : Bool)
  | metaLoad (f : MetaFlush)
  | metaStore (f : MetaFlush) (out : MetaData) (merged : Bool)
  | metaEnd (f : MetaFlush) (out : MetaData) (merged ok : Bool)
  | touchAtime
  | writePages (off : Nat) (bytes : Bytes)
  | directCheck (off : Nat) (bytes : Bytes) (todo : List Nat) (done : List (Nat × UInt32))
  | directWrite (off : Nat) (bytes : Bytes) (i : Nat) (todo : List Nat)
      (done : List (Nat × UInt32))
  | directPublish (done : List (Nat × UInt32))
  | flushBuffer (force : Bool)
  | drainWrite (todo : List (Nat × BufPage)) (done : List (Nat × UInt32)) (force : Bool)
  | drainPublish (done : List (Nat × UInt32)) (force : Bool)
  | stageSpeculative (off : Nat) (bytes : Bytes)
  | dropSpeculative (off len : Nat)
  | consumeSpeculative (off len : Nat)
  | checkpoint
  | setPinned (p : Bool)
  | releaseRanges (ranges : List (Nat × Nat))
  | punch (spans : List (Nat × Nat))
  | readCached (off : Nat) (buf : Bytes) (account : Bool)
  | readRuns (off : Nat) (out : Bytes) (runs : List FileEntry.ReadRun) (account : Bool)
  /-- `readCached` has returned true with this buffer. -/
  | readDone (off : Nat) (out : Bytes)
  | demote (i : Nat)
  | demoteBadPages (todo : List (Nat × UInt32))
  | verifyAll (i : Nat) (bad : Bool)
  | scrubPage (i : Nat) (expect : UInt32) (bad : Bool)

/-- What the environment decides in a step: whether an interval has run out, whether a system call
succeeded, how many bytes a failed transfer moved, and the clock. -/
structure Choice where
  due : Bool := true
  ok : Bool := true
  count : Nat := 0
  now : Nat := 0

namespace Frame

/-- Bytes of a run as `flushBuffer` lays them out. -/
def runData (m : MetaData) (run : List (Nat × BufPage)) : Bytes :=
  (run.map fun ip => ip.2.data.take (m.pageBytes ip.1)).flatten

/-- What `pread` of pages `first` to `last` gives: everything, or a part when it fails. -/
def preadPages (c : Choice) (m : MetaData) (d : DataFile) (first last : Nat) : Bytes :=
  let got := d.read (first * m.pageSize) (FileEntry.runBytes m first last)
  if c.ok then got else got.take c.count

/-- The pages of a run from `i` on, with the CRCs they must have. -/
def expectFrom (r : FileEntry.ReadRun) (i : Nat) : List (Nat × UInt32) :=
  ((List.range' r.firstPage r.expect.length).zip r.expect).drop (i - r.firstPage)

/-- [SRC FileEntry.cc:1074-1189] `flushMeta`: snapshot, load and merge, store, adopt or re-arm. -/
def stepFlushMeta (c : Choice) (e : FileEntry) (d : Disk) (force : Bool) :
    FileEntry × Disk × List Frame :=
  if !e.dirty || (!force && !c.due) then (e, d, [])
  else
    let (e, f) := e.flushMetaBegin
    (e, d, [.metaLoad f])

def stepMetaLoad (e : FileEntry) (d : Disk) (f : MetaFlush) : FileEntry × Disk × List Frame :=
  -- Evicted while open: the sidecar is not resurrected.
  if !d.linked then (e, d, [])
  else
    let (out, merged) := f.image e.cfg e.key d.sidecar
    (e, d, [.metaStore f out merged])

def stepMetaStore (c : Choice) (e : FileEntry) (d : Disk) (f : MetaFlush) (out : MetaData)
    (merged : Bool) : FileEntry × Disk × List Frame :=
  (e, if c.ok then { d with sidecar := some out } else d, [.metaEnd f out merged c.ok])

def stepMetaEnd (e : FileEntry) (d : Disk) (f : MetaFlush) (out : MetaData) (merged ok : Bool) :
    FileEntry × Disk × List Frame :=
  (if ok then if merged then e.flushMetaAdopt out else e else e.flushMetaFailed f, d, [])

/-- [SRC FileEntry.cc:1065-1072] -/
def stepTouchAtime (c : Choice) (e : FileEntry) (d : Disk) : FileEntry × Disk × List Frame :=
  (if e.meta_.atime + 60 ≤ c.now then
      { e with meta_ := { e.meta_ with atime := c.now }, dirty := true }
    else e, d, [])

/-- [SRC FileEntry.cc:497-551] -/
def stepWritePages (e : FileEntry) (d : Disk) (off : Nat) (bytes : Bytes) :
    FileEntry × Disk × List Frame :=
  let stop := min (off + bytes.length) e.meta_.fileSize
  let pages := FileEntry.wholePages e.meta_ off stop
  if bytes.isEmpty || decide (stop ≤ off) then (e, d, [])
  else if e.cfg.fillBufferMb ≤ 0 then (e, d, [.directCheck off bytes pages []])
  else
    let e' := e.stagePages off bytes
    let staged := pages.any fun i => (e.buf i).isNone && (e'.buf i).isSome
    (e', d, if staged then [.touchAtime, .flushBuffer false] else [])

/-- [SRC FileEntry.cc:721-782] `writePagesDirect`: for each page the presence check under the lock
and the `pwrite`; after the loop the sync, then the publication. -/
def stepDirectCheck (c : Choice) (e : FileEntry) (d : Disk) (off : Nat) (bytes : Bytes)
    (todo : List Nat) (done : List (Nat × UInt32)) : FileEntry × Disk × List Frame :=
  match todo with
  | i :: rest =>
      if e.meta_.bitmap.get i then (e, d, [.directCheck off bytes rest done])
      else (e, d, [.directWrite off bytes i rest done])
  | [] =>
      if done.isEmpty || (decide (e.cfg.fsync ≠ .off) && !c.ok) then (e, d, [])
      else (e, d, [.directPublish done])

def stepDirectWrite (c : Choice) (e : FileEntry) (d : Disk) (off : Nat) (bytes : Bytes) (i : Nat)
    (todo : List Nat) (done : List (Nat × UInt32)) : FileEntry × Disk × List Frame :=
  let page := (FileEntry.cutPage e.meta_ off bytes i).data
  let start := i * e.meta_.pageSize
  if c.ok then
    (e, { d with data := d.data.write start page },
      [.directCheck off bytes todo (done ++ [(i, crc32c page)])])
  else (e, { d with data := d.data.write start (page.take c.count) }, [.directCheck off bytes [] done])

/-- [SRC FileEntry.cc:784-817] The snapshot section of `flushBuffer`; a forced one waits for the
drain in progress. -/
def stepFlushBuffer (c : Choice) (e : FileEntry) (d : Disk) (force : Bool) :
    Option (FileEntry × Disk × List Frame) :=
  if e.flushInProgress then if force then none else some (e, d, [])
  else if e.bufBytes = 0 ∨ (force = false ∧ c.due = false) then some (e, d, [])
  else
    let e := e.drainSnapshot
    some (e, d, [.drainWrite e.drainTodo [] force])

/-- [SRC FileEntry.cc:820-870] One coalesced `pwrite`, or after the last the sync. -/
def stepDrainWrite (c : Choice) (e : FileEntry) (d : Disk) (todo : List (Nat × BufPage))
    (done : List (Nat × UInt32)) (force : Bool) : FileEntry × Disk × List Frame :=
  match todo with
  | (first, p) :: rest =>
      let (run, left) := FileEntry.takeRun e.meta_ first 0 ((first, p) :: rest)
      let bytes := runData e.meta_ run
      let start := first * e.meta_.pageSize
      if c.ok then
        (e, { d with data := d.data.write start bytes },
          [.drainWrite left (done ++ run.map fun ip => (ip.1, ip.2.crc)) force])
      else (e, { d with data := d.data.write start (bytes.take c.count) }, [.drainWrite [] done force])
  | [] =>
      -- Bits whose bytes could not be synced are never published.
      let lost := !done.isEmpty && decide (e.cfg.fsync ≠ .off) && !c.ok
      (e, d, [.drainPublish (if lost then [] else done) force])

/-- [SRC FileEntry.cc:1214-1282] The locked section, then the commit, then the holes. -/
def stepReleaseRanges (e : FileEntry) (d : Disk) (ranges : List (Nat × Nat)) :
    FileEntry × Disk × List Frame :=
  let (e, spans) := e.releaseSection ranges
  (e, d, if spans.isEmpty then [] else [.flushMeta true, .punch spans])

def stepPunch (c : Choice) (e : FileEntry) (d : Disk) (spans : List (Nat × Nat)) :
    FileEntry × Disk × List Frame :=
  match spans with
  | s :: rest =>
      let P := e.meta_.pageSize
      (e, if c.ok then { d with data := d.data.punch (s.1 * P) ((s.2 - s.1) * P) } else d,
        [.punch rest])
  | [] => (e, d, [])

/-- [SRC FileEntry.cc:326-437] -/
def stepReadCached (e : FileEntry) (d : Disk) (off : Nat) (buf : Bytes) (account : Bool) :
    FileEntry × Disk × List Frame :=
  if buf.isEmpty then (e, d, [.readDone off buf])
  else if e.meta_.fileSize < off + buf.length then (e, d, [])
  else
    let (plan, found) := e.readPlan off buf account
    (plan.e, d, if found then [.readRuns off plan.out plan.runs.reverse account] else [])

/-- [SRC FileEntry.cc:439-495] One run: read it, check it, copy the requested part. -/
def stepReadRuns (c : Choice) (e : FileEntry) (d : Disk) (off : Nat) (out : Bytes)
    (runs : List FileEntry.ReadRun) (account : Bool) : FileEntry × Disk × List Frame :=
  match runs with
  | r :: rest =>
      let got := preadPages c e.meta_ d.data r.firstPage r.lastPage
      match FileEntry.verifyRun e.meta_ r.firstPage r.expect got with
      | .ok => (e, d, [.readRuns off (FileEntry.copyRun e.meta_ off out.length out r got) rest account])
      | .mismatch i => (e, d, [.demote i])
      | .short i => (e, d, [.demoteBadPages (expectFrom r i)])
  | [] => (e, d, if account then [.touchAtime, .readDone off out] else [.readDone off out])

/-- [SRC FileEntry.cc:289-304] Re-read page by page and demote the bad ones. -/
def stepDemoteBadPages (c : Choice) (e : FileEntry) (d : Disk) (todo : List (Nat × UInt32)) :
    FileEntry × Disk × List Frame :=
  match todo with
  | (i, crc) :: rest =>
      match FileEntry.verifyRun e.meta_ i [crc] (preadPages c e.meta_ d.data i i) with
      | .ok => (e, d, [.demoteBadPages rest])
      | _ => (e, d, [.demote i, .demoteBadPages rest])
  | [] => (e, d, [])

/-- [SRC FileEntry.cc:1284-1304] The lock section of one page of the scrub. -/
def stepVerifyAll (e : FileEntry) (d : Disk) (i : Nat) (bad : Bool) :
    FileEntry × Disk × List Frame :=
  if e.meta_.npages ≤ i then (e, d, if bad then [.flushMeta true] else [])
  else if e.meta_.bitmap.get i then (e, d, [.scrubPage i (e.meta_.pageCrcs i) bad])
  else (e, d, [.verifyAll (i + 1) bad])

def stepScrubPage (c : Choice) (e : FileEntry) (d : Disk) (i : Nat) (expect : UInt32)
    (bad : Bool) : FileEntry × Disk × List Frame :=
  match FileEntry.verifyRun e.meta_ i [expect] (preadPages c e.meta_ d.data i i) with
  | .ok => (e, d, [.verifyAll (i + 1) bad])
  | .mismatch _ => (e, d, [.demote i, .verifyAll (i + 1) true])
  | .short _ => (e, d, [.demoteBadPages [(i, expect)], .verifyAll (i + 1) true])

/-- Run the section or system call a frame stands at: the new state and the frames that take its
place.  `none` while the thread has to wait. -/
def step (c : Choice) (e : FileEntry) (d : Disk) : Frame → Option (FileEntry × Disk × List Frame)
  | .flushMeta force => some (stepFlushMeta c e d force)
  | .metaLoad f => some (stepMetaLoad e d f)
  | .metaStore f out merged => some (stepMetaStore c e d f out merged)
  | .metaEnd f out merged ok => some (stepMetaEnd e d f out merged ok)
  | .touchAtime => some (stepTouchAtime c e d)
  | .writePages off bytes => some (stepWritePages e d off bytes)
  | .directCheck off bytes todo done => some (stepDirectCheck c e d off bytes todo done)
  | .directWrite off bytes i todo done => some (stepDirectWrite c e d off bytes i todo done)
  | .directPublish done => some (e.directPublish done, d, [.touchAtime, .flushMeta false])
  | .flushBuffer force => stepFlushBuffer c e d force
  | .drainWrite todo done force => some (stepDrainWrite c e d todo done force)
  | .drainPublish done force => some (e.drainPublish done, d, [.flushMeta force])
  | .stageSpeculative off bytes => some (e.stageSpeculative off bytes, d, [])
  | .dropSpeculative off len => some (e.dropSpeculative off len, d, [])
  | .consumeSpeculative off len => some (e.consumeSpeculative off len, d, [])
  | .checkpoint =>
      if decide (0 < e.bufBytes) && !e.flushInProgress && c.due then
        some (e, d, [.flushBuffer true])
      else some (e, d, [.flushMeta false])
  | .setPinned p => some (e.setPinned p, d, [.flushMeta true])
  | .releaseRanges ranges => some (stepReleaseRanges e d ranges)
  | .punch spans => some (stepPunch c e d spans)
  | .readCached off buf account => some (stepReadCached e d off buf account)
  | .readRuns off out runs account => some (stepReadRuns c e d off out runs account)
  | .readDone _ _ => some (e, d, [])
  | .demote i => some (e.demoteRun i i, d, [])
  | .demoteBadPages todo => some (stepDemoteBadPages c e d todo)
  | .verifyAll i bad => some (stepVerifyAll e d i bad)
  | .scrubPage i expect bad => some (stepScrubPage c e d i expect bad)

end Frame

/-! ### The machine -/

/-- The calls a thread can make on the handle. -/
inductive Op where
  | writePages (off : Nat) (bytes : Bytes)
  | stageSpeculative (off : Nat) (bytes : Bytes)
  | dropSpeculative (off len : Nat)
  | consumeSpeculative (off len : Nat)
  | flushBuffer (force : Bool)
  | flushMeta (force : Bool)
  | flushAll
  | checkpoint
  | touchAtime
  | setPinned (p : Bool)
  | releaseRanges (ranges : List (Nat × Nat))
  | readCached (off : Nat) (buf : Bytes) (account : Bool)
  | verifyAll

def Op.frames : Op → List Frame
  | .writePages off bytes => [.writePages off bytes]
  | .stageSpeculative off bytes => [.stageSpeculative off bytes]
  | .dropSpeculative off len => [.dropSpeculative off len]
  | .consumeSpeculative off len => [.consumeSpeculative off len]
  | .flushBuffer force => [.flushBuffer force]
  | .flushMeta force => [.flushMeta force]
  | .flushAll => [.flushBuffer true, .flushMeta true]
  | .checkpoint => [.checkpoint]
  | .touchAtime => [.touchAtime]
  | .setPinned p => [.setPinned p]
  | .releaseRanges ranges => [.releaseRanges ranges]
  | .readCached off buf account => [.readCached off buf account]
  | .verifyAll => [.verifyAll 0 false]

/-- A handle, the disk under it and the threads that use it. -/
structure Machine where
  e : FileEntry
  disk : Disk
  threads : Nat → List Frame := fun _ => []

inductive MachineAct where
  | start (t : Nat) (op : Op)
  | step (t : Nat) (c : Choice)

/-- The thread an action is about. -/
def MachineAct.thread : MachineAct → Nat
  | .start t _ => t
  | .step t _ => t

namespace Machine

variable {s s' : Machine}

def idle (s : Machine) : Prop := ∀ t, s.threads t = []

def step (s : Machine) : MachineAct → Option Machine
  | .start t op =>
      match s.threads t with
      | [] => some { s with threads := Function.update s.threads t op.frames }
      | _ :: _ => none
  | .step t c =>
      match s.threads t with
      | [] => none
      | fr :: rest =>
          (fr.step c s.e s.disk).map fun (e, d, frames) =>
            { e := e, disk := d, threads := Function.update s.threads t (frames ++ rest) }

theorem start_inv {t : Nat} {op : Op} (h : s.step (.start t op) = some s') :
    s.threads t = [] ∧ s' = { s with threads := Function.update s.threads t op.frames } := by
  simp only [step] at h
  split at h
  · rename_i ht
    exact ⟨ht, by simpa using h.symm⟩
  · simp at h

theorem step_inv {t : Nat} {c : Choice} (h : s.step (.step t c) = some s') :
    ∃ fr rest r, s.threads t = fr :: rest ∧ fr.step c s.e s.disk = some r ∧
      s' = { e := r.1, disk := r.2.1, threads := Function.update s.threads t (r.2.2 ++ rest) } := by
  simp only [step] at h
  split at h
  · simp at h
  · rename_i fr rest ht
    simp only [Option.map_eq_some_iff] at h
    obtain ⟨r, hr, rfl⟩ := h
    exact ⟨fr, rest, r, ht, hr, rfl⟩

theorem step_threads_of_ne {a : MachineAct} {t : Nat} (h : s.step a = some s') (ht : t ≠ a.thread) :
    s'.threads t = s.threads t := by
  cases a with
  | start t' op =>
      obtain ⟨-, rfl⟩ := start_inv h
      exact Function.update_of_ne ht _ _
  | step t' c =>
      obtain ⟨fr, rest, r, -, -, rfl⟩ := step_inv h
      exact Function.update_of_ne ht _ _

/-- A thread that no action of the run is about stays where it is. -/
theorem exec_threads_of_ne {acts : List MachineAct} {t : Nat} (h : exec step s acts = some s')
    (ht : ∀ a ∈ acts, t ≠ a.thread) : s'.threads t = s.threads t := by
  induction acts generalizing s with
  | nil =>
      cases h
      rfl
  | cons a acts ih =>
      obtain ⟨s₁, hs₁, hrest⟩ := exec_cons_inv h
      rw [ih hrest fun b hb => ht b (by simp [hb]), step_threads_of_ne hs₁ (ht a (by simp))]

/-- All calls have returned once the threads that took part have. -/
theorem idle_of_threads (ts : List Nat) {acts : List MachineAct} (h : exec step s acts = some s')
    (hs : s.idle) (hts : ∀ a ∈ acts, a.thread ∈ ts) (hdone : ∀ t ∈ ts, s'.threads t = []) :
    s'.idle := by
  intro t
  by_cases ht : t ∈ ts
  · exact hdone t ht
  · refine (exec_threads_of_ne h ?_).trans (hs t)
    rintro a ha rfl
    exact ht (hts a ha)

/-- [SRC FileEntry.cc:46-133] A handle just opened: over the sidecar it could adopt, or over a
truncated file and an empty sidecar, stored or not. -/
def opened (cfg : Config) (key : Bytes) (v : Validators) (now : Nat) (stored : Bool)
    (sidecar : Option MetaData) (data : DataFile) : Machine :=
  match FileEntry.openAdopt cfg key v sidecar with
  | some e =>
      { e := e, disk := { sidecar := sidecar, data := { data with punched := fun _ => false } } }
  | none =>
      let e := FileEntry.openFresh cfg key v now stored
      { e := e
        disk :=
          { sidecar := if stored then some e.meta_ else sidecar
            data := DataFile.truncate v.originSize } }

end Machine

end UCache
