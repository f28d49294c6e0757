/-
Module: UCache.Core.FileEntry
Purpose: The sections of `FileEntry` that run under its mutex, as functions on the guarded state:
  presence transitions, the sidecar commit (snapshot, merge, re-arm, adopt), the fill stage, the
  drain, the release of ranges and the planning of a cached read.
Trusted boundary: none
Main exports: BufPage, Transition, FileEntry
-/
import UCache.Core.MetaFile
import UCache.Lib.Bytes

namespace UCache

open Lib

/-- A page staged in RAM.  `spec`: read ahead, served but not written while marked. -/
structure BufPage where
  data : Bytes
  crc : UInt32
  spec : Bool := false
  touched : Bool := false
deriving DecidableEq

/-- A presence transition or a touch of the pin. -/
inductive Transition where
  | publish (pg : Nat) (crc : UInt32)
  | retract (pg : Nat)
  | pin (p : Bool)
deriving DecidableEq, Repr

/-- What the transition says about page `i`: its presence bit and its CRC. -/
def Transition.page (i : Nat) : Transition → Option (Bool × UInt32)
  | .publish pg crc => if i = pg then some (true, crc) else none
  | .retract pg => if i = pg then some (false, 0) else none
  | .pin _ => none

/-- What the transition says about the pin. -/
def Transition.pinned : Transition → Option Bool
  | .pin p => some p
  | _ => none

/-- [SRC FileEntry.h:343-391] What `mu_` guards.  The two stage maps are ordered by page index,
so a walk over them is a walk over the page numbers below `npages`.  Counters that only feed
statistics are left out.  `trace` is a ghost: the transitions of this handle, oldest first; nothing
reads it. -/
structure FileEntry where
  cfg : Config
  key : Bytes
  meta_ : MetaData
  dirty : Bool := false
  setSince : PageBitmap
  clearedSince : PageBitmap
  pinTouched : Bool := false
  buf : Nat → Option BufPage := fun _ => none
  flushing : Nat → Option BufPage := fun _ => none
  bufBytes : Nat := 0
  specBytes : Nat := 0
  flushInProgress : Bool := false
  trace : List Transition := []

namespace FileEntry

/-- A handle over the given metadata, nothing staged and nothing pending. -/
def ofMeta (cfg : Config) (key : Bytes) (m : MetaData) (dirty : Bool) : FileEntry :=
  { cfg := cfg
    key := key
    meta_ := m
    dirty := dirty
    setSince := PageBitmap.reset m.npages
    clearedSince := PageBitmap.reset m.npages }

/-! ### Opening -/

/-- The sidecar of a fresh start: this origin, every page absent. -/
def freshMeta (cfg : Config) (key : Bytes) (v : Validators) (now : Nat) : MetaData :=
  { MetaData.fresh key v.originSize cfg.pageSize now with
    originMtime := v.originMtime
    cksumKind := v.cksumKind
    originCksum := v.originCksum }

/-- [SRC FileEntry.cc:62-78] The adopting outcome of `open`: the sidecar on disk can be read and
belongs to this origin. -/
def openAdopt (cfg : Config) (key : Bytes) (v : Validators) (sidecar : Option MetaData) :
    Option FileEntry :=
  (MetaFile.load sidecar).bind fun m =>
    if adoptable m cfg key v then some (ofMeta cfg key m false) else none

/-- [SRC FileEntry.cc:98-109] The fresh outcome: dirty when the empty sidecar could not be
stored. -/
def openFresh (cfg : Config) (key : Bytes) (v : Validators) (now : Nat) (stored : Bool) :
    FileEntry :=
  ofMeta cfg key (freshMeta cfg key v now) (!stored)

/-! ### Presence transitions -/

/-- [SRC FileEntry.cc:147-152] -/
def publishPage (e : FileEntry) (pg : Nat) (crc : UInt32) : FileEntry :=
  { e with
    meta_ := { e.meta_ with
      bitmap := e.meta_.bitmap.set pg
      pageCrcs := Function.update e.meta_.pageCrcs pg crc }
    setSince := e.setSince.set pg
    clearedSince := e.clearedSince.clear pg
    trace := e.trace ++ [.publish pg crc] }

/-- [SRC FileEntry.cc:154-159] -/
def retractPage (e : FileEntry) (pg : Nat) : FileEntry :=
  { e with
    meta_ := { e.meta_ with
      bitmap := e.meta_.bitmap.clear pg
      pageCrcs := Function.update e.meta_.pageCrcs pg 0 }
    clearedSince := e.clearedSince.set pg
    setSince := e.setSince.clear pg
    trace := e.trace ++ [.retract pg] }

/-- The locked half of `setPinned`. -/
def setPinned (e : FileEntry) (p : Bool) : FileEntry :=
  { e with
    meta_ := { e.meta_ with pinned := p }
    pinTouched := true
    dirty := true
    trace := e.trace ++ [.pin p] }

/-- [SRC FileEntry.cc:270-284] -/
def demoteRun (e : FileEntry) (firstPage lastPage : Nat) : FileEntry :=
  let e := (List.range' firstPage (lastPage + 1 - firstPage)).foldl retractPage e
  { e with meta_ := { e.meta_ with complete := false }, dirty := true }

end FileEntry

/-! ### The sidecar commit -/

/-- What `flushMeta` takes out of the handle under the lock: the metadata by value, the pages
set and cleared since the last store, and whether the pin was touched. -/
structure MetaFlush where
  snapshot : MetaData
  sets : PageBitmap
  clears : PageBitmap
  pinTouched : Bool

namespace MetaFlush

/-- The merge of the handle's own changes into the image on disk. -/
def merge (f : MetaFlush) (disk : MetaData) : MetaData :=
  let n := disk.npages
  let bitmap := disk.bitmap.updateRange n fun i =>
    if f.clears.get i then some false else if f.sets.get i then some true else none
  { disk with
    bitmap := bitmap
    pageCrcs := fun i =>
      if i < n then
        if f.clears.get i then 0
        else if f.sets.get i then f.snapshot.pageCrcs i else disk.pageCrcs i
      else disk.pageCrcs i
    pinned := if f.pinTouched then f.snapshot.pinned else disk.pinned
    complete := decide (n ≠ 0) && decide (bitmap.count = n)
    atime := max disk.atime f.snapshot.atime }

/-- [SRC FileEntry.cc:1114-1142] The image to store and whether it was merged: without a sidecar
of this generation and page size the handle's view is stored whole. -/
def image (f : MetaFlush) (cfg : Config) (key : Bytes) (sidecar : Option MetaData) :
    MetaData × Bool :=
  match MetaFile.load sidecar with
  | some disk =>
      if disk.pageSize = f.snapshot.pageSize ∧
          adoptable disk cfg key f.snapshot.validators = true then
        (f.merge disk, true)
      else (f.snapshot, false)
  | none => (f.snapshot, false)

end MetaFlush

namespace FileEntry

/-- [SRC FileEntry.cc:1079-1094] The snapshot section, past its two early returns. -/
def flushMetaBegin (e : FileEntry) : FileEntry × MetaFlush :=
  ({ e with
      setSince := e.setSince.clearAll
      clearedSince := e.clearedSince.clearAll
      pinTouched := false
      dirty := false },
    { snapshot := e.meta_
      sets := e.setSince
      clears := e.clearedSince
      pinTouched := e.pinTouched })

/-- [SRC FileEntry.cc:1148-1163] A store that failed: the deltas are pending again, except where
a newer opposite transition has happened since. -/
def flushMetaFailed (e : FileEntry) (f : MetaFlush) : FileEntry :=
  let n := e.meta_.npages
  let setSince := e.setSince.updateRange n fun i =>
    if f.sets.get i && !e.clearedSince.get i then some true else none
  let clearedSince := e.clearedSince.updateRange n fun i =>
    if f.clears.get i && !setSince.get i then some true else none
  { e with
    dirty := true
    setSince := setSince
    clearedSince := clearedSince
    pinTouched := e.pinTouched || f.pinTouched }

/-- [SRC FileEntry.cc:1171-1188] Adopt the committed image: every page not touched since the
snapshot takes the state on disk. -/
def flushMetaAdopt (e : FileEntry) (out : MetaData) : FileEntry :=
  let n := e.meta_.npages
  let bitmap := e.meta_.bitmap.updateRange n fun i =>
    if e.setSince.get i || e.clearedSince.get i then none else some (out.bitmap.get i)
  { e with
    meta_ := { e.meta_ with
      bitmap := bitmap
      pageCrcs := fun i =>
        if i < n then
          if e.setSince.get i || e.clearedSince.get i then e.meta_.pageCrcs i
          else if out.bitmap.get i then out.pageCrcs i else 0
        else e.meta_.pageCrcs i
      pinned := if e.pinTouched then e.meta_.pinned else out.pinned
      complete := decide (n ≠ 0) && decide (bitmap.count = n)
      atime := max e.meta_.atime out.atime } }

/-! ### The fill stage -/

/-- Pages wholly inside `[off, stop)`, ascending: the loop from the first page that starts at or
after `off` to the first one that runs past `stop`. -/
def wholePages (m : MetaData) (off stop : Nat) : List Nat :=
  let first := (off + m.pageSize - 1) / m.pageSize
  (List.range' first (m.npages - first)).takeWhile fun i =>
    decide (i * m.pageSize < stop) && decide (i * m.pageSize + m.pageBytes i ≤ stop)

/-- The staged copy of page `i`, cut out of a buffer that starts at `off`. -/
def cutPage (m : MetaData) (off : Nat) (bytes : Bytes) (i : Nat) : BufPage :=
  let data := slice bytes (i * m.pageSize - off) (m.pageBytes i)
  { data := data, crc := crc32c data }

/-- [SRC FileEntry.cc:553-557] -/
def unmarkSpeculative (e : FileEntry) (i : Nat) (p : BufPage) : FileEntry :=
  { e with
    buf := Function.update e.buf i (some { p with spec := false })
    specBytes := e.specBytes - e.meta_.pageBytes i
    bufBytes := e.bufBytes + e.meta_.pageBytes i }

/-- One page of `writePages`: already staged, already present or being written, or new. -/
def stagePage (off : Nat) (bytes : Bytes) (e : FileEntry) (i : Nat) : FileEntry :=
  match e.buf i with
  | some p => if p.spec then e.unmarkSpeculative i p else e
  | none =>
      if e.meta_.bitmap.get i || (e.flushing i).isSome then e
      else
        { e with
          buf := Function.update e.buf i (some (cutPage e.meta_ off bytes i))
          bufBytes := e.bufBytes + e.meta_.pageBytes i }

/-- [SRC FileEntry.cc:497-551] The locked section of `writePages` with a fill buffer. -/
def stagePages (e : FileEntry) (off : Nat) (bytes : Bytes) : FileEntry :=
  (wholePages e.meta_ off (min (off + bytes.length) e.meta_.fileSize)).foldl
    (stagePage off bytes) e

/-- One page of `stageSpeculative`: taken only when it is neither present nor staged. -/
def stageSpecPage (off : Nat) (bytes : Bytes) (e : FileEntry) (i : Nat) : FileEntry :=
  if e.meta_.bitmap.get i || (e.buf i).isSome || (e.flushing i).isSome then e
  else
    { e with
      buf := Function.update e.buf i (some { cutPage e.meta_ off bytes i with spec := true })
      specBytes := e.specBytes + e.meta_.pageBytes i }

/-- [SRC FileEntry.cc:559-590] -/
def stageSpeculative (e : FileEntry) (off : Nat) (bytes : Bytes) : FileEntry :=
  if e.cfg.fillBufferMb ≤ 0 then e
  else
    (wholePages e.meta_ off (min (off + bytes.length) e.meta_.fileSize)).foldl
      (stageSpecPage off bytes) e

/-- Drop page `i` from the stage when it is still marked speculative. -/
def dropSpecPage (e : FileEntry) (i : Nat) : FileEntry :=
  match e.buf i with
  | some p =>
      if p.spec then
        { e with
          buf := Function.update e.buf i none
          specBytes := e.specBytes - e.meta_.pageBytes i }
      else e
  | none => e

/-- [SRC FileEntry.cc:592-628] The pages wholly inside the range, the tail page counting as
whole. -/
def dropSpeculative (e : FileEntry) (off len : Nat) : FileEntry :=
  (wholePages e.meta_ off (min (off + len) e.meta_.fileSize)).foldl dropSpecPage e

/-- A partly used edge page stays, marked as touched. -/
def touchSpecPage (e : FileEntry) (i : Nat) : FileEntry :=
  match e.buf i with
  | some p =>
      if p.spec then { e with buf := Function.update e.buf i (some { p with touched := true }) }
      else e
  | none => e

/-- [SRC FileEntry.cc:644-682] -/
def consumeSpeculative (e : FileEntry) (off len : Nat) : FileEntry :=
  let stop := min (off + len) e.meta_.fileSize
  if len = 0 ∨ stop ≤ off then e
  else
    let whole := wholePages e.meta_ off stop
    let edges := [off / e.meta_.pageSize, (stop - 1) / e.meta_.pageSize].filter (· ∉ whole)
    whole.foldl dropSpecPage (edges.foldl touchSpecPage e)

/-! ### The drain -/

/-- [SRC FileEntry.cc:803-816] Only what the reader demanded is taken; speculative pages stay. -/
def drainSnapshot (e : FileEntry) : FileEntry :=
  { e with
    flushing := fun i => (e.buf i).filter fun p => !p.spec
    buf := fun i => (e.buf i).filter fun p => p.spec
    bufBytes := 0
    flushInProgress := true }

/-- The snapshot being written, in page order. -/
def drainTodo (e : FileEntry) : List (Nat × BufPage) :=
  (List.range e.meta_.npages).filterMap fun i => (e.flushing i).map fun p => (i, p)

/-- 8 MiB: a run stops growing once it is this long. -/
def kMaxRun : Nat := 8 * 1024 * 1024

/-- The next run of a drain: pages that follow one another from `next` on, while the bytes taken so
far stay below the limit.  Gives the run and what is left. -/
def takeRun (m : MetaData) : Nat → Nat → List (Nat × BufPage) →
    List (Nat × BufPage) × List (Nat × BufPage)
  | next, bytes, (i, p) :: rest =>
      if i = next ∧ bytes < kMaxRun then
        let (run, left) := takeRun m (next + 1) (bytes + m.pageBytes i) rest
        ((i, p) :: run, left)
      else ([], (i, p) :: rest)
  | _, _, [] => ([], [])

/-- `publishPage` over a list of written pages. -/
def publishAll (e : FileEntry) (done : List (Nat × UInt32)) : FileEntry :=
  done.foldl (fun e pc => e.publishPage pc.1 pc.2) e

/-- The end of a publication: the entry is dirty, and complete when every page is present. -/
def markPublished (e : FileEntry) : FileEntry :=
  { e with
    dirty := true
    meta_ := { e.meta_ with
      complete := e.meta_.complete || decide (e.meta_.bitmap.count = e.meta_.npages) } }

/-- [SRC FileEntry.cc:872-885] The publish section of a drain: the bits, then the stage freed. -/
def drainPublish (e : FileEntry) (done : List (Nat × UInt32)) : FileEntry :=
  let e := e.publishAll done
  let e := if done.isEmpty then e else e.markPublished
  { e with flushing := fun _ => none, flushInProgress := false }

/-- [SRC FileEntry.cc:765-774] The publish section of an unbuffered write. -/
def directPublish (e : FileEntry) (done : List (Nat × UInt32)) : FileEntry :=
  (e.publishAll done).markPublished

/-! ### Releasing ranges -/

/-- Drop page `i` from the stage, whichever pool its bytes are counted in. -/
def dropStaged (e : FileEntry) (i : Nat) : FileEntry :=
  match e.buf i with
  | some p =>
      if p.spec then
        { e with
          buf := Function.update e.buf i none
          specBytes := e.specBytes - e.meta_.pageBytes i }
      else
        { e with
          buf := Function.update e.buf i none
          bufBytes := e.bufBytes - e.meta_.pageBytes i }
  | none => e

/-- One page of `releaseRanges`: dropped from the stage, retracted when present. -/
def releasePage (e : FileEntry) (i : Nat) : FileEntry :=
  if e.meta_.bitmap.get i then { (e.dropStaged i).retractPage i with dirty := true }
  else e.dropStaged i

/-- The pages fully inside `[off, off + len)`, as first page and end page; none when the range is
empty or runs past the file. -/
def releaseSpan (m : MetaData) (r : Nat × Nat) : Option (Nat × Nat) :=
  let first := (r.1 + m.pageSize - 1) / m.pageSize
  let lastEnd := (r.1 + r.2) / m.pageSize
  if r.2 = 0 ∨ m.fileSize < r.1 + r.2 ∨ lastEnd ≤ first then none else some (first, lastEnd)

/-- One span of the locked section. -/
def releaseOne (e : FileEntry) (span : Nat × Nat) : FileEntry :=
  let e := (List.range' span.1 (span.2 - span.1)).foldl releasePage e
  { e with meta_ := { e.meta_ with complete := false } }

/-- [SRC FileEntry.cc:1222-1263] The locked section of `releaseRanges`: the state after it and the
spans to punch, as page intervals. -/
def releaseSection (e : FileEntry) (ranges : List (Nat × Nat)) :
    FileEntry × List (Nat × Nat) :=
  let spans := ranges.filterMap (releaseSpan e.meta_)
  (spans.foldl releaseOne e, spans)

/-! ### Reading -/

/-- A maximal stretch of resident pages, read with one `pread`, and the CRCs its pages must have. -/
structure ReadRun where
  firstPage : Nat
  lastPage : Nat
  expect : List UInt32

/-- Byte span of pages `[first, last]`. -/
def runBytes (m : MetaData) (first last : Nat) : Nat :=
  last * m.pageSize + m.pageBytes last - first * m.pageSize

/-- [SRC IOBackend.h:46] -/
def kMaxCoalescedRead : Nat := 1024 * 1024

/-- The staged copy of a page, wherever it is staged. -/
def staged (e : FileEntry) (i : Nat) : Option BufPage := (e.buf i).or (e.flushing i)

/-- State of the planning loop: the handle, the caller's buffer and the runs found so far, the
newest first. -/
structure ReadPlan where
  e : FileEntry
  out : Bytes
  runs : List ReadRun

/-- Add resident page `i` to the newest run when it follows it and the run stays within the
coalescing limit, else start a run. -/
def addToRuns (m : MetaData) (i : Nat) (crc : UInt32) : List ReadRun → List ReadRun
  | r :: rest =>
      if r.lastPage + 1 = i ∧ runBytes m r.firstPage i ≤ kMaxCoalescedRead then
        { r with lastPage := i, expect := r.expect ++ [crc] } :: rest
      else { firstPage := i, lastPage := i, expect := [crc] } :: r :: rest
  | [] => [{ firstPage := i, lastPage := i, expect := [crc] }]

/-- One page of the planning loop; `none` when the page is absent. -/
def planPage (off len : Nat) (account : Bool) (st : ReadPlan) (i : Nat) : Option ReadPlan :=
  let m := st.e.meta_
  let pStart := i * m.pageSize
  let cStart := max off pStart
  let cEnd := min (off + len) (pStart + m.pageBytes i)
  match st.e.staged i with
  | some p =>
      -- A reader confirms a prediction; the cache reading its own stage does not.
      let e := if p.spec && account then st.e.unmarkSpeculative i p else st.e
      some { st with
        e := e
        out := patch st.out (cStart - off) (slice p.data (cStart - pStart) (cEnd - cStart)) }
  | none =>
      if m.bitmap.get i then
        some { st with runs := addToRuns m i (m.pageCrcs i) st.runs }
      else none

/-- The planning loop; `false` when it met an absent page.  What it did before that stays done. -/
def planPages (off len : Nat) (account : Bool) : ReadPlan → List Nat → ReadPlan × Bool
  | st, [] => (st, true)
  | st, i :: rest =>
      match planPage off len account st i with
      | some st' => planPages off len account st' rest
      | none => (st, false)

/-- [SRC FileEntry.cc:326-437] The planning section of `readCached`: staged pages are copied out,
resident ones collected into runs. -/
def readPlan (e : FileEntry) (off : Nat) (buf : Bytes) (account : Bool) : ReadPlan × Bool :=
  let first := off / e.meta_.pageSize
  let last := (off + buf.length - 1) / e.meta_.pageSize
  planPages off buf.length account { e := e, out := buf, runs := [] }
    (List.range' first (last + 1 - first))

/-- What the check of one run's bytes finds. -/
inductive RunCheck where
  | ok
  | short (page : Nat)
  | mismatch (page : Nat)
deriving DecidableEq

/-- [SRC FileEntry.cc:306-324] Check the pages of a run, in order, out of the bytes read. -/
def verifyRun (m : MetaData) : Nat → List UInt32 → Bytes → RunCheck
  | _, [], _ => .ok
  | i, crc :: rest, got =>
      if got.length < m.pageBytes i then .short i
      else if crc32c (got.take (m.pageBytes i)) ≠ crc then .mismatch i
      else verifyRun m (i + 1) rest (got.drop (m.pageBytes i))

/-- Copy the requested part of a verified run into the caller's buffer.  A run inside the request
is read straight into place, which leaves the same bytes there. -/
def copyRun (m : MetaData) (off len : Nat) (out : Bytes) (r : ReadRun) (got : Bytes) : Bytes :=
  let rStart := r.firstPage * m.pageSize
  let rBytes := runBytes m r.firstPage r.lastPage
  let cStart := max off rStart
  let cEnd := min (off + len) (rStart + rBytes)
  patch out (cStart - off) (slice got (cStart - rStart) (cEnd - cStart))

end FileEntry

end UCache
