/-
Module: UCache.Core.ReplicaStore
Purpose: Publishing a replica and opening it: two files that are replaced one after the other, and
  an opening that reads them in separate steps and drops by path what it finds bad.
Trusted boundary: none
Main exports: OriginData, Publication, ReplicaPath
-/
import UCache.Core.ReplicaView
import UCache.Lib.Run

namespace UCache

open Lib

/-! ### What is published -/

/-- [SRC ReplicaStore.h:117-119] The key, and what is known of the origin's file. -/
structure OriginData where
  key : Bytes
  originSize : Nat
  originMtime : Nat := 0
  cksumKind : UInt8 := 0
  originCksum : Nat := 0
deriving DecidableEq, Repr

/-- [SRC ReplicaStore.cc:222-229] The integrity data is computed from the payload. -/
def withIntegrity (key : Bytes) (m : ReplicaMeta) (tdata : Bytes) : ReplicaMeta :=
  let m := { m with
    key := key
    tdataBytes := tdata.length }
  { m with
    pageCrcs := (List.range m.npages).map fun i =>
      crc32c (slice tdata (i * kOverlayPageSize) (m.pageBytes i)) }

/-- What `publish` is called with, past its check of the sidecar.  The sizes are those an object in
memory and a sidecar that `load` reads can have. -/
structure Publication (o : OriginData) where
  given : ReplicaMeta
  payload : Bytes
  fits : (withIntegrity o.key given payload).Fits
  accepted :
    (ReplicaFile.deserialize (ReplicaFile.serialize (withIntegrity o.key given payload))).isSome
  origin : given.originSize = o.originSize ∧ given.originMtime = o.originMtime ∧
    given.cksumKind = o.cksumKind ∧ given.originCksum = o.originCksum
  encoding : 1 ≤ given.encoding ∧ given.encoding ≤ 3
  payloadSize : payload.length < 2 ^ 63
  imageSize : (ReplicaFile.serialize (withIntegrity o.key given payload)).length ≤ 2 ^ 31
deriving DecidableEq

/-- The two files of a replica. -/
inductive ReplicaHalf where
  | overlay | sidecar
deriving DecidableEq, Repr

namespace Publication

variable {o : OriginData}

/-- The sidecar that is written. -/
def stored (p : Publication o) : ReplicaMeta := withIntegrity o.key p.given p.payload

def content (p : Publication o) : ReplicaHalf → Bytes
  | .overlay => p.payload
  | .sidecar => ReplicaFile.serialize p.stored

end Publication

/-! ### The files of a key -/

/-- [SRC ReplicaStore.cc:166-171, 246, ReplicaFile.cc:208] -/
inductive ReplicaPath where
  | tdata | tdataTmp | tmeta | tmetaTmp
deriving DecidableEq, Repr

def ReplicaHalf.path : ReplicaHalf → ReplicaPath
  | .overlay => .tdata
  | .sidecar => .tmeta

def ReplicaHalf.tmp : ReplicaHalf → ReplicaPath
  | .overlay => .tdataTmp
  | .sidecar => .tmetaTmp

/-- The names of a key's files and what the files hold; a file that has lost its name keeps its
bytes for whoever has it open. -/
structure ReplicaFiles where
  inode : ReplicaPath → Option Nat
  bytes : Nat → Bytes
  next : Nat

namespace ReplicaFiles

def unlink (fs : ReplicaFiles) (p : ReplicaPath) : ReplicaFiles :=
  { fs with inode := Function.update fs.inode p none }

/-- Rename over whatever has the new name; nothing when there is no such file. -/
def rename (fs : ReplicaFiles) (src dst : ReplicaPath) : Option ReplicaFiles :=
  (fs.inode src).map fun i =>
    { fs with inode := Function.update (Function.update fs.inode dst (some i)) src none }

/-- Open for writing, with `O_CREAT | O_TRUNC`: the file that has the name is emptied. -/
def create (fs : ReplicaFiles) (p : ReplicaPath) : ReplicaFiles × Nat :=
  match fs.inode p with
  | some i => ({ fs with bytes := Function.update fs.bytes i [] }, i)
  | none =>
      ({ inode := Function.update fs.inode p (some fs.next)
         bytes := Function.update fs.bytes fs.next []
         next := fs.next + 1 }, fs.next)

/-- Write at `off`; a gap before it reads as zeros. -/
def pwrite (fs : ReplicaFiles) (i off : Nat) (data : Bytes) : ReplicaFiles :=
  let old := fs.bytes i
  let room := old ++ List.replicate (off + data.length - old.length) 0
  { fs with bytes := Function.update fs.bytes i (patch room off data) }

end ReplicaFiles

/-! ### Publishing -/

/-- The next file-system step of a publication.  The overlay and then the sidecar go through the
same four steps: a new file, its bytes, the rename, and on a failure the removal of the new file. -/
inductive PublishPc where
  | checkStore
  | openTmp (h : ReplicaHalf)
  | write (h : ReplicaHalf) (ino done : Nat)
  | rename (h : ReplicaHalf)
  | unlinkTmp (h : ReplicaHalf)
  | unlinkData
  | recheck
  | withdrawMeta
  | withdrawData
  | mark
deriving DecidableEq, Repr

/-- How a step of a publication goes: through, with part of a write, or not at all. -/
inductive StepChoice where
  | go
  | piece (n : Nat)
  | fail
deriving DecidableEq, Repr

inductive PublishNext where
  | goes (pc : PublishPc)
  | returns (ok : Bool)
deriving DecidableEq, Repr

/-- [SRC ReplicaStore.cc:249-251, 266-269, ReplicaFile.cc:209-211] A file that could not be made: the
sidecar's leaves the overlay to be removed. -/
def PublishNext.noFile : ReplicaHalf → PublishNext
  | .overlay => .returns false
  | .sidecar => .goes .unlinkData

/-- [SRC ReplicaStore.cc:243-295, ReplicaFile.cc:205-229] One step of `publish`; `serving` is whether
the key has a slot store.  `fdatasync` and `close` fail as the write does, and an `unlink` that fails
is not noticed. -/
def publishStep {o : OriginData} (serving : Bool) (p : Publication o) (fs : ReplicaFiles) :
    PublishPc → StepChoice → Option (ReplicaFiles × PublishNext)
  | .checkStore, .go => some (fs, if serving then .returns false else .goes (.openTmp .overlay))
  | .checkStore, .fail => some (fs, .returns false)
  | .openTmp h, .go => some ((fs.create h.tmp).1, .goes (.write h (fs.create h.tmp).2 0))
  | .openTmp h, .fail => some (fs, .noFile h)
  | .write h ino done, .piece n =>
      if 0 < n ∧ done + n ≤ (p.content h).length then
        some (fs.pwrite ino done (slice (p.content h) done n), .goes (.write h ino (done + n)))
      else none
  | .write h _ done, .go =>
      if done = (p.content h).length then some (fs, .goes (.rename h)) else none
  | .write h _ _, .fail => some (fs, .goes (.unlinkTmp h))
  | .rename h, .go =>
      match fs.rename h.tmp h.path with
      | some fs' =>
          some (fs', match h with
            | .overlay => .goes (.openTmp .sidecar)
            | .sidecar => .goes .recheck)
      | none => some (fs, .goes (.unlinkTmp h))
  | .rename h, .fail => some (fs, .goes (.unlinkTmp h))
  | .unlinkTmp h, .go => some (fs.unlink h.tmp, .noFile h)
  | .unlinkTmp h, .fail => some (fs, .noFile h)
  | .unlinkData, .go => some (fs.unlink .tdata, .returns false)
  | .unlinkData, .fail => some (fs, .returns false)
  | .recheck, .go => some (fs, if serving then .goes .withdrawMeta else .goes .mark)
  | .withdrawMeta, .go => some (fs.unlink .tmeta, .goes .withdrawData)
  | .withdrawMeta, .fail => some (fs, .goes .withdrawData)
  | .withdrawData, .go => some (fs.unlink .tdata, .returns false)
  | .withdrawData, .fail => some (fs, .returns false)
  | .mark, .go => some (fs, .returns true)
  | .mark, .fail => some (fs, .returns true)
  | _, _ => none

/-! ### Opening -/

/-- [SRC ReplicaStore.cc:372-378] What `drop` unlinks, in its order.  The marker is left out: what it
says is the environment's to choose. -/
def dropPaths : List ReplicaPath := [.tmeta, .tdata, .tmetaTmp, .tdataTmp]

/-- The next file-system step of `openView`. -/
inductive OpenPc where
  | stat
  | loadStat
  | loadOpen (size : Nat)
  | loadRead (size ino : Nat)
  | openData (m : ReplicaMeta)
  | fstat (m : ReplicaMeta) (ino : Nat)
  | tok (m : ReplicaMeta) (ino : Nat)
  | scan (m : ReplicaMeta) (ino rf : Nat)
  | drop (rest : List ReplicaPath)
deriving DecidableEq, Repr

/-- An open view: the sidecar it was opened with and the file behind its descriptor. -/
structure OpenedView where
  view : ReplicaMeta
  ino : Nat
deriving DecidableEq, Repr

inductive OpenNext where
  | goes (pc : OpenPc)
  | returns (v : Option OpenedView)
deriving DecidableEq, Repr

def OpenNext.quarantine : OpenNext := .goes (.drop dropPaths)

/-- [SRC ReplicaStore.cc:315-320] The sidecar is of this key, of this origin and of a known
encoding. -/
def validates (mode : ValidateMode) (o : OriginData) (m : ReplicaMeta) : Bool :=
  decide (m.key = o.key) && decide (m.originSize = o.originSize) &&
    (decide (1 ≤ m.encoding) && decide (m.encoding ≤ 3)) &&
      (mode != .sizeMtime || decide (m.originMtime = o.originMtime)) &&
        (mode != .cksum || decide (o.cksumKind = 0) ||
          decide (m.cksumKind = o.cksumKind) && decide (m.originCksum = o.originCksum))

/-- [SRC ReplicaStore.cc:345-364] The scan's next run of pages. -/
def scanStep (m : ReplicaMeta) (tdata : Bytes) (ino rf : Nat) : OpenNext :=
  if rf < m.npages then
    let rl := ReplicaView.runEnd m rf (m.npages - 1) (m.npages - 1 - rf) rf
    if ReplicaView.verifyRun m (ReplicaView.runData m (slice tdata) rf rl) rf rl then
      .goes (.scan m ino (rl + 1))
    else .quarantine
  else .returns (some { view := m, ino := ino })

/-- [SRC ReplicaStore.cc:297-370, ReplicaFile.cc:188-203] One step of `openView`.  `hit` is whether
the advisory marker matches: whatever is in that file, the code goes on in one of the two ways. -/
def openStep (mode : ValidateMode) (o : OriginData) (hit : Bool) (fs : ReplicaFiles) :
    OpenPc → ReplicaFiles × OpenNext
  | .stat => (fs, if (fs.inode .tmeta).isSome then .goes .loadStat else .returns none)
  | .loadStat =>
      match fs.inode .tmeta with
      | some i =>
          if (fs.bytes i).length = 0 ∨ 2 ^ 31 < (fs.bytes i).length then (fs, .quarantine)
          else (fs, .goes (.loadOpen (fs.bytes i).length))
      | none => (fs, .quarantine)
  | .loadOpen size =>
      match fs.inode .tmeta with
      | some i => (fs, .goes (.loadRead size i))
      | none => (fs, .quarantine)
  | .loadRead size ino =>
      let buf := (fs.bytes ino).take size
      if buf.length ≠ size then (fs, .quarantine)
      else
        match ReplicaFile.deserialize buf with
        | some m => (fs, if validates mode o m then .goes (.openData m) else .quarantine)
        | none => (fs, .quarantine)
  | .openData m =>
      match fs.inode .tdata with
      | some j => (fs, .goes (.fstat m j))
      | none => (fs, .quarantine)
  | .fstat m ino =>
      (fs, if (fs.bytes ino).length = m.tdataBytes then .goes (.tok m ino) else .quarantine)
  | .tok m ino =>
      (fs, if hit then .returns (some { view := m, ino := ino }) else .goes (.scan m ino 0))
  | .scan m ino rf => (fs, scanStep m (fs.bytes ino) ino rf)
  | .drop [] => (fs, .returns none)
  | .drop (p :: rest) => (fs.unlink p, .goes (.drop rest))

/-- `openView` run alone. -/
def openRun (mode : ValidateMode) (o : OriginData) (hit : Bool) :
    Nat → ReplicaFiles → OpenPc → Option (ReplicaFiles × Option OpenedView)
  | 0, _, _ => none
  | fuel + 1, fs, pc =>
      match openStep mode o hit fs pc with
      | (fs', .goes pc') => openRun mode o hit fuel fs' pc'
      | (fs', .returns v) => some (fs', v)

/-! ### Any processes, in any order -/

/-- A call under way.  An opening keeps, from its `stat` on, which rename was the last one then;
nothing when a publication was between its two. -/
inductive ReplicaCall (o : OriginData) where
  | publish (p : Publication o) (pc : PublishPc)
  | openView (pc : OpenPc) (since : Option Nat)

/-- The files and the calls of one key.  `epoch`, `between`, `begun` and `standing` are not the
program's: they keep the number of renames to `.tdata` and `.tmeta`, whether a publication is
between its two renames, what was published so far, and the publication that returned last and has
not been replaced since. -/
structure ReplicaWorld (o : OriginData) where
  files : ReplicaFiles
  serving : Bool := false
  calls : Nat → Option (ReplicaCall o) := fun _ => none
  views : List OpenedView := []
  epoch : Nat := 0
  between : Bool := false
  begun : List (Publication o) := []
  standing : Option (Publication o) := none

inductive ReplicaAct (o : OriginData) where
  | publish (c : Nat) (p : Publication o)
  | openView (c : Nat)
  /-- The next step of a publication. -/
  | publishStep (c : Nat) (choice : StepChoice)
  /-- The next step of an opening. -/
  | openStep (c : Nat) (hit : Bool)
  /-- The process of a call ends where it stands. -/
  | crash (c : Nat)
  /-- The key gets or loses its slot store. -/
  | store (serving : Bool)

/-- The overlay is renamed, its sidecar is not yet. -/
def PublishPc.between : PublishPc → Bool
  | .openTmp h | .write h _ _ | .rename h | .unlinkTmp h => h == .sidecar
  | .unlinkData => true
  | _ => false

namespace ReplicaWorld

variable {o : OriginData}

def setCall (s : ReplicaWorld o) (c : Nat) (call : Option (ReplicaCall o)) : ReplicaWorld o :=
  { s with calls := Function.update s.calls c call }

/-- A step of a publication renames a file over its final name. -/
def renames (fs : ReplicaFiles) : PublishPc → StepChoice → Bool
  | .rename h, .go => (fs.inode h.tmp).isSome
  | _, _ => false

/-- What a publication's step does to the world beside the files. -/
def afterPublish (s : ReplicaWorld o) (c : Nat) (p : Publication o) (pc : PublishPc)
    (choice : StepChoice) (fs : ReplicaFiles) (next : PublishNext) : ReplicaWorld o :=
  { s with
    files := fs
    calls := Function.update s.calls c (match next with
      | .goes pc' => some (.publish p pc')
      | .returns _ => none)
    epoch := if renames s.files pc choice then s.epoch + 1 else s.epoch
    between := match next with
      | .goes pc' => if pc.between = pc'.between then s.between else pc'.between
      | .returns _ => if pc.between then false else s.between
    standing := match next with
      | .goes .recheck => none
      | .goes _ => s.standing
      | .returns true => some p
      | .returns false => s.standing }

def afterOpen (s : ReplicaWorld o) (c : Nat) (pc : OpenPc) (since : Option Nat)
    (fs : ReplicaFiles) (next : OpenNext) : ReplicaWorld o :=
  { s with
    files := fs
    calls := Function.update s.calls c (match next with
      | .goes pc' =>
          some (.openView pc' (if pc = .stat then (if s.between then none else some s.epoch)
            else since))
      | .returns _ => none)
    views := match next with
      | .returns (some v) => v :: s.views
      | _ => s.views }

def step (mode : ValidateMode) (s : ReplicaWorld o) : ReplicaAct o → Option (ReplicaWorld o)
  | .publish c p =>
      match s.calls c with
      | none => some { s.setCall c (some (.publish p .checkStore)) with begun := p :: s.begun }
      | some _ => none
  | .openView c =>
      match s.calls c with
      | none => some (s.setCall c (some (.openView .stat none)))
      | some _ => none
  | .publishStep c choice =>
      match s.calls c with
      | some (.publish p pc) =>
          (publishStep s.serving p s.files pc choice).map fun r =>
            s.afterPublish c p pc choice r.1 r.2
      | _ => none
  | .openStep c hit =>
      match s.calls c with
      | some (.openView pc since) =>
          let r := openStep mode o hit s.files pc
          some (s.afterOpen c pc since r.1 r.2)
      | _ => none
  | .crash c =>
      match s.calls c with
      | some (.publish _ pc) =>
          some { s.setCall c none with between := if pc.between then false else s.between }
      | some (.openView _ _) => some (s.setCall c none)
      | none => none
  | .store serving => some { s with serving := serving }

end ReplicaWorld

end UCache
