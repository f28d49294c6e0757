/-
Module: UCache.Plugin.SingleReads
Purpose: Single reads of a file that is shown as it is: hits served by the executor, misses fetched
  in whole pages behind the fetch gate, readers parked there and sent on, fetches that fail and are
  asked for again as they were, and the pages kept afterwards.
Trusted boundary: none
Main exports: SingleSetup, SingleAsk, SingleAnswer
-/
import UCache.Lib.Run
import UCache.Plugin.MissedChunks

namespace UCache

open Lib

/-! ### Reads -/

/-- The entry and the file behind it. -/
structure SingleSetup where
  pageSize : Nat
  fileSize : Nat
  origin : Nat → UInt8

/-- The origin's bytes from `off` on. -/
def SingleSetup.bytes (S : SingleSetup) (off n : Nat) : List UInt8 :=
  (List.range' off n).map S.origin

/-- A call of `Read` on one of the file's handles. -/
structure SingleAsk where
  handle : Nat
  off : Nat
  size : Nat
deriving DecidableEq, Repr

/-- [SRC UCacheFile.cc:1970-1971] Cut at the end of the file. -/
def SingleAsk.served (S : SingleSetup) (a : SingleAsk) : Nat :=
  if S.fileSize < a.off + a.size then S.fileSize - a.off else a.size

/-- [SRC UCacheFile.cc:1098-1102] Where the fetch for a read begins, and how long it is. -/
def SingleAsk.span (S : SingleSetup) (a : SingleAsk) : ByteRange :=
  let r := roundSpan64 S.pageSize S.fileSize a.off (a.served S)
  (r.1, sub64 r.2 r.1)

/-- What the client is told of a single read. -/
inductive SingleAnswer where
  | data (bytes : List UInt8)
  | error
deriving DecidableEq, Repr

/-- Where a read stands.  `gated` says that the fetch owns the gate of its range. -/
inductive SinglePc where
  | idle
  /-- In `Read`, before `hasRange`. -/
  | asked
  /-- Posted to be served from the cache. -/
  | hit
  /-- In `Read`, before the file's rule is asked. -/
  | missing
  /-- Before `beginFetch`. -/
  | toFetch
  | parked (k : Nat)
  /-- `redispatchRead` is posted. -/
  | again
  /-- Before `acquireInner` for the fetch. -/
  | owner (gated : Bool)
  /-- `MissReadHandler` waits for the origin. -/
  | wire (gated : Bool)
  /-- The fetch could not be issued. -/
  | failed (gated : Bool)
  /-- The fetch came back and covers the request. -/
  | landed (gated : Bool) (bytes : List UInt8)
  | reserved (gated : Bool) (bytes : List UInt8)
  /-- The fetch came back and does not cover the request. -/
  | uncovered (gated : Bool)
  /-- Before `acquireInner` for a relay. -/
  | toRelay
  /-- `RelayHandler` waits for the origin. -/
  | relay
  | done
deriving DecidableEq, Repr

inductive KeepStage where
  | handed
  | queued
  | written
  | ended
deriving DecidableEq, Repr

/-- [SRC UCacheFile.cc:737-748] A task that keeps what a fetch brought: with the gate it is to end,
if any. -/
structure KeepTask where
  handle : Nat
  off : Nat
  bytes : List UInt8
  gate : Option ByteRange
  stage : KeepStage
deriving DecidableEq, Repr

/-- The reads of an entry over any number of handles.  `gate` is `inflight_` with the callbacks
parked behind each fetch, by number; `ticket` is the read that a callback is for and `fired` its
flag; `arming` are callbacks whose timer is to be set, `timers` those whose timer is, and `calls`
those that a thread has taken out and will call.  `stored`, `relayed` and `answers` are what
happened. -/
structure SingleWorld where
  asks : Nat → Option SingleAsk := fun _ => none
  pc : Nat → SinglePc := fun _ => .idle
  gate : ByteRange → Option (List Nat) := fun _ => none
  made : Nat := 0
  ticket : Nat → Nat := fun _ => 0
  fired : Nat → Bool := fun _ => false
  arming : List Nat := []
  timers : List Nat := []
  calls : List Nat := []
  keeps : List KeepTask := []
  innerOps : Nat → Nat := fun _ => 0
  pendingPersists : Nat → Nat := fun _ => 0
  stored : List (Nat × List UInt8) := []
  relayed : List Nat := []
  answers : List (Nat × SingleAnswer) := []

/-- What the application, the executor's threads, the timer and the origin do.  The arguments beside
the read's number are what the code it calls returns: the entry's presence and bytes, the file's
rule, whether the inner file can be had and takes the request, and what the origin sends. -/
inductive SingleAct where
  | ask (r : Nat) (a : SingleAsk)
  | lookup (r : Nat) (present : Bool)
  | ruled (r : Nat) (data : Bool)
  | serve (r : Nat) (bytes : Option (List UInt8))
  | begin (r : Nat)
  | arm (k : Nat)
  | acquire (r : Nat) (inner issued : Bool)
  | fail (r : Nat)
  | reply (r : Nat) (bytes : Option (List UInt8))
  | reserve (r : Nat)
  | complete (r : Nat)
  | failOpen (r : Nat)
  | relayReply (r : Nat) (answer : SingleAnswer)
  | call (k : Nat)
  | fire (k : Nat)
  | keep (i : Nat)
deriving DecidableEq, Repr

namespace SingleWorld

variable (S : SingleSetup)

def setPc (w : SingleWorld) (r : Nat) (pc : SinglePc) : SingleWorld :=
  { w with pc := Function.update w.pc r pc }

def answer (w : SingleWorld) (r : Nat) (x : SingleAnswer) : SingleWorld :=
  { w.setPc r .done with answers := w.answers ++ [(r, x)] }

def acquireInner (w : SingleWorld) (h : Nat) : SingleWorld :=
  { w with innerOps := Function.update w.innerOps h (w.innerOps h + 1) }

def releaseInner (w : SingleWorld) (h : Nat) : SingleWorld :=
  { w with innerOps := Function.update w.innerOps h (w.innerOps h - 1) }

/-- [SRC FileEntry.cc:1033-1045] -/
def endFetch (w : SingleWorld) (g : ByteRange) : SingleWorld :=
  match w.gate g with
  | none => w
  | some waiters =>
      { w with
        gate := Function.update w.gate g none
        calls := w.calls ++ waiters }

/-- The gate is ended by whoever owns it. -/
def endGate (w : SingleWorld) (g : Option ByteRange) : SingleWorld :=
  match g with
  | none => w
  | some g => w.endFetch g

/-- [SRC UCacheFile.cc:1951-1971] A request that wraps is relayed, one past the end is answered with
no bytes. -/
def ask (w : SingleWorld) (r : Nat) (a : SingleAsk) : Option SingleWorld :=
  if w.pc r ≠ .idle then none
  else
    let w := { w with asks := Function.update w.asks r (some a) }
    if 2 ^ 64 ≤ a.off + a.size then some (w.setPc r .toRelay)
    else if S.fileSize ≤ a.off ∨ a.size = 0 then some (w.answer r (.data []))
    else some (w.setPc r .asked)

/-- [SRC UCacheFile.cc:1973-1976] -/
def lookup (w : SingleWorld) (r : Nat) (present : Bool) : Option SingleWorld :=
  if w.pc r = .asked then some (w.setPc r (if present then .hit else .missing)) else none

/-- [SRC UCacheFile.cc:2009-2020] -/
def ruled (w : SingleWorld) (r : Nat) (data : Bool) : Option SingleWorld :=
  if w.pc r = .missing then some (w.setPc r (if data then .toRelay else .toFetch)) else none

/-- [SRC UCacheFile.cc:1976-1993, 875-888] `readCached`, for a hit or for a reader sent on; where it
fails, the one fetches without the gate, the other goes to the gate. -/
def serve (w : SingleWorld) (r : Nat) (bytes : Option (List UInt8)) : Option SingleWorld :=
  match w.pc r, bytes with
  | .hit, some b => some (w.answer r (.data b))
  | .hit, none => some (w.setPc r (.owner false))
  | .again, some b => some (w.answer r (.data b))
  | .again, none => some (w.setPc r .toFetch)
  | _, _ => none

/-- [SRC FileEntry.cc:901-912] [SRC UCacheFile.cc:2026-2041, 888-900] The first owns the fetch, the
others park, each with a callback of its own. -/
def begin (w : SingleWorld) (r : Nat) : Option SingleWorld :=
  match w.pc r, w.asks r with
  | .toFetch, some a =>
      match w.gate (a.span S) with
      | none =>
          some { w.setPc r (.owner true) with
            gate := Function.update w.gate (a.span S) (some []) }
      | some waiters =>
          some { w.setPc r (.parked w.made) with
            gate := Function.update w.gate (a.span S) (some (waiters ++ [w.made]))
            made := w.made + 1
            ticket := Function.update w.ticket w.made r
            fired := Function.update w.fired w.made false
            arming := w.arming ++ [w.made] }
  | _, _ => none

/-- [SRC UCacheFile.cc:2038, 898] -/
def arm (w : SingleWorld) (k : Nat) : Option SingleWorld :=
  if k ∈ w.arming then
    some { w with
      arming := w.arming.erase k
      timers := w.timers ++ [k] }
  else none

/-- [SRC UCacheFile.cc:2042-2059, 901-915, 1992-2004, 642-656, 792-807] The inner file is acquired
and the request issued; without it, or where it is not taken, the read fails. -/
def acquire (w : SingleWorld) (r : Nat) (inner issued : Bool) : Option SingleWorld :=
  match w.pc r, w.asks r with
  | .owner gated, some a =>
      if inner ∧ issued then some ((w.acquireInner a.handle).setPc r (.wire gated))
      else some (w.setPc r (.failed gated))
  | .toRelay, some a =>
      if inner ∧ issued then some ((w.acquireInner a.handle).setPc r .relay)
      else some (w.answer r .error)
  | _, _ => none

def gateOf (a : SingleAsk) (gated : Bool) : Option ByteRange :=
  if gated then some (a.span S) else none

/-- [SRC UCacheFile.cc:2047-2059, 906-915] The gate is ended, then the error given. -/
def fail (w : SingleWorld) (r : Nat) : Option SingleWorld :=
  match w.pc r, w.asks r with
  | .failed gated, some a => some ((w.endGate (gateOf S a gated)).answer r .error)
  | _, _ => none

/-- [SRC UCacheFile.cc:779-783] What comes back covers the request. -/
def covers (a : SingleAsk) (got : Nat) : Bool :=
  decide ((a.span S).1 ≤ a.off) && decide (a.off + a.served S ≤ (a.span S).1 + got)

/-- [SRC UCacheFile.cc:766-785] -/
def reply (w : SingleWorld) (r : Nat) (bytes : Option (List UInt8)) : Option SingleWorld :=
  match w.pc r, w.asks r with
  | .wire gated, some a =>
      let w := w.releaseInner a.handle
      match bytes with
      | none => some (w.setPc r (.uncovered gated))
      | some b =>
          some (w.setPc r (if covers S a b.length then .landed gated b else .uncovered gated))
  | _, _ => none

/-- [SRC UCacheFile.cc:825-827, 712-715] -/
def reserve (w : SingleWorld) (r : Nat) : Option SingleWorld :=
  match w.pc r, w.asks r with
  | .landed gated b, some a =>
      some { w.setPc r (.reserved gated b) with
        pendingPersists :=
          Function.update w.pendingPersists a.handle (w.pendingPersists a.handle + 1) }
  | _, _ => none

/-- [SRC UCacheFile.cc:812-813, 828-832] The user's bytes are cut out of what came back, the user is
answered, and the task is handed over. -/
def complete (w : SingleWorld) (r : Nat) : Option SingleWorld :=
  match w.pc r, w.asks r with
  | .reserved gated b, some a =>
      some { w.answer r (.data ((b.drop (a.off - (a.span S).1)).take (a.served S))) with
        keeps := w.keeps ++ [⟨a.handle, (a.span S).1, b, gateOf S a gated, .handed⟩] }
  | _, _ => none

/-- [SRC UCacheFile.cc:785-792] -/
def failOpen (w : SingleWorld) (r : Nat) : Option SingleWorld :=
  match w.pc r, w.asks r with
  | .uncovered gated, some a => some ((w.endGate (gateOf S a gated)).setPc r .toRelay)
  | _, _ => none

/-- [SRC UCacheFile.cc:612-629] -/
def relayReply (w : SingleWorld) (r : Nat) (x : SingleAnswer) : Option SingleWorld :=
  match w.pc r, w.asks r with
  | .relay, some a =>
      some { (w.releaseInner a.handle).answer r x with relayed := w.relayed ++ [r] }
  | _, _ => none

/-- [SRC UCacheFile.cc:889-896, 2029-2036] The first call of a callback posts the read again. -/
def redispatch (w : SingleWorld) (k : Nat) : SingleWorld :=
  if w.fired k then w
  else { w.setPc (w.ticket k) .again with fired := Function.update w.fired k true }

/-- A callback taken out by `endFetch` is called. -/
def call (w : SingleWorld) (k : Nat) : Option SingleWorld :=
  if k ∈ w.calls then some { w.redispatch k with calls := w.calls.erase k } else none

/-- Its timer fires. -/
def fire (w : SingleWorld) (k : Nat) : Option SingleWorld :=
  if k ∈ w.timers then some { w.redispatch k with timers := w.timers.erase k } else none

/-- [SRC UCacheFile.cc:741-746, 717-721] The next step of a task: posted, pages written, gate ended,
persist counted off. -/
def keep (w : SingleWorld) (i : Nat) : Option SingleWorld :=
  match w.keeps[i]? with
  | none => none
  | some x =>
      match x.stage with
      | .handed => some { w with keeps := w.keeps.set i { x with stage := .queued } }
      | .queued =>
          some { w with
            keeps := w.keeps.set i { x with stage := .written }
            stored := w.stored ++ [(x.off, x.bytes)] }
      | .written =>
          some { w.endGate x.gate with keeps := w.keeps.set i { x with stage := .ended } }
      | .ended =>
          some { w with
            keeps := w.keeps.eraseIdx i
            pendingPersists :=
              Function.update w.pendingPersists x.handle (w.pendingPersists x.handle - 1) }

def step (w : SingleWorld) : SingleAct → Option SingleWorld
  | .ask r a => w.ask S r a
  | .lookup r present => w.lookup r present
  | .ruled r data => w.ruled r data
  | .serve r bytes => w.serve r bytes
  | .begin r => w.begin S r
  | .arm k => w.arm k
  | .acquire r inner issued => w.acquire r inner issued
  | .fail r => w.fail S r
  | .reply r bytes => w.reply S r bytes
  | .reserve r => w.reserve r
  | .complete r => w.complete S r
  | .failOpen r => w.failOpen S r
  | .relayReply r x => w.relayReply r x
  | .call k => w.call k
  | .fire k => w.fire k
  | .keep i => w.keep i

end SingleWorld

end UCache
