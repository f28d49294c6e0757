/-
Module: UCache.Plugin.ShownReads
Purpose: The reads of a handle that shows another layout than the origin's, a replica's stitched
  view or a slot layout: until the handle trips, none of them goes to the origin at its own offsets,
  and each gets the virtual file's bytes or fails.
Trusted boundary: none
Main exports: ShownAs, ShownCx, shown_reads_stay
-/
import UCache.Plugin.SlotReadRuns
import UCache.Plugin.Stitched

namespace UCache

open Lib

/-! ### The handle -/

/-- What a handle's setup gave it. -/
inductive ShownAs where
  | view (m : ReplicaMeta)
  | cold (cx : ColdCx)

/-- What does not change while a handle is open: what it shows, the byte cache's geometry, and
`UCACHE_MAX_ERRORS`. -/
structure ShownCx where
  shown : ShownAs
  pageSize : Nat
  fileSize : Nat
  maxErrors : Int := 5

/-- [SRC UCacheFile.cc:1770-1779] -/
def ShownCx.shownSize (hx : ShownCx) : Nat :=
  match hx.shown with
  | .view m => m.virtualSize
  | .cold cx => cx.L.virtualSize

/-- A data request of the user.  A vector read into one buffer is that of its chunks, each given its
place. -/
inductive Ask where
  | read (off size : Nat)
  | pgRead (off size : Nat)
  | vectorRead (chunks : List Chunk)
deriving DecidableEq, Repr

def Ask.chunks : Ask → List Chunk
  | .read off size => [⟨off, size⟩]
  | .pgRead off size => [⟨off, size⟩]
  | .vectorRead chunks => chunks

/-- What of a request the shown file has: a single read that runs past the end is cut short. -/
def ShownCx.inside (hx : ShownCx) : Ask → List Chunk
  | .read off size => [⟨off, min size (hx.shownSize - off)⟩]
  | .pgRead off size => [⟨off, min size (hx.shownSize - off)⟩]
  | .vectorRead chunks => chunks

/-- What the call does on the caller's thread. -/
inductive OnCaller where
  /-- Handed to the origin as it is. -/
  | relay
  /-- `errInvalidArgs`. -/
  | invalid
  /-- Answered with no bytes. -/
  | empty
  /-- Posted to the executor. -/
  | serve (chunks : List Chunk)
deriving DecidableEq, Repr

/-- A single read: what runs past the end is cut off. -/
def onCallerOne (hx : ShownCx) (off size : Nat) : OnCaller :=
  if add64 off size < off then
    match hx.shown with
    | .cold _ => .invalid
    | .view _ => .relay
  else if hx.shownSize ≤ off ∨ size = 0 then .empty
  else .serve [⟨off, min size (hx.shownSize - off)⟩]

/-- [SRC UCacheFile.cc:1899-1952, 2071-2164, 2287-2353] A handle that has tripped has no entry. -/
def onCaller (hx : ShownCx) (tripped : Bool) (ask : Ask) : OnCaller :=
  if tripped then .relay
  else
    match ask with
    | .read off size => onCallerOne hx off size
    | .pgRead off size => onCallerOne hx off size
    | .vectorRead chunks =>
        if chunks = [] then .relay
        else if chunks.any fun c =>
            decide (add64 c.off c.len < c.off) || decide (hx.shownSize < add64 c.off c.len) then
          .invalid
        else .serve chunks

/-- Where a data request stands. -/
inductive CallPhase where
  | posted
  /-- What the view leaves to the origin is on the wire. -/
  | fetching (resid : List Residual)
  /-- The vector read failed, and the pieces go out once more as they are. -/
  | retrying (resid : List Residual)
  /-- A request of the slot run. -/
  | slots
  | atOrigin
  | answered (ok : Bool)

/-- A data request: what was asked, the chunks it is served as, and what their buffers hold. -/
structure ShownCall where
  asked : Ask
  chunks : List Chunk
  bufs : Nat → Bytes
  phase : CallPhase

/-- [SRC UCacheFile.h:82-103] The part of `HandleState` that reads change, with the slot run the
handle is attached to.  `relayed` is a ghost: the chunks sent to the origin at the user's own
offsets. -/
structure ShownHandle where
  errors : Nat := 0
  tripped : Bool := false
  calls : Nat → Option ShownCall := fun _ => none
  run : ColdWorld := {}
  relayed : List Chunk := []

namespace ShownHandle

/-- [SRC UCacheFile.cc:693-705] -/
def noteCacheError (hx : ShownCx) (h : ShownHandle) : ShownHandle :=
  { h with
    errors := h.errors + 1
    tripped := h.tripped || decide (hx.maxErrors ≤ (h.errors + 1 : Nat)) }

/-- [SRC UCacheFile.cc:707-710] -/
def noteCacheOk (h : ShownHandle) : ShownHandle := { h with errors := 0 }

def setCall (h : ShownHandle) (id : Nat) (c : ShownCall) : ShownHandle :=
  { h with calls := Function.update h.calls id (some c) }

end ShownHandle

/-! ### Its steps -/

/-- What the file of the overlay and the byte cache answer while the executor serves a request. -/
def ShownCx.stitchCx (hx : ShownCx) (pread : Nat → Nat → Nat → Nat → Bytes)
    (cached : Nat → Nat → Nat → Option Bytes) : StitchCx where
  pageSize := hx.pageSize
  fileSize := hx.fileSize
  pread := pread
  cached := cached
  wire := fun _ _ => .refused

/-- [SRC UCacheFile.cc:971-1000] The pieces out of the elements of the vector read. -/
def scatterAll (hx : ShownCx) (resid : List Residual) (wbufs : List Bytes) (bufs : Nat → Bytes) :
    Option (Nat → Bytes) :=
  let wire := (missWire hx.pageSize hx.fileSize resid).zip wbufs
  (resid.mapM fun r => scatterFrom (findWire r.off wire) r.off r.len).map fun bytes =>
    (resid.zip bytes).foldl placeResidual bufs

inductive ShownAct where
  /-- A data request, and what the user's buffers hold. -/
  | ask (id : Nat) (a : Ask) (bufs : Nat → Bytes)
  /-- The executor serves a request from the view; `issued` says that the vector read was taken. -/
  | stitch (id : Nat) (pread : Nat → Nat → Nat → Nat → Bytes)
      (cached : Nat → Nat → Nat → Option Bytes) (issued : Bool)
  /-- The vector read ends: an error, or the elements' bytes. -/
  | wire (id : Nat) (data : Option (List Bytes))
  /-- The pieces sent out as they are end. -/
  | retried (id : Nat) (data : Option (List Bytes))
  /-- The executor starts a request of the slot run. -/
  | start (id : Nat)
  /-- A step of the slot run, of this handle or another. -/
  | slotRun (act : ColdAct)
  /-- A request of the slot run has ended. -/
  | finish (id : Nat)

namespace ShownHandle

/-- The call on the caller's thread.  A chunk's buffer is as much of the user's as the chunk is
long. -/
def ask (hx : ShownCx) (h : ShownHandle) (id : Nat) (a : Ask) (bufs : Nat → Bytes) :
    ShownHandle :=
  match onCaller hx h.tripped a with
  | .relay =>
      { h.setCall id ⟨a, a.chunks, bufs, .atOrigin⟩ with relayed := h.relayed ++ a.chunks }
  | .invalid => h.setCall id ⟨a, a.chunks, bufs, .answered false⟩
  | .empty => h.setCall id ⟨a, a.chunks.map fun c => ⟨c.off, 0⟩, fun _ => [], .answered true⟩
  | .serve chunks =>
      h.setCall id ⟨a, chunks, fun i => (bufs i).take (chunks.getD i ⟨0, 0⟩).len, .posted⟩

/-- [SRC UCacheFile.cc:1262-1307, 1142-1169] -/
def stitch (hx : ShownCx) (m : ReplicaMeta) (h : ShownHandle) (id : Nat) (c : ShownCall)
    (pread : Nat → Nat → Nat → Nat → Bytes) (cached : Nat → Nat → Nat → Option Bytes)
    (issued : Bool) : ShownHandle :=
  match stitchChunks (hx.stitchCx pread cached) m 0 c.chunks (c.bufs, []) with
  | none => h.setCall id { c with phase := .answered false }
  | some (bufs, resid) =>
      if resid = [] then
        h.noteCacheOk.setCall id { c with bufs := bufs, phase := .answered true }
      else if issued then h.setCall id { c with bufs := bufs, phase := .fetching resid }
      else h.setCall id { c with bufs := bufs, phase := .answered false }

/-- [SRC UCacheFile.cc:937-1037] A failure counts, and the pieces are sent out as they are. -/
def wire (hx : ShownCx) (h : ShownHandle) (id : Nat) (c : ShownCall) (resid : List Residual)
    (data : Option (List Bytes)) : ShownHandle :=
  match data with
  | none => (h.noteCacheError hx).setCall id { c with phase := .retrying resid }
  | some wbufs =>
      match scatterAll hx resid wbufs c.bufs with
      | none => h.setCall id { c with phase := .answered false }
      | some bufs => h.noteCacheOk.setCall id { c with bufs := bufs, phase := .answered true }

/-- [SRC UCacheFile.cc:953-968, 608-629] -/
def retried (h : ShownHandle) (id : Nat) (c : ShownCall) (resid : List Residual)
    (data : Option (List Bytes)) : ShownHandle :=
  match data with
  | none => h.setCall id { c with phase := .answered false }
  | some bytes =>
      h.setCall id { c with
        bufs := (resid.zip bytes).foldl placeResidual c.bufs
        phase := .answered true }

/-- [SRC ColdRun.cc:1048-1140] Only a success is counted. -/
def finish (h : ShownHandle) (id : Nat) (c : ShownCall) (r : ColdRequest) (ok : Bool) :
    ShownHandle :=
  if ok then
    h.noteCacheOk.setCall id { c with bufs := fun i => r.bufs.getD i [], phase := .answered true }
  else h.setCall id { c with phase := .answered false }

def step (hx : ShownCx) (h : ShownHandle) : ShownAct → Option ShownHandle
  | .ask id a bufs =>
      match h.calls id with
      | some _ => none
      | none => some (h.ask hx id a bufs)
  | .stitch id pread cached issued =>
      match h.calls id, hx.shown with
      | some c, .view m =>
          match c.phase with
          | .posted => some (h.stitch hx m id c pread cached issued)
          | _ => none
      | _, _ => none
  | .wire id data =>
      (h.calls id).bind fun c =>
        match c.phase with
        | .fetching resid => some (h.wire hx id c resid data)
        | _ => none
  | .retried id data =>
      (h.calls id).bind fun c =>
        match c.phase with
        | .retrying resid => some (h.retried id c resid data)
        | _ => none
  | .start id =>
      match h.calls id, hx.shown with
      | some c, .cold cx =>
          match c.phase with
          | .posted =>
              (h.run.step cx (.serve id c.chunks ((List.range c.chunks.length).map c.bufs))).map
                fun w => { h.setCall id { c with phase := .slots } with run := w }
          | _ => none
      | _, _ => none
  | .slotRun act =>
      match hx.shown with
      | .cold cx => (h.run.step cx act).map fun w => { h with run := w }
      | .view _ => none
  | .finish id =>
      match h.calls id, h.run.reqs id with
      | some c, some r =>
          match c.phase, r.phase with
          | .slots, .done ok => some (h.finish id c r ok)
          | _, _ => none
      | _, _ => none

end ShownHandle

/-! ### The chunks of a slot request stay -/

variable {cx : ColdCx} {r : ColdRequest} {id : Nat}

namespace ColdRequest

@[simp] theorem holdReady_chunks (r : ColdRequest) (cf : ColdFill) (i : Nat) :
    (r.holdReady cf i).chunks = r.chunks := by
  unfold holdReady
  split <;> rfl

@[simp] theorem lose_chunks (r : ColdRequest) : r.lose.chunks = r.chunks := by
  unfold lose
  split <;> rfl

@[simp] theorem fetchTurn_chunks (cx : ColdCx) (r : ColdRequest) (i : Nat) (todo : List Nat)
    (items : List PartItem) (a : Answers) : (r.fetchTurn cx i todo items a).chunks = r.chunks := by
  unfold fetchTurn
  simp only
  split <;> rfl

theorem classifyTurn_chunks {cf : ColdFill} {r' : ColdRequest} {c k : Nat} {ch : Chunk}
    {a : Answers} (h : r.classifyTurn cx cf c k ch a = some r') : r'.chunks = r.chunks := by
  unfold classifyTurn at h
  split at h
  · cases h
    rfl
  · split at h <;> cases h
    rfl
  · simp only at h
    split at h <;> cases h <;> rfl

theorem turn_chunks {cf : ColdFill} {a : Answers} {t : Turned} (h : r.turn cx cf id a = some t) :
    t.req.chunks = r.chunks := by
  unfold turn at h
  repeat' split at h
  all_goals first
    | cases h <;> first | rfl | simp
    | obtain ⟨r', hr', rfl⟩ := Option.map_eq_some_iff.1 h
      exact classifyTurn_chunks hr'

theorem deliver_chunks (wire : List (WireElem × Bytes)) (items : List PartItem)
    (r : ColdRequest) : (items.foldl (deliverItem wire) r).chunks = r.chunks := by
  induction items generalizing r with
  | nil => rfl
  | cons it rest ih =>
      rw [List.foldl_cons, ih]
      unfold deliverItem
      repeat' split
      all_goals rfl

theorem reply_chunks {r' : ColdRequest} {j : Nat} {data : Option (List Bytes)}
    (h : r.reply j data = some r') : r'.chunks = r.chunks := by
  unfold reply at h
  split at h
  · cases h
  simp only at h
  split at h
  · cases h
    rfl
  split at h <;> cases h
  exact deliver_chunks _ _ _

end ColdRequest

/-- A step of one request. -/
theorem update_chunks {reqs : Nat → Option ColdRequest} {r' : ColdRequest} (hr : reqs id = some r)
    (hsame : r'.chunks = r.chunks) {id' : Nat} {r₀ : ColdRequest} (hr₀ : reqs id' = some r₀) :
    ∃ r₁, Function.update reqs id (some r') id' = some r₁ ∧ r₁.chunks = r₀.chunks := by
  by_cases hid : id' = id
  · subst hid
    rw [hr] at hr₀
    cases hr₀
    exact ⟨r', Function.update_self _ _ _, hsame⟩
  · exact ⟨r₀, by rw [Function.update_of_ne hid, hr₀], rfl⟩

theorem ColdWorld.step_chunks {w w' : ColdWorld} {act : ColdAct} (h : w.step cx act = some w')
    (hr : w.reqs id = some r) : ∃ r', w'.reqs id = some r' ∧ r'.chunks = r.chunks := by
  cases act with
  | serve id' chunks bufs =>
      simp only [ColdWorld.step] at h
      split at h
      · rename_i hnew
        cases h
        have hne : id ≠ id' := by
          rintro rfl
          rw [hnew.1] at hr
          cases hr
        exact ⟨r, (Function.update_of_ne hne _ _).trans hr, rfl⟩
      · cases h
  | turn id' a =>
      simp only [ColdWorld.step, Option.bind_eq_some_iff, Option.map_eq_some_iff] at h
      obtain ⟨r', hr', t, ht, rfl⟩ := h
      exact update_chunks hr' (ColdRequest.turn_chunks ht) hr
  | park id' =>
      simp only [ColdWorld.step, Option.bind_eq_some_iff] at h
      obtain ⟨r', hr', h⟩ := h
      split at h
      · split at h <;> cases h
        refine update_chunks hr' ?_ hr
        rfl
      · cases h
  | reply id' j data =>
      simp only [ColdWorld.step, Option.bind_eq_some_iff, Option.map_eq_some_iff] at h
      obtain ⟨r', hr', r₁, hr₁, rfl⟩ := h
      exact update_chunks hr' (ColdRequest.reply_chunks hr₁) hr
  | convert id' j E thrown direct has =>
      simp only [ColdWorld.step, Option.bind_eq_some_iff, Option.map_eq_some_iff] at h
      obtain ⟨r', hr', cv, hcv, rfl⟩ := h
      unfold ColdWorld.convertOne
      simp only
      split <;>
      · refine update_chunks hr' ?_ hr
        rfl
  | wake =>
      simp only [ColdWorld.step] at h
      split at h
      · cases h
      rename_i k rest hw
      obtain ⟨r', hr', rfl⟩ := Option.map_eq_some_iff.1 h
      unfold ColdWorld.wakeOne
      simp only
      refine update_chunks hr' ?_ hr
      split
      · rfl
      split <;> rfl
  | apply es =>
      cases h
      exact ⟨r, hr, rfl⟩
  | collect =>
      simp only [ColdWorld.step] at h
      split at h <;> cases h
      exact ⟨r, hr, rfl⟩
  | commitEnd o =>
      simp only [ColdWorld.step] at h
      split at h
      · cases h
      · cases o <;> cases h <;> exact ⟨r, hr, rfl⟩
  | applyForgotten =>
      cases h
      exact ⟨r, hr, rfl⟩
  | others p t n =>
      cases h
      exact ⟨r, hr, rfl⟩

/-! ### What holds between the steps -/

variable {c : ShownCall} {h : ShownHandle}

section

variable (hx : ShownCx) (tdata origin : Bytes) (recs : Nat → Bytes)

/-- Byte `v` of the file that the handle shows. -/
def ShownCx.shownByte (v : Nat) : Option UInt8 :=
  match hx.shown with
  | .view m => stitchedByte m tdata origin v
  | .cold cx => some (imageByte cx origin recs v)

/-- What the setup gave: a sidecar that was accepted, or a layout that is well formed (as every one
that is computed), in 64-bit words. -/
def ShownCx.Valid : Prop :=
  match hx.shown with
  | .view m => ∃ image, ReplicaFile.deserialize image = some m
  | .cold cx => LayoutOk cx.L ∧ cx.L.originSize = origin.length ∧ cx.L.virtualSize < 2 ^ 64

/-- Requests are made of 64-bit offsets and 32-bit lengths, into buffers of these lengths; and the
overlay's file, the byte cache, the wire and the slot run answer with what they hold. -/
def Truthful (h : ShownHandle) : ShownAct → Prop
  | .ask _ a bufs => (∀ ch ∈ a.chunks, ch.off < 2 ^ 64 ∧ ch.len < 2 ^ 32) ∧
      ∀ i ch, a.chunks[i]? = some ch → (bufs i).length = ch.len
  | .stitch _ pread cached _ => (∀ c v off n, pread c v off n <+: slice tdata off n) ∧
      ∀ c off len b, cached c off len = some b → BytesOf origin off len b
  | .wire id data => ∀ c resid wbufs, h.calls id = some c → c.phase = .fetching resid →
      data = some wbufs → ∀ wb ∈ (missWire hx.pageSize hx.fileSize resid).zip wbufs,
        BytesOf origin wb.1.off wb.1.len wb.2
  | .retried id data => ∀ c resid bytes, h.calls id = some c → c.phase = .retrying resid →
      data = some bytes → bytes.length = resid.length ∧
        ∀ rb ∈ resid.zip bytes, BytesOf origin rb.1.off rb.1.len rb.2
  | .slotRun act => ∀ cx, hx.shown = .cold cx → Faithful cx origin recs h.run act
  | _ => True

/-- No single read of a view ends past the last offset there is, and no vector read fails that would
be the one too many. -/
def Spared (h : ShownHandle) : ShownAct → Prop
  | .ask _ a _ => ∀ m, hx.shown = .view m → ∀ ch ∈ a.chunks, ch.off + ch.len < 2 ^ 64
  | .wire _ none => (h.errors + 1 : Nat) < hx.maxErrors
  | _ => True

/-- The buffers of a request hold the shown file's bytes. -/
def Answered (chunks : List Chunk) (bufs : Nat → Bytes) : Prop :=
  ∀ i ch, chunks[i]? = some ch → (bufs i).length = ch.len ∧
    ∀ k < ch.len, (bufs i)[k]? = hx.shownByte tdata origin recs (ch.off + k)

/-- What a request's phase says. -/
def PhaseOk (run : ColdWorld) (id : Nat) (c : ShownCall) : CallPhase → Prop
  | .posted => (∀ ch ∈ c.chunks, ch.off + ch.len ≤ hx.shownSize) ∧
      ∀ i ch, c.chunks[i]? = some ch → (c.bufs i).length = ch.len
  | .fetching resid => ∃ m, hx.shown = .view m ∧
      Stitching m tdata origin c.chunks c.bufs resid c.chunks.length
  | .retrying resid => ∃ m, hx.shown = .view m ∧
      Stitching m tdata origin c.chunks c.bufs resid c.chunks.length
  | .slots => ∃ cx r, hx.shown = .cold cx ∧ run.reqs id = some r ∧ r.chunks = c.chunks
  | .atOrigin => c.chunks = []
  | .answered ok => ok = true → Answered hx tdata origin recs c.chunks c.bufs

/-- A call that was not turned away is served as what the shown file has of it. -/
structure CallOk (run : ColdWorld) (id : Nat) (c : ShownCall) : Prop where
  same : c.phase ≠ .answered false →
    c.chunks = hx.inside c.asked ∧ ∀ ch ∈ c.chunks, ∀ k < ch.len, ch.off + k < hx.shownSize
  phase : PhaseOk hx tdata origin recs run id c c.phase

structure ShownOk (h : ShownHandle) : Prop where
  relayed : h.relayed = []
  tripped : h.tripped = false
  calls : ∀ id c, h.calls id = some c → CallOk hx tdata origin recs h.run id c
  run : ∀ cx, hx.shown = .cold cx → SlotWorldOk cx origin recs h.run

/-- No request went to the origin at the offsets of the shown file, and those that were answered
without error got its bytes. -/
structure ShownOnly (h : ShownHandle) : Prop where
  relayed : h.relayed = []
  answers : ∀ id c, h.calls id = some c → c.phase = .answered true →
    Answered hx tdata origin recs (hx.inside c.asked) c.bufs

end

variable {hx : ShownCx} {tdata origin : Bytes} {recs : Nat → Bytes}

theorem ShownCx.Valid.small (hvalid : hx.Valid origin) : hx.shownSize < 2 ^ 64 := by
  unfold Valid at hvalid
  unfold shownSize
  cases hs : hx.shown with
  | view m =>
      rw [hs] at hvalid
      obtain ⟨image, himage⟩ := hvalid
      exact (ReplicaFile.deserialize_ok himage).sizes.1
  | cold cx =>
      rw [hs] at hvalid
      exact hvalid.2.2

/-- A single read that can be answered is cut to the shown file. -/
theorem onCallerOne_cases {off size : Nat} (hoff : off < 2 ^ 64) (hsize : size < 2 ^ 32)
    (hview : ∀ m, hx.shown = .view m → off + size < 2 ^ 64) (hsmall : hx.shownSize < 2 ^ 64) :
    onCallerOne hx off size = .invalid ∨
      (onCallerOne hx off size = .empty ∧ min size (hx.shownSize - off) = 0) ∨
        (onCallerOne hx off size = .serve [⟨off, min size (hx.shownSize - off)⟩] ∧
          off < hx.shownSize) := by
  unfold onCallerOne
  by_cases hover : off + size < 2 ^ 64
  · have hsum : add64 off size = off + size := Nat.mod_eq_of_lt hover
    rw [hsum, if_neg (by omega)]
    by_cases hempty : hx.shownSize ≤ off ∨ size = 0
    · rw [if_pos hempty]
      exact .inr (.inl ⟨rfl, by omega⟩)
    · rw [if_neg hempty]
      exact .inr (.inr ⟨rfl, by omega⟩)
  · have hwrap : add64 off size < off := by
      unfold add64
      omega
    rw [if_pos hwrap]
    cases hs : hx.shown with
    | view m => exact absurd (hview m hs) hover
    | cold cx => exact .inl rfl

/-- A handle that has not tripped serves what it shows of a request, or turns the request away. -/
theorem onCaller_cases (hsmall : hx.shownSize < 2 ^ 64) {a : Ask}
    (htyped : ∀ ch ∈ a.chunks, ch.off < 2 ^ 64 ∧ ch.len < 2 ^ 32)
    (hview : ∀ m, hx.shown = .view m → ∀ ch ∈ a.chunks, ch.off + ch.len < 2 ^ 64) :
    (onCaller hx false a = .relay ∧ a.chunks = [] ∧ hx.inside a = []) ∨
      onCaller hx false a = .invalid ∨
        (onCaller hx false a = .empty ∧ a.chunks.map (fun c => ⟨c.off, 0⟩) = hx.inside a) ∨
          (onCaller hx false a = .serve (hx.inside a) ∧
            (∀ ch ∈ hx.inside a, ch.off + ch.len ≤ hx.shownSize) ∧
            ∀ (i : Nat) (ch : Chunk), (hx.inside a)[i]? = some ch →
              ∃ asked : Chunk, a.chunks[i]? = some asked ∧ ch.len ≤ asked.len) := by
  have hone : ∀ off size, a.chunks = [⟨off, size⟩] →
      hx.inside a = [⟨off, min size (hx.shownSize - off)⟩] →
      onCaller hx false a = onCallerOne hx off size →
      onCaller hx false a = .invalid ∨
        (onCaller hx false a = .empty ∧ a.chunks.map (fun c => ⟨c.off, 0⟩) = hx.inside a) ∨
          (onCaller hx false a = .serve (hx.inside a) ∧
            (∀ ch ∈ hx.inside a, ch.off + ch.len ≤ hx.shownSize) ∧
            ∀ (i : Nat) (ch : Chunk), (hx.inside a)[i]? = some ch →
              ∃ asked : Chunk, a.chunks[i]? = some asked ∧ ch.len ≤ asked.len) := by
    intro off size hchunks hinside hcaller
    have hmem : (⟨off, size⟩ : Chunk) ∈ a.chunks := by
      rw [hchunks]
      exact List.mem_singleton_self _
    obtain ⟨hoff, hsize⟩ := htyped _ hmem
    rw [hcaller, hchunks, hinside]
    rcases onCallerOne_cases hoff hsize (fun m hm => hview m hm _ hmem) hsmall
      with hinv | ⟨hemp, hzero⟩ | ⟨hserve, hlt⟩
    · exact .inl hinv
    · refine .inr (.inl ⟨hemp, ?_⟩)
      rw [hzero]
      rfl
    · refine .inr (.inr ⟨hserve, ?_, ?_⟩)
      · intro ch hch
        rw [List.mem_singleton] at hch
        subst hch
        have hlt : off < hx.shownSize := hlt
        show off + min size (hx.shownSize - off) ≤ hx.shownSize
        omega
      · intro i ch hi
        cases i with
        | zero =>
            cases hi
            exact ⟨_, rfl, Nat.min_le_left _ _⟩
        | succ i => cases hi
  cases a with
  | read off size => exact .inr (hone off size rfl rfl rfl)
  | pgRead off size => exact .inr (hone off size rfl rfl rfl)
  | vectorRead chunks =>
      by_cases hnil : chunks = []
      · subst hnil
        exact .inl ⟨rfl, rfl, rfl⟩
      right
      by_cases hany : (chunks.any fun c =>
          decide (add64 c.off c.len < c.off) ||
            decide (hx.shownSize < add64 c.off c.len)) = true
      · left
        show (if chunks = [] then OnCaller.relay else if _ then _ else _) = _
        rw [if_neg hnil, if_pos hany]
      · right
        right
        refine ⟨?_, ?_, fun i ch hi => ⟨ch, hi, Nat.le_refl _⟩⟩
        · show (if chunks = [] then OnCaller.relay else if _ then _ else _) = _
          rw [if_neg hnil, if_neg hany]
          rfl
        · intro c hc
          obtain ⟨hoff, hlen⟩ := htyped c hc
          rw [Bool.not_eq_true, List.any_eq_false] at hany
          have hin := hany c hc
          simp only [Bool.or_eq_true, decide_eq_true_eq, not_or] at hin
          unfold add64 at hin
          omega

/-- A call as it was, over a run that kept its request. -/
theorem CallOk.carried {run run' : ColdWorld} (h : CallOk hx tdata origin recs run id c)
    (hkeep : ∀ r, run.reqs id = some r → ∃ r', run'.reqs id = some r' ∧ r'.chunks = r.chunks) :
    CallOk hx tdata origin recs run' id c := by
  refine ⟨h.same, ?_⟩
  have hphase := h.phase
  cases hc : c.phase with
  | slots =>
      rw [hc] at hphase
      obtain ⟨cx, r, hcold, hr, hchunks⟩ := hphase
      obtain ⟨r', hr', hsame⟩ := hkeep r hr
      exact ⟨cx, r', hcold, hr', hsame.trans hchunks⟩
  -- what is known in any other phase has nothing to do with the slot run
  | _ =>
      rw [hc] at hphase
      exact hphase

/-- A step of one call. -/
theorem ShownOk.called {h' : ShownHandle} (hok : ShownOk hx tdata origin recs h)
    (hcalls : h'.calls = Function.update h.calls id (some c)) (hrun : h'.run = h.run)
    (hrelayed : h'.relayed = h.relayed) (htripped : h'.tripped = h.tripped)
    (hc : CallOk hx tdata origin recs h.run id c) : ShownOk hx tdata origin recs h' := by
  refine ⟨hrelayed.trans hok.relayed, htripped.trans hok.tripped, ?_, ?_⟩
  · intro id' c' hc'
    rw [hrun]
    rw [hcalls] at hc'
    by_cases hid : id' = id
    · subst hid
      rw [Function.update_self] at hc'
      cases hc'
      exact hc
    · rw [Function.update_of_ne hid] at hc'
      exact hok.calls id' c' hc'
  · rw [hrun]
    exact hok.run

/-- A call that fails. -/
theorem CallOk.fails {run : ColdWorld} (bufs : Nat → Bytes) :
    CallOk hx tdata origin recs run id { c with bufs := bufs, phase := .answered false } :=
  ⟨fun hne => absurd rfl hne, fun hok => absurd hok Bool.false_ne_true⟩

/-- Nothing is left to the origin: every chunk has the view's bytes. -/
theorem CallOk.stitched {run : ColdWorld} (h : CallOk hx tdata origin recs run id c)
    (hopen : c.phase ≠ .answered false) {m : ReplicaMeta} (hm : hx.shown = .view m)
    {bufs : Nat → Bytes} (hst : Stitching m tdata origin c.chunks bufs [] c.chunks.length) :
    CallOk hx tdata origin recs run id { c with bufs := bufs, phase := .answered true } := by
  refine ⟨fun _ => h.same hopen, fun _ i ch hi => ⟨hst.lengths i ch hi, fun k hk => ?_⟩⟩
  have hin := (h.same hopen).2 ch (List.mem_of_getElem? hi) k hk
  rw [ShownCx.shownSize, hm] at hin
  have hlt := (List.getElem?_eq_some_iff.1 hi).1
  rcases hst.served i ch hi hlt k hk hin with hdone | ⟨r, hr, -⟩
  · rw [ShownCx.shownByte, hm]
    exact hdone
  · cases hr

/-- What the vector read brought goes to its place. -/
theorem scatterAll_spec {m : ReplicaMeta} {resid : List Residual} {wbufs : List Bytes}
    {chunks : List Chunk} {bufs out : Nat → Bytes} {n : Nat}
    (hwire : ∀ wb ∈ (missWire hx.pageSize hx.fileSize resid).zip wbufs,
      BytesOf origin wb.1.off wb.1.len wb.2)
    (hst : Stitching m tdata origin chunks bufs resid n)
    (h : scatterAll hx resid wbufs bufs = some out) :
    Stitching m tdata origin chunks out [] n := by
  obtain ⟨bytes, hscatter, rfl⟩ := Option.map_eq_some_iff.1 h
  obtain ⟨hlen, heach⟩ := mapM_zip hscatter
  refine placeResiduals_spec hlen (fun rb hrb => ?_) hst
  exact scatterFrom_spec (fun wb hwb => hwire wb (findWire_subset _ _ wb hwb)) (heach rb hrb)

/-- A request of the slot run that completed has the shown file's bytes. -/
theorem CallOk.finished {run : ColdWorld} (h : CallOk hx tdata origin recs run id c)
    (hopen : c.phase ≠ .answered false) (hcold : hx.shown = .cold cx)
    (hreq : ReqOk cx origin recs r []) (hdone : r.phase = .done true)
    (hchunks : r.chunks = c.chunks) :
    CallOk hx tdata origin recs run id
      { c with bufs := fun i => r.bufs.getD i [], phase := .answered true } := by
  refine ⟨fun _ => h.same hopen, fun _ i ch hi => ?_⟩
  have hbuf : r.bufs.getD i [] = image cx origin recs ch.off ch.len := by
    rw [hreq.bytes hdone, hchunks, List.getD_eq_getElem?_getD, List.getElem?_map, hi]
    rfl
  simp only [hbuf]
  refine ⟨by simp [image], fun k hk => ?_⟩
  rw [getElem?_image, if_pos hk, ShownCx.shownByte, hcold]

/-- A call in another phase than a failure's has not failed. -/
def CallPhase.failed : CallPhase → Bool
  | .answered ok => !ok
  | _ => false

theorem not_failed {p q : CallPhase} (hp : p = q) (hq : q.failed = false) :
    p ≠ .answered false := by
  rintro rfl
  rw [← hp] at hq
  cases hq

/-! ### Steps -/

theorem ask_keeps (hvalid : hx.Valid origin) (hok : ShownOk hx tdata origin recs h) {a : Ask}
    {bufs : Nat → Bytes} (htyped : ∀ ch ∈ a.chunks, ch.off < 2 ^ 64 ∧ ch.len < 2 ^ 32)
    (hbufs : ∀ i ch, a.chunks[i]? = some ch → (bufs i).length = ch.len)
    (hview : ∀ m, hx.shown = .view m → ∀ ch ∈ a.chunks, ch.off + ch.len < 2 ^ 64) :
    ShownOk hx tdata origin recs (h.ask hx id a bufs) := by
  unfold ShownHandle.ask
  rw [hok.tripped]
  rcases onCaller_cases hvalid.small htyped hview with
    ⟨hcaller, hnil, hinside⟩ | hcaller | ⟨hcaller, hempty⟩ | ⟨hcaller, hin, hcut⟩
  · rw [hcaller, hnil]
    refine hok.called rfl rfl (List.append_nil _) rfl ⟨fun _ => ⟨hinside.symm, ?_⟩, rfl⟩
    exact fun ch hch => absurd hch List.not_mem_nil
  · rw [hcaller]
    exact hok.called rfl rfl rfl rfl
      ⟨fun hne => absurd rfl hne, fun hyes => absurd hyes Bool.false_ne_true⟩
  · rw [hcaller]
    have hlen : ∀ ch ∈ a.chunks.map fun c => (⟨c.off, 0⟩ : Chunk), ch.len = 0 := by
      intro ch hch
      obtain ⟨c, -, rfl⟩ := List.mem_map.1 hch
      rfl
    refine hok.called rfl rfl rfl rfl ⟨fun _ => ⟨hempty, ?_⟩, fun _ i ch hi => ?_⟩
    · intro ch hch k hk
      rw [hlen ch hch] at hk
      exact absurd hk (Nat.not_lt_zero k)
    · have hzero := hlen ch (List.mem_of_getElem? hi)
      refine ⟨hzero.symm, fun k hk => ?_⟩
      rw [hzero] at hk
      exact absurd hk (Nat.not_lt_zero k)
  · rw [hcaller]
    refine hok.called rfl rfl rfl rfl ⟨fun _ => ⟨rfl, ?_⟩, hin, fun i ch hi => ?_⟩
    · intro ch hch k hk
      have := hin ch hch
      omega
    · obtain ⟨asked, hasked, hle⟩ := hcut i ch hi
      show ((bufs i).take ((hx.inside a).getD i ⟨0, 0⟩).len).length = ch.len
      rw [List.getD_eq_getElem?_getD, hi, List.length_take, hbufs i asked hasked]
      exact Nat.min_eq_left hle

theorem stitch_keeps (hvalid : hx.Valid origin) (hok : ShownOk hx tdata origin recs h)
    (hc : h.calls id = some c) (hphase : c.phase = .posted) {m : ReplicaMeta}
    (hm : hx.shown = .view m) {pread : Nat → Nat → Nat → Nat → Bytes}
    {cached : Nat → Nat → Nat → Option Bytes}
    (hpread : ∀ c v off n, pread c v off n <+: slice tdata off n)
    (hcached : ∀ c off len b, cached c off len = some b → BytesOf origin off len b)
    (issued : Bool) : ShownOk hx tdata origin recs (h.stitch hx m id c pread cached issued) := by
  have hcall := hok.calls id c hc
  have hposted := hcall.phase
  rw [hphase] at hposted
  obtain ⟨hin, hlens⟩ := hposted
  have hopen : c.phase ≠ .answered false := not_failed hphase rfl
  have hsmall := hvalid.small
  have hmok : m.Ok := by
    unfold ShownCx.Valid at hvalid
    rw [hm] at hvalid
    obtain ⟨image, himage⟩ := hvalid
    exact ReplicaFile.deserialize_ok himage
  have hhonest : (hx.stitchCx pread cached).Honest tdata origin :=
    ⟨hpread, hcached, fun _ _ _ h => (by cases h), fun _ _ _ h => (by cases h)⟩
  have hch : ∀ ch ∈ c.chunks, ch.off + ch.len < 2 ^ 64 := by
    intro ch hmem
    have := hin ch hmem
    omega
  unfold ShownHandle.stitch
  split
  · exact hok.called rfl rfl rfl rfl (.fails c.bufs)
  rename_i bufs resid hserve
  have hst : Stitching m tdata origin c.chunks bufs resid c.chunks.length :=
    stitchChunks_spec hmok hhonest hch (c := 0) rfl
      ⟨hlens, by simp, fun _ _ _ hlt => absurd hlt (Nat.not_lt_zero _)⟩ hserve
  split
  · rename_i hnone
    subst hnone
    exact hok.called rfl rfl rfl rfl (hcall.stitched hopen hm hst)
  split
  · exact hok.called rfl rfl rfl rfl ⟨fun _ => hcall.same hopen, m, hm, hst⟩
  · exact hok.called rfl rfl rfl rfl (.fails bufs)

theorem wire_keeps (hok : ShownOk hx tdata origin recs h) (hc : h.calls id = some c)
    {resid : List Residual} (hphase : c.phase = .fetching resid) {data : Option (List Bytes)}
    (hwire : ∀ wbufs, data = some wbufs →
      ∀ wb ∈ (missWire hx.pageSize hx.fileSize resid).zip wbufs,
        BytesOf origin wb.1.off wb.1.len wb.2)
    (hspare : data = none → ((h.errors + 1 : Nat) : Int) < hx.maxErrors) :
    ShownOk hx tdata origin recs (h.wire hx id c resid data) := by
  have hcall := hok.calls id c hc
  have hopen : c.phase ≠ .answered false := not_failed hphase rfl
  have hst := hcall.phase
  rw [hphase] at hst
  cases data with
  | none =>
      refine hok.called rfl rfl rfl ?_ ⟨fun _ => hcall.same hopen, hst⟩
      have hlt := hspare rfl
      show (h.tripped || decide (hx.maxErrors ≤ ((h.errors + 1 : Nat) : Int))) = h.tripped
      rw [decide_eq_false (by omega), Bool.or_false]
  | some wbufs =>
      obtain ⟨m, hm, hst⟩ := hst
      unfold ShownHandle.wire
      simp only
      split
      · exact hok.called rfl rfl rfl rfl (.fails c.bufs)
      · rename_i bufs hscatter
        exact hok.called rfl rfl rfl rfl
          (hcall.stitched hopen hm (scatterAll_spec (hwire wbufs rfl) hst hscatter))

theorem retried_keeps (hok : ShownOk hx tdata origin recs h) (hc : h.calls id = some c)
    {resid : List Residual} (hphase : c.phase = .retrying resid) {data : Option (List Bytes)}
    (hdata : ∀ bytes, data = some bytes → bytes.length = resid.length ∧
      ∀ rb ∈ resid.zip bytes, BytesOf origin rb.1.off rb.1.len rb.2) :
    ShownOk hx tdata origin recs (h.retried id c resid data) := by
  have hcall := hok.calls id c hc
  have hopen : c.phase ≠ .answered false := not_failed hphase rfl
  have hst := hcall.phase
  rw [hphase] at hst
  cases data with
  | none => exact hok.called rfl rfl rfl rfl (.fails c.bufs)
  | some bytes =>
      obtain ⟨m, hm, hst⟩ := hst
      obtain ⟨hlen, hbytes⟩ := hdata bytes rfl
      exact hok.called rfl rfl rfl rfl
        (hcall.stitched hopen hm (placeResiduals_spec hlen hbytes hst))

/-- A step of the slot run, which keeps the chunks of every request of it. -/
theorem ShownOk.ran (hok : ShownOk hx tdata origin recs h) (hvalid : hx.Valid origin)
    (hcold : hx.shown = .cold cx) {act : ColdAct} {w : ColdWorld}
    (hf : Faithful cx origin recs h.run act) (hw : h.run.step cx act = some w) :
    ShownOk hx tdata origin recs { h with run := w } := by
  refine ⟨hok.relayed, hok.tripped, fun id c hc => ?_, fun cx' hcold' => ?_⟩
  · exact (hok.calls id c hc).carried fun r hr => ColdWorld.step_chunks hw hr
  · rw [hcold] at hcold'
    cases hcold'
    unfold ShownCx.Valid at hvalid
    rw [hcold] at hvalid
    exact slotWorldOk_step hvalid.2.1 hvalid.1 (hok.run cx hcold) hf hw

theorem shownOk_step (hvalid : hx.Valid origin) {h' : ShownHandle} {act : ShownAct}
    (hok : ShownOk hx tdata origin recs h) (htruth : Truthful hx tdata origin recs h act)
    (hspare : Spared hx h act) (hstep : h.step hx act = some h') :
    ShownOk hx tdata origin recs h' := by
  cases act with
  | ask id a bufs =>
      simp only [ShownHandle.step] at hstep
      split at hstep
      · cases hstep
      · cases hstep
        exact ask_keeps hvalid hok htruth.1 htruth.2 hspare
  | stitch id pread cached issued =>
      simp only [ShownHandle.step] at hstep
      split at hstep
      · rename_i c m hc hm
        split at hstep
        · rename_i hphase
          cases hstep
          exact stitch_keeps hvalid hok hc hphase hm htruth.1 htruth.2 issued
        · cases hstep
      · cases hstep
  | wire id data =>
      simp only [ShownHandle.step, Option.bind_eq_some_iff] at hstep
      obtain ⟨c, hc, hstep⟩ := hstep
      split at hstep
      · rename_i resid hphase
        cases hstep
        refine wire_keeps hok hc hphase (fun wbufs hd => htruth c resid wbufs hc hphase hd) ?_
        rintro rfl
        exact hspare
      · cases hstep
  | retried id data =>
      simp only [ShownHandle.step, Option.bind_eq_some_iff] at hstep
      obtain ⟨c, hc, hstep⟩ := hstep
      split at hstep
      · rename_i resid hphase
        cases hstep
        exact retried_keeps hok hc hphase fun bytes hd => htruth c resid bytes hc hphase hd
      · cases hstep
  | start id =>
      simp only [ShownHandle.step] at hstep
      split at hstep
      · rename_i c cx hc hcold
        split at hstep
        · rename_i hphase
          obtain ⟨w, hw, rfl⟩ := Option.map_eq_some_iff.1 hstep
          have hran := hok.ran hvalid hcold (by exact trivial) hw
          have hcall := hran.calls id c hc
          have hreq : ∃ r, w.reqs id = some r ∧ r.chunks = c.chunks := by
            simp only [ColdWorld.step] at hw
            split at hw <;> cases hw
            exact ⟨_, Function.update_self _ _ _, rfl⟩
          obtain ⟨r, hr, hchunks⟩ := hreq
          exact hran.called rfl rfl rfl rfl
            ⟨fun _ => hcall.same (not_failed hphase rfl), cx, r, hcold, hr, hchunks⟩
        · cases hstep
      · cases hstep
  | slotRun act =>
      simp only [ShownHandle.step] at hstep
      split at hstep
      · rename_i cx hcold
        obtain ⟨w, hw, rfl⟩ := Option.map_eq_some_iff.1 hstep
        exact hok.ran hvalid hcold (htruth cx hcold) hw
      · cases hstep
  | finish id =>
      simp only [ShownHandle.step] at hstep
      split at hstep
      · rename_i c r hc hr
        split at hstep
        · rename_i ok hphase hdone
          cases hstep
          have hcall := hok.calls id c hc
          have hslots := hcall.phase
          rw [hphase] at hslots
          obtain ⟨cx, r', hcold, hr', hchunks⟩ := hslots
          rw [hr] at hr'
          cases hr'
          unfold ShownHandle.finish
          split
          · rename_i hyes
            subst hyes
            exact hok.called rfl rfl rfl rfl
              (hcall.finished (not_failed hphase rfl) hcold ((hok.run cx hcold).reqs id r hr) hdone
                hchunks)
          · exact hok.called rfl rfl rfl rfl (.fails c.bufs)
        · cases hstep
      · cases hstep

/-- [SRC UCacheFile.cc:1590-1606, 1899-2353] A handle that shows a
replica's view or a slot layout, in any run of its reads: as long as no vector read fails that would
be the one too many in a row, none of its requests goes to the origin at the offsets of what it
shows, and each that was answered without error has the shown file's bytes of what it asked. -/
theorem shown_reads_stay {hx : ShownCx} {tdata origin : Bytes} {recs : Nat → Bytes}
    (hvalid : hx.Valid origin) {fill : ColdFill}
    (hfill : ∀ cx, hx.shown = .cold cx → FillOk cx origin recs fill) (hidle : fill.waiters = [])
    {acts : List ShownAct} {h : ShownHandle}
    (htruth : Along (ShownHandle.step hx) (Truthful hx tdata origin recs)
      { run := { fill := fill } } acts)
    (hspare : Along (ShownHandle.step hx) (Spared hx) { run := { fill := fill } } acts)
    (hrun : exec (ShownHandle.step hx) { run := { fill := fill } } acts = some h) :
    ShownOnly hx tdata origin recs h := by
  have hstart : ShownOk hx tdata origin recs { run := { fill := fill } } := by
    refine ⟨rfl, rfl, fun _ _ hc => absurd hc.symm (Option.some_ne_none _), fun cx hcold => ?_⟩
    refine ⟨hfill cx hcold, fun _ hk => absurd hk List.not_mem_nil,
      fun _ hl => absurd hl.symm (Option.some_ne_none _), fun _ he => absurd he List.not_mem_nil,
      fun _ _ hr => absurd hr.symm (Option.some_ne_none _),
      fun _ _ hr => absurd hr.symm (Option.some_ne_none _), fun id _ => ?_⟩
    simp [ColdFill.waiting, hidle]
  have hok := exec_invariant_along (ShownOk hx tdata origin recs)
    (fun _ _ _ hs hcond hstep => shownOk_step hvalid hs hcond.1 hcond.2 hstep) hstart
    (htruth.and hspare) hrun
  refine ⟨hok.relayed, fun id c hc hphase => ?_⟩
  have hcall := hok.calls id c hc
  have hanswer := hcall.phase
  rw [hphase] at hanswer
  rw [← (hcall.same (not_failed hphase rfl)).1]
  exact hanswer rfl

/-! ### A view that is read -/

/-- The small replica's view, opened. -/
def smallView : ShownCx where
  shown := .view smallReplica
  pageSize := 4
  fileSize := 10

/-- Every byte is asked for; the vector read fails, and the pieces sent out as they are come.  Then
a read runs past the end, and its vector read comes. -/
def smallReads : List ShownAct :=
  [.ask 0 (.read 0 12) fun _ => List.replicate 12 0,
   .stitch 0 (fun _ _ off n => slice smallOverlay off n) (fun _ _ _ => none) true,
   .wire 0 none,
   .retried 0 (some [slice smallOrigin 0 2, slice smallOrigin 4 6]),
   .ask 1 (.pgRead 9 100) fun _ => List.replicate 100 0,
   .stitch 1 (fun _ _ off n => slice smallOverlay off n) (fun _ _ _ => none) true,
   .wire 1 (some [slice smallOrigin 8 2])]

/-- What the small run does, and what it asks for as it stands. -/
def smallReadsCheck (h : ShownHandle) : ShownAct → Bool
  | .ask _ a bufs => a.chunks.all (fun ch =>
      decide (ch.off < 2 ^ 64) && decide (ch.len < 2 ^ 32) &&
        decide (ch.off + ch.len < 2 ^ 64)) &&
      (List.range a.chunks.length).all fun i =>
        decide ((bufs i).length = (a.chunks.getD i ⟨0, 0⟩).len)
  | .wire _ none => decide (((h.errors + 1 : Nat) : Int) < smallView.maxErrors)
  | .wire id (some wbufs) => (h.calls id).all fun c =>
      match c.phase with
      | .fetching resid => ((missWire 4 10 resid).zip wbufs).all fun wb =>
          decide (wb.1.off + wb.1.len ≤ 10) && decide (wb.2 = slice smallOrigin wb.1.off wb.1.len)
      | _ => true
  | .retried id (some bytes) => (h.calls id).all fun c =>
      match c.phase with
      | .retrying resid => decide (bytes.length = resid.length) && (resid.zip bytes).all fun rb =>
          decide (rb.1.off + rb.1.len ≤ 10) && decide (rb.2 = slice smallOrigin rb.1.off rb.1.len)
      | _ => true
  | _ => true

/-- The steps of the small run: the overlay's file and the byte cache are as above. -/
def SmallPart : ShownAct → Prop
  | .stitch _ pread cached _ =>
      pread = (fun _ _ off n => slice smallOverlay off n) ∧ cached = fun _ _ _ => none
  | .slotRun _ => False
  | _ => True

theorem bytesOf_small {off len : Nat} {b : Bytes} (hin : off + len ≤ 10)
    (hb : b = slice smallOrigin off len) : BytesOf smallOrigin off len b :=
  hb ▸ bytesOf_slice hin

theorem smallReadsCheck_sound {recs : Nat → Bytes} {a : ShownAct} (hpart : SmallPart a)
    (hcheck : smallReadsCheck h a = true) :
    Truthful smallView smallOverlay smallOrigin recs h a ∧ Spared smallView h a := by
  cases a with
  | ask id a bufs =>
      simp only [smallReadsCheck, Bool.and_eq_true, List.all_eq_true, decide_eq_true_eq,
        List.mem_range] at hcheck
      obtain ⟨hchunks, hbufs⟩ := hcheck
      refine ⟨⟨fun ch hch => (hchunks ch hch).1, fun i ch hi => ?_⟩,
        fun _ _ ch hch => (hchunks ch hch).2⟩
      have := hbufs i (List.getElem?_eq_some_iff.1 hi).1
      rwa [List.getD_eq_getElem?_getD, hi] at this
  | stitch id pread cached issued =>
      obtain ⟨rfl, rfl⟩ := hpart
      exact ⟨⟨fun _ _ _ _ => List.prefix_rfl, fun _ _ _ _ hnone => by cases hnone⟩, trivial⟩
  | wire id data =>
      cases data with
      | none =>
          refine ⟨fun _ _ _ _ _ hnone => (by cases hnone), ?_⟩
          simp only [smallReadsCheck, decide_eq_true_eq] at hcheck
          exact hcheck
      | some wbufs =>
          refine ⟨fun c resid wbufs' hc hphase hdata wb hwb => ?_, trivial⟩
          cases hdata
          simp only [smallReadsCheck, hc, Option.all_some, hphase, List.all_eq_true,
            Bool.and_eq_true, decide_eq_true_eq] at hcheck
          exact bytesOf_small (hcheck wb hwb).1 (hcheck wb hwb).2
  | retried id data =>
      cases data with
      | none => exact ⟨fun _ _ _ _ _ hnone => (by cases hnone), trivial⟩
      | some bytes =>
          refine ⟨fun c resid bytes' hc hphase hdata => ?_, trivial⟩
          cases hdata
          simp only [smallReadsCheck, hc, Option.all_some, hphase, List.all_eq_true,
            Bool.and_eq_true, decide_eq_true_eq] at hcheck
          exact ⟨hcheck.1, fun rb hrb => bytesOf_small (hcheck.2 rb hrb).1 (hcheck.2 rb hrb).2⟩
  | start id => exact ⟨trivial, trivial⟩
  | slotRun act => exact hpart.elim
  | finish id => exact ⟨trivial, trivial⟩

theorem smallReads_part : ∀ a ∈ smallReads, SmallPart a := by
  simp [smallReads, SmallPart]

set_option maxRecDepth 20000 in
/-- Two reads of a small view, the first sent out again in pieces. -/
theorem small_view_stays : ∃ h,
    exec (ShownHandle.step smallView) {} smallReads = some h ∧
      ShownOnly smallView smallOverlay smallOrigin (fun _ => []) h ∧
      (h.calls 0).map (fun c => c.bufs 0) = some [0, 1, 101, 102, 4, 5, 6, 7, 8, 9, 103, 104] ∧
      (h.calls 1).map (fun c => c.bufs 0) = some [9, 103, 104] := by
  have himage : ReplicaFile.deserialize (ReplicaFile.serialize smallReplica) =
      some smallReplica := by
    decide +kernel
  have hends : (exec (ShownHandle.step smallView) {} smallReads).any (fun h =>
      decide ((h.calls 0).map (fun c => c.bufs 0) =
          some [0, 1, 101, 102, 4, 5, 6, 7, 8, 9, 103, 104]) &&
        decide ((h.calls 1).map (fun c => c.bufs 0) = some [9, 103, 104])) = true := by
    decide +kernel
  obtain ⟨h, hrun, hbufs⟩ := (Option.any_eq_true _ _).1 hends
  rw [Bool.and_eq_true, decide_eq_true_eq, decide_eq_true_eq] at hbufs
  have hboth : Along (ShownHandle.step smallView) (fun h a =>
      Truthful smallView smallOverlay smallOrigin (fun _ => []) h a ∧ Spared smallView h a) {}
        smallReads :=
    along_of_check (fun _ => True) SmallPart (fun _ _ _ _ _ _ => trivial)
      (fun _ _ _ => smallReadsCheck_sound) trivial smallReads_part (by decide +kernel)
  have hvalid : smallView.Valid smallOrigin := ⟨_, himage⟩
  exact ⟨h, hrun, shown_reads_stay hvalid (fun _ hcold => by cases hcold) rfl
    (hboth.imp fun _ _ h => h.1) (hboth.imp fun _ _ h => h.2) hrun, hbufs⟩

end UCache
