/-
Module: UCache.Plugin.ColdRequest
Purpose: A read of a file shown in a slot layout: cutting its chunks into pieces, fetching and
  converting what is missing, and copying the slots, as a machine of any number of requests over
  one run whose actions carry every answer of the byte cache, the store and the wire.
Trusted boundary: none
Main exports: roundSpan, readvElemEnd, classifyAt
-/
import UCache.Lib.Run
import UCache.Plugin.ColdFill

namespace UCache

open Lib

/-! ### Rounding and cutting -/

/-- The most one element of a vector read holds. -/
def kMaxReadvElem : Nat := 2 * 1024 * 1024 - 16

/-- [SRC ReadRounding.h:30-50] Widen a span out to whole pages. -/
def roundSpan (pageSize fileSize off len : Nat) : Nat × Nat :=
  let start := off / pageSize * pageSize
  let stop := min ((off + len + pageSize - 1) / pageSize * pageSize) fileSize
  if stop ≤ start ∨ 2 ^ 32 - 1 < stop - start then (off, off + len) else (start, stop)

/-- [SRC ReadRounding.h:59-67] Where to cut a span so that the piece is a legal element. -/
def readvElemEnd (start stop pageSize : Nat) : Nat :=
  if stop - start ≤ kMaxReadvElem then stop
  else
    let cut := start + kMaxReadvElem - (start + kMaxReadvElem) % pageSize
    min (if cut ≤ start then start + pageSize else cut) stop

/-! ### A run and its slots -/

/-- [SRC ColdRun.cc:125-128] What decoding a page needs. -/
structure SlotPage where
  nbytes : Nat := 0
  hasChecksum : Bool := false
deriving DecidableEq, Repr

/-- What does not change while a file is served: its layout, the store's codecs, the byte cache's
page size, and the library functions in use. -/
structure ColdCx where
  D : Decoders
  hash : Bytes → UInt64
  rnt : Bool
  L : FillLayout
  pages : List SlotPage
  codecs : List String
  pageSize : Nat

def ColdCx.slot (cx : ColdCx) (i : Nat) : FillSlot := cx.L.slots.getD i {}

/-- [SRC ColdRun.cc:1146-1257] The conversion in `convertOne`: the record of slot `i` from the
bytes of its original, and its kind; nothing when the request fails. -/
def convertSlot (cx : ColdCx) (E : Encoder) (i : Nat) (original : Bytes) :
    Option (BasketKind × Bytes) :=
  let s := cx.slot i
  if cx.rnt then
    let pg := cx.pages.getD i {}
    match convertPage cx.D E cx.hash original pg.nbytes pg.hasChecksum
        (s.vLen - kSlotChecksumBytes) with
    | .error _ => none
    | .ok p => some (if p.enc.length = p.raw.length then .raw else .zstd, p.enc)
  else
    let c := match convertBasket cx.D E original s.vLen cx.codecs with
      | .ok c => (c.kind, c.record)
      -- Not a basket: the reader gets the origin's bytes, as it would have.
      | .error _ => (.original, original)
    (patchKeySeek c.2 s.vSeek).map fun r => (c.1, r)

/-! ### Pieces -/

structure Chunk where
  off : Nat
  len : Nat
deriving DecidableEq, Repr

/-- Where a turn of `classify` finds the bytes from a position on. -/
inductive Source where
  | written (bytes : Bytes)
  | orig (off : Nat)
  | slot (i start : Nat)
deriving DecidableEq, Repr

/-- The loop over the windows: one that covers `pos`, else where the next one starts. -/
def windowScan (pos : Nat) : List Window → Nat → Option Window × Nat
  | [], next => (none, next)
  | w :: ws, next =>
      if w.off ≤ pos ∧ pos < w.stop then (some w, next)
      else windowScan pos ws (if pos < w.off then min next w.off else next)

/-- `std::upper_bound` over the slots, less one. -/
def FillLayout.slotAt (L : FillLayout) (pos : Nat) : Nat :=
  L.slots.findIdx (fun s => decide (pos < s.vSeek)) - 1

/-- [SRC ColdRun.cc:1439-1490] One turn of the loop: where the bytes from `pos` on are, and how
many of them. -/
def classifyAt (L : FillLayout) (pos stop : Nat) : Source × Nat :=
  if pos < L.originSize then
    let segEnd := min stop L.originSize
    match windowScan pos L.windows segEnd with
    | (some w, _) =>
        let n := min segEnd w.stop - pos
        (.written (slice w.bytes (pos - w.off) n), n)
    | (none, next) => (.orig pos, next - pos)
  else if pos < L.metaSeek then
    let n := min stop L.metaSeek - pos
    (.written (List.replicate n 0), n)
  else if pos < L.metaEnd then
    let n := min stop L.metaEnd - pos
    (.written (slice L.metaRecord (pos - L.metaSeek) n), n)
  else if pos < L.slotsBegin then
    let n := min stop L.slotsBegin - pos
    (.written (List.replicate n 0), n)
  else
    let i := L.slotAt pos
    let s := L.slots.getD i {}
    (.slot i (pos - s.vSeek), min stop (s.vSeek + s.vLen) - pos)

/-- How a piece of a chunk gets its bytes: at once, from the wire, or from a slot. -/
inductive PieceKind where
  | now
  | orig (off : Nat)
  | slot (i start : Nat)
deriving DecidableEq, Repr

/-- [SRC ColdRun.cc:891-900] A piece: `len` bytes of chunk `chunk` from position `pos`. -/
structure Piece where
  chunk : Nat
  pos : Nat
  len : Nat
  kind : PieceKind
deriving DecidableEq, Repr

/-! ### Copying a slot -/

/-- What the outside answers while a request's code runs. -/
structure Answers where
  /-- `hasRange` and `readCached` said yes. -/
  cached : Bool := false
  /-- What the buffer handed to `readCached` holds afterwards, whatever it said. -/
  bytes : Bytes := []
  /-- `SlotStore::readRecord`. -/
  stored : Option Bytes := none
  /-- The vector read was taken. -/
  sent : Bool := true

/-- [SRC ColdRun.cc:968-995] The record a slot is copied from; `none` when it is not to be had. -/
def recordOf (cx : ColdCx) (i : Nat) (w : Where) (a : Answers) : Option Bytes :=
  match w.mem with
  | some m => some m
  | none =>
      if w.kind = .original ∧ cx.rnt = false then
        if a.cached then patchKeySeek a.bytes (cx.slot i).vSeek else none
      else if w.inStore then a.stored
      else none

/-- [SRC ColdRun.cc:996-1031] Bytes `[start, start + len)` of a slot, from its record. -/
def slotBytes (cx : ColdCx) (i : Nat) (record : Bytes) (start len : Nat) : Option Bytes :=
  let s := cx.slot i
  if cx.rnt then
    let pageLen := s.vLen - kSlotChecksumBytes
    let page := decodePage cx.D record pageLen
    if page.length ≠ pageLen then none
    else
      let sum := sealDecodedPage cx.hash page
      let head := if start < pageLen then slice page start (min len (pageLen - start)) else []
      some (head ++ slice sum (max start pageLen - pageLen) (start + len - max start pageLen))
  else
    let n := if start < record.length then min len (record.length - start) else 0
    some (slice record start n ++ List.replicate (len - n) 0)

/-- How a copy ends: the bytes, or nothing; and then whether the slot is forgotten. -/
inductive Copied where
  | bytes (b : Bytes)
  | lost
  | unreadable
deriving DecidableEq, Repr

/-- [SRC ColdRun.cc:956-1032] -/
def copySlot (cx : ColdCx) (i start len : Nat) (w : Where) (a : Answers) : Copied :=
  if (cx.slot i).vLen < start + len then .lost
  else
    match recordOf cx i w a with
    | none => .unreadable
    | some record =>
        match slotBytes cx i record start len with
        | none => .unreadable
        | some b => .bytes b

/-! ### Parts -/

/-- [SRC ColdRun.cc:1261-1266] What one part of a fetch is for: a claimed basket, or the original
bytes of a piece. -/
structure PartItem where
  slot : Bool
  index : Nat
  off : Nat
  len : Nat
  rs : Nat
  re : Nat
deriving DecidableEq, Repr

structure WireElem where
  off : Nat
  len : Nat
deriving DecidableEq, Repr

structure Part where
  items : List PartItem
  wire : List WireElem
deriving DecidableEq, Repr

def kPartBytes : Nat := 4 * 2 ^ 20

def kPartItems : Nat := 512

/-- [SRC ColdRun.cc:1393-1399] The rounded ranges of a part, coalesced. -/
def addRun (runs : List (Nat × Nat)) (it : PartItem) : List (Nat × Nat) :=
  match runs.getLast? with
  | some (s, e) =>
      if it.rs ≤ e then runs.dropLast ++ [(s, max e it.re)] else runs ++ [(it.rs, it.re)]
  | none => [(it.rs, it.re)]

/-- [SRC ColdRun.cc:1403-1410] A run cut into legal elements.  A cut moves on, so as many turns
as the run has bytes are enough. -/
def cutRun (pageSize : Nat) : Nat → Nat → Nat → List WireElem
  | 0, _, _ => []
  | fuel + 1, pos, stop =>
      if pos < stop then
        let cut := readvElemEnd pos stop pageSize
        { off := pos, len := cut - pos } :: cutRun pageSize fuel cut stop
      else []

/-- [SRC ColdRun.cc:1390-1427] -/
def issuePart (pageSize : Nat) (items : List PartItem) : Part where
  items := items
  wire := (items.foldl addRun []).flatMap fun r => cutRun pageSize (r.2 - r.1) r.1 r.2

/-- Where the walk that forms the parts stands. -/
structure Parting where
  parts : List (List PartItem) := []
  part : List PartItem := []
  partBytes : Nat := 0
  partEnd : Nat := 0

/-- [SRC ColdRun.cc:1637-1650] -/
def addItem (st : Parting) (it : PartItem) : Parting :=
  let cut := !st.part.isEmpty &&
    (decide (kPartBytes ≤ st.partBytes) || decide (kPartItems ≤ st.part.length)) &&
      decide (st.partEnd ≤ it.rs)
  { parts := if cut then st.parts ++ [st.part] else st.parts
    part := (if cut then [] else st.part) ++ [it]
    partBytes := (if cut then 0 else st.partBytes) + (it.re - max it.rs (min st.partEnd it.re))
    partEnd := max st.partEnd it.re }

def formParts (items : List PartItem) : List (List PartItem) :=
  let st := (items.mergeSort fun a b => decide (a.rs ≤ b.rs)).foldl addItem {}
  if st.part.isEmpty then st.parts else st.parts ++ [st.part]

/-- [SRC ColdRun.cc:1366-1381] Copy a range out of the elements of a part. -/
def gather : List (WireElem × Bytes) → Nat → Nat → Option Bytes
  | [], _, left => if left = 0 then some [] else none
  | (w, buf) :: rest, pos, left =>
      if left = 0 then some []
      else if pos < w.off ∨ w.off + w.len ≤ pos then gather rest pos left
      else
        let n := min left (w.off + w.len - pos)
        (gather rest (pos + n) (left - n)).map fun b => slice buf (pos - w.off) n ++ b

/-! ### Requests -/

/-- A basket handed to the conversion pool. -/
structure Conversion where
  slot : Nat
  rounded : Bytes
  rStart : Nat
  recOff : Nat
  recLen : Nat
  fromCache : Bool

/-- Where the code of a request stands. -/
inductive Phase where
  | classify (c k : Nat)
  | gone (c k i : Nat)
  | hold (c k i : Nat)
  | settle (todo keep : List Nat)
  | settleHold (i : Nat) (todo keep : List Nat)
  | claim (todo : List Nat)
  | claimHold (i : Nat) (todo : List Nat)
  | fetch (todo : List Nat) (items : List PartItem)
  | issue (parts : List (List PartItem))
  | waiting
  | giveBack (todo : List Nat)
  | copy (todo : List Piece)
  | read (p : Piece) (w : Where) (todo : List Piece)
  | done (ok : Bool)

/-- [SRC ColdRun.cc:879-951] -/
structure ColdRequest where
  chunks : List Chunk
  /-- The user's buffers, one for each chunk. -/
  bufs : List Bytes
  attempt : Nat := 0
  mayPark : Bool := true
  phase : Phase := .classify 0 0
  /-- Every piece `classify` has cut, in order. -/
  pieces : List Piece := []
  need : List Nat := []
  claimed : List Nat := []
  held : Nat → Option Where := fun _ => none
  converted : List Nat := []
  outstanding : Nat := 1
  failed : Bool := false
  retry : Bool := false
  parts : List Part := []
  conversions : List Conversion := []

namespace ColdRequest

def isSlot (p : Piece) : Bool :=
  match p.kind with
  | .slot _ _ => true
  | _ => false

def isOrig (p : Piece) : Bool :=
  match p.kind with
  | .orig _ => true
  | _ => false

def slotPieces (r : ColdRequest) : List Piece := r.pieces.filter isSlot

def origPieces (r : ColdRequest) : List Piece := r.pieces.filter isOrig

/-- Copy bytes into a chunk's buffer. -/
def write (r : ColdRequest) (c k : Nat) (b : Bytes) : ColdRequest :=
  { r with bufs := r.bufs.modify c fun buf => patch buf k b }

def hold (r : ColdRequest) (i : Nat) (record : Bytes) : ColdRequest :=
  { r with held := Function.update r.held i (some { mem := some record }) }

/-- A record already held is at least as good. -/
def holdReady (r : ColdRequest) (cf : ColdFill) (i : Nat) : ColdRequest :=
  match r.held i, cf.look i with
  | none, some w => { r with held := Function.update r.held i (some w) }
  | _, _ => r

/-- [SRC ColdRun.cc:1034-1045] The same chunks again from the start. -/
def again (r : ColdRequest) (attempt : Nat) : ColdRequest :=
  { chunks := r.chunks, bufs := r.bufs, attempt := attempt, mayPark := false }

/-- [SRC ColdRun.cc:1093-1099] A slot fell through. -/
def lose (r : ColdRequest) : ColdRequest :=
  if r.attempt < 2 then r.again (r.attempt + 1) else { r with phase := .done false }

/-- The items for the original bytes the byte cache did not have. -/
def origItems (cx : ColdCx) (r : ColdRequest) : List PartItem :=
  ((List.range r.origPieces.length).zip r.origPieces).map fun kp =>
    let off := match kp.2.kind with
      | .orig off => off
      | _ => 0
    let span := roundSpan cx.pageSize cx.L.originSize off kp.2.len
    { slot := false
      index := kp.1
      off := off
      len := kp.2.len
      rs := span.1
      re := span.2 }

end ColdRequest

/-! ### The code of a request, turn by turn -/

/-- What a turn leaves: the run, the request, and the waiters to be told. -/
structure Turned where
  fill : ColdFill
  req : ColdRequest
  wakes : List Wake := []

namespace ColdRequest

/-- [SRC ColdRun.cc:1429-1493] One turn of `classify` at byte `k` of chunk `c`. -/
def classifyTurn (cx : ColdCx) (cf : ColdFill) (r : ColdRequest) (c k : Nat) (ch : Chunk)
    (a : Answers) : Option ColdRequest :=
  match classifyAt cx.L (ch.off + k) (ch.off + ch.len) with
  | (.written b, n) =>
      some { r.write c k b with
        pieces := r.pieces ++ [{ chunk := c, pos := k, len := n, kind := .now }]
        phase := .classify c (k + n) }
  | (.orig off, n) =>
      if a.bytes.length = n then
        some { r.write c k a.bytes with
          pieces := r.pieces ++
            [{ chunk := c, pos := k, len := n, kind := if a.cached then .now else .orig off }]
          phase := .classify c (k + n) }
      else none
  | (.slot i start, n) =>
      let r' : ColdRequest := { r with
        pieces := r.pieces ++ [{ chunk := c, pos := k, len := n, kind := .slot i start }] }
      if cf.state i = .ready then some { r' with phase := .gone c (k + n) i }
      else some { r' with need := r'.need ++ [i], phase := .classify c (k + n) }

/-- [SRC ColdRun.cc:1602-1632] One claimed slot: converted from the byte cache's copy, or fetched. -/
def fetchTurn (cx : ColdCx) (r : ColdRequest) (i : Nat) (todo : List Nat) (items : List PartItem)
    (a : Answers) : ColdRequest :=
  let s := cx.slot i
  let span := roundSpan cx.pageSize cx.L.originSize s.origSeek s.origLen
  if a.cached then
    { r with
      conversions := r.conversions ++
        [{ slot := i
           rounded := a.bytes
           rStart := span.1
           recOff := s.origSeek - span.1
           recLen := s.origLen
           fromCache := true }]
      outstanding := r.outstanding + 1
      phase := .fetch todo items }
  else
    { r with
      phase := .fetch todo (items ++
        [{ slot := true
           index := i
           off := s.origSeek
           len := s.origLen
           rs := span.1
           re := span.2 }]) }

/-- The slot and the start of a slot piece. -/
def slotOf (p : Piece) : Nat × Nat :=
  match p.kind with
  | .slot i start => (i, start)
  | _ => (0, 0)

/-- [SRC ColdRun.cc:1495-1652, 1048-1140] The next turn of a request's own code. -/
def turn (cx : ColdCx) (cf : ColdFill) (id : Nat) (r : ColdRequest) (a : Answers) :
    Option Turned :=
  match r.phase with
  | .classify c k =>
      match r.chunks[c]? with
      | none =>
          some ⟨cf, { r with
            phase := .settle ((r.need.mergeSort fun x y => decide (x ≤ y)).dedup) [] }, []⟩
      | some ch =>
          if ch.len ≤ k then some ⟨cf, { r with phase := .classify (c + 1) 0 }, []⟩
          else (r.classifyTurn cx cf c k ch a).map fun r' => (⟨cf, r', []⟩ : Turned)
  | .gone c k i =>
      let (cf', gone) := cf.keptOriginalGone cx.rnt i a.cached
      if gone then some ⟨cf', { r with need := r.need ++ [i], phase := .classify c k }, []⟩
      else some ⟨cf', { r with phase := .hold c k i }, []⟩
  | .hold c k i => some ⟨cf, { r.holdReady cf i with phase := .classify c k }, []⟩
  | .settle [] keep => some ⟨cf, { r with need := keep, phase := .claim keep }, []⟩
  | .settle (i :: todo) keep =>
      if cf.state i = .ready then some ⟨cf, { r with phase := .settleHold i todo keep }, []⟩
      else some ⟨cf, { r with phase := .settle todo (keep ++ [i]) }, []⟩
  | .settleHold i todo keep => some ⟨cf, { r.holdReady cf i with phase := .settle todo keep }, []⟩
  | .claim [] => some ⟨cf, { r with phase := .fetch r.claimed [] }, []⟩
  | .claim (i :: todo) =>
      match cf.claimOrWait i id with
      | (cf', .claimed) =>
          some ⟨cf', { r with claimed := r.claimed ++ [i], phase := .claim todo }, []⟩
      | (cf', .ready) => some ⟨cf', { r with phase := .claimHold i todo }, []⟩
      | (cf', .waiting) =>
          some ⟨cf', { r with outstanding := r.outstanding + 1, phase := .claim todo }, []⟩
  | .claimHold i todo => some ⟨cf, { r.holdReady cf i with phase := .claim todo }, []⟩
  | .fetch [] items =>
      some ⟨cf, { r with phase := .issue (formParts (items ++ r.origItems cx)) }, []⟩
  | .fetch (i :: todo) items => some ⟨cf, r.fetchTurn cx i todo items a, []⟩
  | .issue [] => some ⟨cf, { r with outstanding := r.outstanding - 1, phase := .waiting }, []⟩
  | .issue (p :: ps) =>
      if a.sent then
        some ⟨cf, { r with
          parts := r.parts ++ [issuePart cx.pageSize p]
          outstanding := r.outstanding + 1
          phase := .issue ps }, []⟩
      else some ⟨cf, { r with failed := true, phase := .issue ps }, []⟩
  | .waiting =>
      if r.outstanding ≠ 0 then none
      else if r.failed then
        some ⟨cf, { r with
          phase := .giveBack (r.claimed.filter fun i => !r.converted.contains i) }, []⟩
      else if r.retry then some ⟨cf, r.lose, []⟩
      else some ⟨cf, { r with phase := .copy r.slotPieces }, []⟩
  | .giveBack [] => some ⟨cf, { r with phase := .done false }, []⟩
  | .giveBack (i :: todo) =>
      let (cf', woken) := cf.abandon i
      some ⟨cf', { r with phase := .giveBack todo }, woken⟩
  | .copy [] => some ⟨cf, { r with phase := .done true }, []⟩
  | .copy (p :: todo) =>
      match r.held (slotOf p).1 with
      | some w => some ⟨cf, { r with phase := .read p w todo }, []⟩
      | none =>
          match cf.look (slotOf p).1 with
          | some w => some ⟨cf, { r with phase := .read p w todo }, []⟩
          | none => some ⟨cf, r.lose, []⟩
  | .read p w todo =>
      match copySlot cx (slotOf p).1 (slotOf p).2 p.len w a with
      | .bytes b => some ⟨cf, { r.write p.chunk p.pos b with phase := .copy todo }, []⟩
      | .lost => some ⟨cf, r.lose, []⟩
      | .unreadable => some ⟨cf.forget (slotOf p).1, r.lose, []⟩
  | .done _ => none

/-- One item of a part that arrived. -/
def deliverItem (wire : List (WireElem × Bytes)) (r : ColdRequest) (it : PartItem) : ColdRequest :=
  match gather wire it.rs (it.re - it.rs) with
  | none => { r with failed := true }
  | some buf =>
      if it.slot then
        { r with
          conversions := r.conversions ++
            [{ slot := it.index
               rounded := buf
               rStart := it.rs
               recOff := it.off - it.rs
               recLen := it.len
               fromCache := false }]
          outstanding := r.outstanding + 1 }
      else
        match r.origPieces[it.index]? with
        | none => r
        | some p => r.write p.chunk p.pos (slice buf (it.off - it.rs) p.len)

/-- [SRC ColdRun.cc:1298-1364] The answer to a part: an error, or the elements' bytes. -/
def reply (r : ColdRequest) (j : Nat) (data : Option (List Bytes)) : Option ColdRequest :=
  match r.parts[j]? with
  | none => none
  | some part =>
      let r₀ := { r with parts := r.parts.eraseIdx j }
      match data with
      | none => some { r₀ with failed := true, outstanding := r₀.outstanding - 1 }
      | some bufs =>
          if bufs.map List.length = part.wire.map WireElem.len then
            let r₁ := part.items.foldl (deliverItem (part.wire.zip bufs)) r₀
            some { r₁ with outstanding := r₁.outstanding - 1 }
          else none

end ColdRequest

/-! ### Any number of requests over one run -/

structure ColdWorld where
  fill : ColdFill := {}
  reqs : Nat → Option ColdRequest := fun _ => none
  /-- Waiters taken off the register and not yet called. -/
  wakes : List Wake := []
  /-- The records of a commit under way. -/
  committing : Option (List Collected) := none
  /-- Entries a commit left to be applied anew. -/
  toApply : List SlotEntry := []

/-- How a commit of the store ends. -/
inductive StoreOutcome where
  | stale
  | failed
  | landed (committed : List SlotEntry)

inductive ColdAct where
  /-- A user's request: its chunks and what their buffers hold. -/
  | serve (id : Nat) (chunks : List Chunk) (bufs : List Bytes)
  | turn (id : Nat) (a : Answers)
  /-- A request that waits once for read-ahead and starts over. -/
  | park (id : Nat)
  | reply (id j : Nat) (data : Option (List Bytes))
  /-- A conversion, with the encoder's behaviour at that moment; `thrown` is an exception. -/
  | convert (id j : Nat) (E : Encoder) (thrown direct has : Bool)
  | wake
  /-- Entries read from the store. -/
  | apply (es : List SlotEntry)
  | collect
  | commitEnd (o : StoreOutcome)
  | applyForgotten
  /-- What other files and handles do to the process's totals and this run's handles. -/
  | others (pendingTotal transientTotal handles : Nat)

namespace ColdWorld

def setReq (w : ColdWorld) (id : Nat) (r : ColdRequest) : ColdWorld :=
  { w with reqs := Function.update w.reqs id (some r) }

/-- [SRC ColdRun.cc:1146-1253] A conversion of the pool: the record is held by the request and
staged, or the request fails. -/
def convertOne (cx : ColdCx) (w : ColdWorld) (id : Nat) (r : ColdRequest) (cv : Conversion)
    (E : Encoder) (thrown direct has : Bool) : ColdWorld :=
  let original := slice cv.rounded cv.recOff cv.recLen
  match if thrown then none else convertSlot cx E cv.slot original with
  | none => w.setReq id { r with failed := true, outstanding := r.outstanding - 1 }
  | some (kind, record) =>
      -- A kept original is not punched from the byte cache: it is the only copy.
      let fromCache := cv.fromCache && (cx.rnt || decide (kind ≠ .original))
      let (cf, woken) := w.fill.stage cx.rnt cv.slot kind record fromCache (!direct) has
      let r' := r.hold cv.slot record
      { w.setReq id { r' with
          converted := r'.converted ++ [cv.slot]
          outstanding := r'.outstanding - 1 } with
        fill := cf
        wakes := w.wakes ++ woken }

/-- A waiter's callback. -/
def wakeOne (w : ColdWorld) (k : Wake) (r : ColdRequest) : ColdWorld :=
  let r₁ :=
    if !k.ok then { r with retry := true }
    else
      match k.record with
      | some record => r.hold k.slot record
      | none => r
  w.setReq k.request { r₁ with outstanding := r₁.outstanding - 1 }

def step (cx : ColdCx) (w : ColdWorld) : ColdAct → Option ColdWorld
  | .serve id chunks bufs =>
      if w.reqs id = none ∧ bufs.map List.length = chunks.map Chunk.len ∧
          (∀ ch ∈ chunks, ch.off + ch.len ≤ cx.L.virtualSize) then
        some (w.setReq id { chunks := chunks, bufs := bufs })
      else none
  | .turn id a =>
      (w.reqs id).bind fun r =>
        (r.turn cx w.fill id a).map fun t =>
          { w.setReq id t.req with fill := t.fill, wakes := w.wakes ++ t.wakes }
  | .park id =>
      (w.reqs id).bind fun r =>
        match r.phase with
        | .claim todo =>
            if r.mayPark ∧ r.claimed = [] ∧ todo = r.need ∧ todo ≠ [] ∧ r.outstanding = 1 then
              some (w.setReq id (r.again r.attempt))
            else none
        | _ => none
  | .reply id j data =>
      (w.reqs id).bind fun r => (r.reply j data).map fun r' => w.setReq id r'
  | .convert id j E thrown direct has =>
      (w.reqs id).bind fun r =>
        (r.conversions[j]?).map fun cv =>
          convertOne cx w id { r with conversions := r.conversions.eraseIdx j } cv E thrown direct
            has
  | .wake =>
      match w.wakes with
      | [] => none
      | k :: rest => (w.reqs k.request).map fun r => wakeOne { w with wakes := rest } k r
  | .apply es =>
      let (cf, woken) := w.fill.apply cx.L.slots.length es
      some { w with fill := cf, wakes := w.wakes ++ woken }
  | .collect =>
      match w.committing with
      | some _ => none
      | none =>
          let (cf, recs) := w.fill.collect
          some { w with fill := cf, committing := some recs }
  | .commitEnd o =>
      match w.committing with
      | none => none
      | some recs =>
          match o with
          | .stale =>
              some { w with
                fill := { w.fill with storeGone := true }.releaseCollected recs
                committing := none }
          | .failed => some { w with fill := w.fill.releaseCollected recs, committing := none }
          | .landed committed =>
              let (cf, forgotten) := w.fill.noteCommitted committed recs
              some { w with
                fill := cf
                committing := none
                toApply := w.toApply ++ forgotten }
  | .applyForgotten =>
      let (cf, woken) := w.fill.apply cx.L.slots.length w.toApply
      some { w with fill := cf, wakes := w.wakes ++ woken, toApply := [] }
  | .others p t h =>
      some { w with
        fill := { w.fill with pendingTotal := p, transientTotal := t, handles := h } }

end ColdWorld

end UCache
