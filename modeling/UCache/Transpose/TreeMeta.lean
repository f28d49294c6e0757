/-
Module: UCache.Transpose.TreeMeta
Purpose: The walk over a tree's streamed record: the cursor, the readers of streamed objects, and the
  parse of the tree with its branches and leaves.  A read outside of the record is an outcome of
  its own.
Trusted boundary: none
Main exports: Cur, Cur.need, Cur.getU
-/
import UCache.Lib.Checked
import UCache.Transpose.FillLayout

namespace UCache

open Lib

/-! ### The cursor -/

/-- [SRC TreeMeta.cc:41-53] Where the walk stands in the record, whether it has failed and why, and
the classes and leaves it has come by. -/
structure Cur where
  pos : Nat := 0
  fail : Bool := false
  why : String := ""
  classRefs : List (Nat × Bytes) := []
  leafRegistry : List (Nat × Bytes) := []
deriving DecidableEq, Repr

def kByteCountMask : Nat := 2 ^ 30

def kNewClassTag : Nat := 2 ^ 32 - 1

def kClassMask : Nat := 2 ^ 31

namespace Cur

def position : Checked Cur Nat := fun s => some (s.pos, s)

def failed : Checked Cur Bool := fun s => some (s.fail, s)

def reason : Checked Cur String := fun s => some (s.why, s)

def jump (pos : Nat) : Checked Cur Unit := fun s => some ((), { s with pos := pos })

def failWith (why : String) : Checked Cur Unit := fun s =>
  some ((), { s with fail := true, why := why })

variable (blob : Bytes)

/-- An integer of `n` bytes at `off`. -/
def beAt (off n : Nat) : Checked Cur Nat := fun s =>
  if blob.length < off + n then none else some (beGet blob off n, s)

/-- An integer of `n` bytes that starts `back` bytes before the cursor. -/
def beBefore (back n : Nat) : Checked Cur Nat := fun s =>
  if s.pos < back then none else beAt blob (s.pos - back) n s

/-- Signed integers of `n` bytes each, one behind the other. -/
def intsAt (n : Nat) : Nat → Nat → Checked Cur (List Int)
  | _, 0 => pure []
  | off, k + 1 => do
      let v ← beAt blob off n
      let vs ← intsAt n (off + n) k
      pure (signed n v :: vs)

/-- Bytes of the record, copied. -/
def copy (off len : Nat) : Checked Cur Bytes := fun s =>
  if blob.length < off + len then none else some (slice blob off len, s)

/-- [SRC TreeMeta.cc:55-64] -/
def need (k : Nat) : Checked Cur Bool := fun s =>
  if s.fail = true ∨ blob.length < add64 s.pos k then
    some (false, if s.fail = true then s
      else { s with fail := true, why := "truncated at " ++ toString s.pos })
  else some (true, s)

/-- [SRC TreeMeta.cc:65-71] An integer of `n` bytes; zero when they are not there. -/
def getU (n : Nat) : Checked Cur Nat := do
  let ok ← need blob n
  if ok = true then do
    let here ← position
    let v ← beAt blob here n
    jump (here + n)
    pure v
  else pure 0

def getI (n : Nat) : Checked Cur Int := do
  let v ← getU blob n
  pure (signed n v)

/-- [SRC TreeMeta.cc:72] -/
def skip (k : Nat) : Checked Cur Unit := do
  let ok ← need blob k
  if ok = true then do
    let here ← position
    jump (here + k)
  else pure ()

/-- A length of one byte, or of four behind the byte 255. -/
def textLength : Checked Cur Nat := do
  let short ← getU blob 1
  if short = 255 then getU blob 4 else pure short

/-- [SRC TreeMeta.cc:73-82] -/
def tstring : Checked Cur Bytes := do
  let len ← textLength blob
  let ok ← need blob len
  if ok = true then do
    let here ← position
    let s ← copy blob here len
    jump (here + len)
    pure s
  else pure []

/-- [SRC TreeMeta.cc:84-94] The version of an object, and where it ends. -/
def objHeader (what : String) : Checked Cur (Nat × Nat) := do
  let bc ← getU blob 4
  if bc / kByteCountMask % 2 = 0 then do
    failWith (what ++ ": missing byte count")
    pure (0, 0)
  else do
    let here ← position
    let ver ← getU blob 2
    pure (ver, here + (bc - kByteCountMask))

/-- [SRC TreeMeta.cc:95-100] The end may lie before the cursor: the distance to it wraps. -/
def skipObj (what : String) : Checked Cur Unit := do
  let (_, stop) ← objHeader blob what
  let bad ← failed
  if bad = true then pure ()
  else do
    let here ← position
    let ok ← need blob (sub64 stop here)
    if ok = true then jump stop else pure ()

/-- [SRC TreeMeta.cc:101-107] -/
def tobject : Checked Cur Unit := do
  let _ ← getU blob 2
  let _ ← getU blob 4
  let bits ← getU blob 4
  if bits / 2 ^ 4 % 2 = 1 then do
    let _ ← getU blob 2
    pure ()
  else pure ()

/-- [SRC TreeMeta.cc:138-142] The characters up to the next zero byte.  A turn moves on, so as many
turns as the record has bytes are enough. -/
def className : Nat → Checked Cur Bytes
  | 0 => pure []
  | fuel + 1 => do
      let bad ← failed
      let here ← position
      if bad = true ∨ blob.length ≤ here then pure []
      else do
        let c ← beAt blob here 1
        if c = 0 then pure []
        else do
          jump (here + 1)
          let rest ← className fuel
          pure (UInt8.ofNat c :: rest)

end Cur

/-! ### Streamed objects -/

/-- [SRC TreeMeta.cc:110-118] -/
structure AnyObj where
  null : Bool := false
  ref : Nat := 0
  cls : Bytes := []
  stop : Nat := 0
  tagPos : Nat := 0
deriving DecidableEq, Repr

section Streamed

variable (blob : Bytes) (keylen : Nat)

open Cur

/-- A class that was come by at `pos` is referred to by its place in the key's record. -/
def addClass (pos : Nat) (cls : Bytes) : Checked Cur Unit := fun s =>
  some ((), { s with classRefs := s.classRefs ++ [(pos % 2 ^ 32, cls)] })

def addLeaf (pos : Nat) (name : Bytes) : Checked Cur Unit := fun s =>
  some ((), { s with leafRegistry := s.leafRegistry ++ [(pos % 2 ^ 32, name)] })

/-- [SRC TreeMeta.cc:148-156] -/
def classAt (off : Nat) : Checked Cur Bytes := fun s =>
  let cls := match s.classRefs.find? fun r => decide ((r.1 : Int) - 4 + keylen + 2 = off) with
    | some r => r.2
    | none => []
  some (if cls = [] then ascii "?ref" else cls, s)

/-- [SRC TreeMeta.cc:311-318] -/
def leafAt (ref : Nat) : Checked Cur (Option Bytes) := fun s =>
  some ((s.leafRegistry.find? fun r => decide (r.1 + keylen + 2 = ref)).map Prod.snd, s)

/-- [SRC TreeMeta.cc:120-162] -/
def readAny : Checked Cur AnyObj := do
  let tagPos ← position
  let first ← getU blob 4
  if first = 0 then pure { null := true, tagPos := tagPos }
  else if first / kByteCountMask % 2 = 0 then pure { ref := first, tagPos := tagPos }
  else do
    let here ← position
    let stop := here + (first - kByteCountMask)
    let tag ← getU blob 4
    if tag = kNewClassTag then do
      let namePos ← position
      let cls ← className blob (blob.length - namePos)
      skip blob 1
      addClass namePos cls
      pure { cls := cls, stop := stop, tagPos := tagPos }
    else if tag / kClassMask % 2 = 1 then do
      let cls ← classAt keylen (tag - kClassMask)
      pure { cls := cls, stop := stop, tagPos := tagPos }
    else do
      failWith ("object tag without class at " ++ toString tagPos)
      pure { stop := stop, tagPos := tagPos }

/-- What the walk of an array does at an object: whether to go on, and the value that is built. -/
abbrev Element (β : Type) : Type := β → AnyObj → Checked Cur (Bool × β)

/-- [SRC TreeMeta.cc:269-277] -/
def objLoop {β : Type} (element : Element β) : Nat → β → Checked Cur (Bool × β)
  | 0, acc => pure (true, acc)
  | n + 1, acc => do
      let bad ← failed
      if bad = true then pure (true, acc)
      else do
        let o ← readAny blob keylen
        if o.null = true ∨ o.ref ≠ 0 then objLoop element n acc
        else do
          let (ok, acc) ← element acc o
          if ok = false then pure (false, acc)
          else do
            let bad ← failed
            if bad = true then objLoop element n acc
            else do
              jump o.stop
              objLoop element n acc

/-- [SRC TreeMeta.cc:251-280] -/
def objArray {β : Type} (what : String) (element : Element β) (acc : β) :
    Checked Cur (Bool × β) := do
  let (ver, stop) ← objHeader blob what
  let bad ← failed
  if bad = true then pure (false, acc)
  else if ver ≠ 3 then do
    failWith (what ++ ": TObjArray v" ++ toString ver ++ " unsupported")
    pure (false, acc)
  else do
    tobject blob
    let _ ← tstring blob
    let size ← getI blob 4
    let _ ← getI blob 4
    let (ok, acc) ← objLoop blob keylen element size.toNat acc
    if ok = false then pure (false, acc)
    else do
      jump stop
      let bad ← failed
      pure (!bad, acc)

/-- [SRC TreeMeta.cc:282-324] -/
def parseLeaf : Element BranchInfo := fun b o => do
  let b := { b with leafClass := o.cls }
  let _ ← objHeader blob "TLeafX"
  let (bver, _) ← objHeader blob "TLeaf"
  let bad ← failed
  if bad = true then pure (false, b)
  else if bver ≠ 2 then do
    failWith ("TLeaf v" ++ toString bver ++ " unsupported")
    pure (false, b)
  else do
    let _ ← objHeader blob "TNamed"
    tobject blob
    let name ← tstring blob
    let title ← tstring blob
    let b := { b with leafTitle := title }
    addLeaf o.tagPos name
    skip blob (4 * 3 + 2)
    let cnt ← readAny blob keylen
    if cnt.ref ≠ 0 then do
      let counter ← leafAt keylen cnt.ref
      let bad ← failed
      pure (!bad, { b with leafCount := counter.getD b.leafCount })
    else do
      let bad ← failed
      if cnt.null = true ∨ bad = true then pure (!bad, b)
      else do
        jump cnt.stop
        pure (true, b)

/-! ### Branches -/

/-- [SRC TreeMeta.cc:417-423] The text at `fn` is not empty, where the branch has one. -/
def hasFileName (fn stop : Nat) : Checked Cur Bool :=
  if fn < stop ∧ fn < blob.length then do
    let c ← beAt blob fn 1
    pure (decide (c ≠ 0))
  else pure false

/-- [SRC TreeMeta.cc:391-423] The basket arrays of a branch, each `fMaxBaskets` long; nothing when one
of them does not fit. -/
def basketArrays (b : BranchInfo) (stop : Nat) : Checked Cur (Option BranchInfo) := do
  let nb := b.writeBasket.toNat
  skip blob 1
  let bytesArrayOff ← position
  let ok ← need blob (4 * b.maxBaskets)
  if ok = false then pure none
  else do
    let basketBytes ← intsAt blob 4 bytesArrayOff nb
    skip blob (4 * b.maxBaskets)
    skip blob 1
    let here ← position
    let ok ← need blob (8 * b.maxBaskets)
    if ok = false then pure none
    else do
      let ne := min (nb + 1) b.maxBaskets
      let stored ← intsAt blob 8 here ne
      let filled := stored ++ List.replicate (nb + 1 - ne) b.entries
      let basketEntry :=
        if nb ≠ 0 ∧ filled.getD nb 0 < filled.getD (nb - 1) 0 then filled.set nb b.entries
        else filled
      skip blob (8 * b.maxBaskets)
      skip blob 1
      let seekArrayOff ← position
      let ok ← need blob (8 * b.maxBaskets)
      if ok = false then pure none
      else do
        let basketSeek ← intsAt blob 8 seekArrayOff nb
        let externalFile ← hasFileName blob (seekArrayOff + 8 * b.maxBaskets) stop
        pure (some
          { b with
            bytesArrayOff := bytesArrayOff
            basketBytes := basketBytes
            basketEntry := basketEntry
            seekArrayOff := seekArrayOff
            basketSeek := basketSeek
            externalFile := externalFile })

/-- [SRC TreeMeta.cc:347-362] The fields of a branch up to its three arrays of objects; nothing when
they do not fit. -/
def branchFields (name : Bytes) : Checked Cur (Option BranchInfo) := do
  skipObj blob "TAttFill"
  skip blob (4 * 4 + 8)
  let bad ← failed
  if bad = true then pure none
  else do
    let compress ← beBefore blob 24 4
    let writeBasket ← beBefore blob 12 4
    skipObj blob "TIOFeatures"
    skip blob 4
    let maxBaskets ← getU blob 4
    skip blob 4
    let entries ← getI blob 8
    skip blob (8 * 3)
    let bad ← failed
    if bad = true then pure none
    else do
      let here ← position
      let zipBytes ← beBefore blob 8 8
      pure (some
        { name := name
          compress := signed 4 compress
          writeBasket := signed 4 writeBasket
          maxBaskets := maxBaskets
          entries := entries
          zipBytesOff := here - 8
          zipBytes := signed 8 zipBytes })

/-- [SRC TreeMeta.cc:363-368] -/
def subBranch : Element Unit := fun _ _ => do
  failWith "sub-branches unsupported (flat trees only)"
  pure (false, ())

/-- [SRC TreeMeta.cc:376-390] The counts that size and index the basket arrays. -/
def basketCounts (b : BranchInfo) : Checked Cur Bool := do
  let bad ← failed
  if 2 ^ 24 < b.maxBaskets ∨ bad = true then do
    let why ← reason
    failWith (if why = "" then "implausible fMaxBaskets" else why)
    pure false
  else if b.writeBasket < 0 ∨ (b.maxBaskets : Int) < b.writeBasket then do
    failWith "implausible fWriteBasket"
    pure false
  else pure true

/-- [SRC TreeMeta.cc:327-427] -/
def parseBranch (fm : FileMeta) : Checked Cur (Bool × FileMeta) := do
  let (ver, stop) ← objHeader blob "TBranch"
  let bad ← failed
  if bad = true then pure (false, fm)
  else if ver ≠ 13 then do
    failWith ("TBranch v" ++ toString ver ++ " unsupported")
    pure (false, fm)
  else do
    let _ ← objHeader blob "TNamed"
    tobject blob
    let name ← tstring blob
    let _ ← tstring blob
    match ← branchFields blob name with
    | none => pure (false, fm)
    | some b => do
        let (ok, _) ← objArray blob keylen "fBranches(sub)" subBranch ()
        if ok = false then pure (false, fm)
        else do
          let (ok, b) ← objArray blob keylen "fLeaves" (parseLeaf blob keylen) b
          if ok = false then pure (false, fm)
          else do
            skipObj blob "fBaskets"
            let ok ← basketCounts b
            if ok = false then pure (false, fm)
            else
              match ← basketArrays blob b stop with
              | none => pure (false, fm)
              | some b => do
                  jump stop
                  pure (true, { fm with branches := fm.branches ++ [b] })

/-! ### The tree -/

/-- [SRC TreeMeta.cc:690-698] -/
def clusterArray (nClusterRange : Nat) : Checked Cur (List Int) := do
  skip blob 1
  let here ← position
  let ok ← need blob (8 * nClusterRange)
  if ok = false then pure []
  else do
    let out ← intsAt blob 8 here nClusterRange
    skip blob (8 * nClusterRange)
    pure out

/-- [SRC TreeMeta.cc:704-708] -/
def treeBranch : Element FileMeta := fun fm o =>
  if o.cls = ascii "TBranch" then parseBranch blob keylen fm
  else do
    failWith ("branch class " ++ String.ofList (o.cls.map fun c => Char.ofNat c.toNat) ++ " unsupported")
    pure (false, fm)

/-- [SRC TreeMeta.cc:678-681] -/
def treeZip (fm : FileMeta) : Checked Cur FileMeta := do
  let here ← position
  let ok ← need blob 16
  if ok = true then do
    let zipBytes ← beAt blob (here + 8) 8
    pure { fm with zipBytesOff := here + 8, zipBytes := signed 8 zipBytes }
  else pure fm

/-- [SRC TreeMeta.cc:677-687] The fields of the tree up to its cluster ranges, and how many of these
there are. -/
def treeFields (fm : FileMeta) : Checked Cur (FileMeta × Nat) := do
  let entries ← getI blob 8
  let fm ← treeZip blob { fm with entries := entries }
  skip blob (4 * 8 + 8 + 4 * 4)
  let nClusterRange ← getU blob 4
  skip blob (4 * 8)
  let autoFlushOff ← position
  let autoFlush ← getI blob 8
  skip blob 8
  pure ({ fm with autoFlushOff := autoFlushOff, autoFlush := autoFlush }, nClusterRange)

/-- [SRC TreeMeta.cc:670-712] -/
def walkTree (fm : FileMeta) : Checked Cur (Except String FileMeta) := do
  let (tver, _) ← objHeader blob "TTree"
  let bad ← failed
  if bad = true then do
    let why ← reason
    pure (.error why)
  else if tver ≠ 20 then pure (.error ("TTree v" ++ toString tver ++ " unsupported"))
  else do
    skipObj blob "TNamed"
    skipObj blob "TAttLine"
    skipObj blob "TAttFill"
    skipObj blob "TAttMarker"
    let (fm, nClusterRange) ← treeFields blob fm
    if 2 ^ 20 < nClusterRange then pure (.error "implausible fNClusterRange")
    else do
      let clusterRangeEnd ← clusterArray blob nClusterRange
      let clusterSize ← clusterArray blob nClusterRange
      let fm := { fm with clusterRangeEnd := clusterRangeEnd, clusterSize := clusterSize }
      let bad ← failed
      if bad = true then do
        let why ← reason
        pure (.error why)
      else do
        skipObj blob "TIOFeatures"
        let (ok, fm) ← objArray blob keylen "fBranches" (treeBranch blob keylen) fm
        let why ← reason
        if ok = false then pure (.error (if why = "" then "branch walk failed" else why))
        else do
          let bad ← failed
          if bad = true then pure (.error why) else pure (.ok fm)

/-- [SRC TreeMeta.cc:653-713] The tree of a record whose key header has `keylen` bytes, in a description
of the file; or why the walk failed.  No result when it reads outside of the record. -/
def parseTreeBlob (fm : FileMeta) : Option (Except String FileMeta) :=
  ((walkTree blob keylen
    { fm with branches := [], clusterRangeEnd := [], clusterSize := [] }) {}).map Prod.fst

end Streamed

end UCache
