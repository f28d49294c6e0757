/-
Module: UCache.Transpose.TreeOverlay
Purpose: Building the overlay of a tree file: the baskets of the hot branches compressed again in an
  extension, the tree record behind them, and the keys list and the file's end patched in place.
  Every access to a buffer is checked, and one outside of it is an outcome of its own.
Trusted boundary: none
Main exports: BasketSource, BuildFault, patchSeek
-/
import UCache.Transpose.RNTupleRewrite

namespace UCache

open Lib

/-! ### Sources and faults -/

/-- [SRC TreeMeta.h:24-32] Where the builder takes the baskets from: whether a range is usable, and
its bytes. -/
structure BasketSource where
  has : Nat → Nat → Bool
  read : Nat → Nat → Option Bytes
  read_length : ∀ off n b, read off n = some b → b.length = n

/-- How a build ends without an overlay.  `outside` is an access outside of a buffer, or a buffer of
a negative length. -/
inductive BuildFault where
  | outside
  | failed (why : String) (transient : Bool)
deriving DecidableEq, Repr

/-- A verdict on the file. -/
def refuse {α : Type} (why : String) : Except BuildFault α := .error (.failed why false)

/-- The source could not vouch for bytes that are needed. -/
def unavailable {α : Type} (why : String) : Except BuildFault α := .error (.failed why true)

/-- A signed 64-bit integer as an unsigned one. -/
def u64 (v : Int) : Nat := (v % 2 ^ 64).toNat

/-- The bytes of a name, in a message. -/
def text (b : Bytes) : String := String.ofList (b.map fun c => Char.ofNat c.toNat)

/-- The greatest length a buffer can have. -/
def kMaxBuffer : Nat := 2 ^ 63 - 1

/-- Writing an integer into a buffer. -/
def putIn (p : Bytes) (off n : Nat) (v : Int) : Except BuildFault Bytes :=
  if p.length < off + n then .error .outside else .ok (bePut p off n v)

/-- [SRC Transposer.cc:61-69] -/
def patchSeek (p : Bytes) (off ver : Nat) (seek : Int) : Except BuildFault Bytes :=
  if keyWide ver then putIn p (off + 18) 8 seek
  else if seek < 2 ^ 31 then putIn p (off + 18) 4 seek
  else refuse "32-bit key cannot point past 2 GiB"

/-! ### Baskets -/

/-- How a basket's payload was brought into the extension. -/
inductive Recoded where
  | verbatim
  | transcoded
  | fallbackRaw
deriving DecidableEq, Repr

/-- [SRC Transposer.cc:365-393] The record as the extension holds it, but for its seek, with how it
was made and how many bytes were decoded for it. -/
def recode (D : Decoders) (E : Encoder) (name : Bytes) (record : Bytes) (k : KeyInfo) :
    Except BuildFault (Bytes × Recoded × Nat) :=
  if k.storedRaw then .ok (record, .verbatim, 0)
  -- the length of the payload would be negative
  else if record.length < k.keylen then .error .outside
  else
    let raw := decompressFrames D (record.drop k.keylen) (u64 k.objlen)
    if raw = [] then refuse (text name ++ ": basket decompression failed")
    else
      let pay := encodeZstdFrames E raw 1
      if pay = [] then unavailable (text name ++ ": zstd encode failed")
      else
        let (use, how) := if raw.length ≤ pay.length then (raw, Recoded.fallbackRaw)
          else (pay, Recoded.transcoded)
        let rec₀ := record.take k.keylen ++ use
        do
          let rec₁ ← putIn rec₀ 0 4 rec₀.length
          .ok (rec₁, how, raw.length)

/-- Where the walk over the baskets stands. -/
structure Building where
  blob : Bytes
  ext : Bytes := []
  origMap : List OrigRange := []
  superseded : List OriginRange := []
  baskets : Nat := 0
  transcoded : Nat := 0
  verbatim : Nat := 0
  fallbackRaw : Nat := 0
  oldBytes : Nat := 0
  newBytes : Nat := 0
  decodeBytes : Nat := 0
deriving DecidableEq, Repr

section Build

variable (D : Decoders) (E : Encoder) (fm : FileMeta) (src : BasketSource)

/-- [SRC Transposer.cc:352-364] The record of basket `i` of a branch, with its key. -/
def readBasket (name : Bytes) (br : BranchInfo) (i : Nat) : Except BuildFault (Bytes × KeyInfo) :=
  if br.basketSeek.length ≤ i ∨ br.basketBytes.length ≤ i then .error .outside
  else
    let off := u64 (br.basketSeek.getD i 0)
    let nb := u64 (br.basketBytes.getD i 0)
    if !src.has off nb then unavailable (text name ++ ": basket " ++ toString i ++ " not available")
    else if kMaxBuffer < nb then .error .outside
    else
      match src.read off nb with
      | none => unavailable (text name ++ ": basket " ++ toString i ++ " no longer readable")
      | some record =>
          match parseKey record 0 with
          | none => refuse (text name ++ ": unexpected basket key")
          | some k =>
              if k.cls ≠ ascii "TBasket" ∨ k.name ≠ name then
                refuse (text name ++ ": unexpected basket key")
              else .ok (record, k)

/-- [SRC Transposer.cc:394-408] A record put behind the extension, and the tree record pointing at
it. -/
def placeRecord (br : BranchInfo) (i : Nat) (k : KeyInfo) (st : Building)
    (made : Bytes × Recoded × Nat) : Except BuildFault Building := do
  let newSeek := fm.fend + st.ext.length
  let record ← patchSeek made.1 0 k.ver newSeek
  let blob₁ ← putIn st.blob (br.seekArrayOff + 8 * i) 8 newSeek
  let blob₂ ← putIn blob₁ (br.bytesArrayOff + 4 * i) 4 record.length
  let off := u64 (br.basketSeek.getD i 0)
  let nb := u64 (br.basketBytes.getD i 0)
  .ok
    { blob := blob₂
      ext := st.ext ++ record
      origMap := st.origMap ++ [⟨u64 newSeek, record.length, off, nb⟩]
      superseded := st.superseded ++ [⟨off, nb⟩]
      baskets := st.baskets + 1
      transcoded := st.transcoded + if made.2.1 = .transcoded then 1 else 0
      verbatim := st.verbatim + if made.2.1 = .verbatim then 1 else 0
      fallbackRaw := st.fallbackRaw + if made.2.1 = .fallbackRaw then 1 else 0
      oldBytes := st.oldBytes + nb
      newBytes := st.newBytes + record.length
      decodeBytes := st.decodeBytes + made.2.2 }

/-- [SRC Transposer.cc:352-409] One basket. -/
def buildBasket (name : Bytes) (br : BranchInfo) (st : Building) (i : Nat) :
    Except BuildFault Building := do
  let (record, k) ← readBasket src name br i
  let made ← recode D E name record k
  placeRecord fm br i k st made

/-- [SRC Transposer.cc:344-410] One hot branch: the first one of the name. -/
def buildBranch (st : Building) (name : Bytes) : Except BuildFault Building :=
  match fm.branches.find? fun br => decide (br.name = name) with
  | none => refuse ("hot branch not in tree: " ++ text name)
  | some br => (List.range br.writeBasket.toNat).foldlM (buildBasket D E fm src name br) st

/-! ### The end of every build -/

/-- [SRC Transposer.cc:119-134] The loop over the entries of the keys list. -/
def repointEntries (metaLen : Nat) (newSeek : Int) :
    Nat → Bytes → Nat → Bool → Except BuildFault (Bytes × Bool)
  | 0, klist, _, patched => .ok (klist, patched)
  | n + 1, klist, pos, patched =>
      match parseKey klist pos with
      | none => refuse "keys-list entry parse failed"
      | some e =>
          if e.cls = ascii "TTree" ∧ e.name = fm.treeKey.name ∧
              e.seekkey = fm.treeKey.seekkey then do
            let k₁ ← putIn klist pos 4 metaLen
            let k₂ ← patchSeek k₁ pos e.ver newSeek
            repointEntries metaLen newSeek n k₂ (pos + e.keylen) true
          else repointEntries metaLen newSeek n klist (pos + e.keylen) patched

/-- [SRC Transposer.cc:107-138] The keys list with the live tree entry at the new place. -/
def repointKeysList (klist : Bytes) (metaLen : Nat) (newSeek : Int) : Except BuildFault Bytes :=
  match parseKey klist 0 with
  | none => refuse "keys-list key geometry implausible"
  | some kl =>
      if kl.nbytes ≤ 0 ∨ kl.nbytes ≠ klist.length ∨ klist.length < kl.keylen + 4 then
        refuse "keys-list key geometry implausible"
      else do
        let (klist', patched) ← repointEntries fm metaLen newSeek (beGetInt klist kl.keylen 4).toNat
          klist (kl.keylen + 4) false
        if patched then .ok klist' else refuse "live tree entry not found in keys list"

/-- [SRC Transposer.h:34-53] The overlay, with what is counted for a tree alone. -/
structure TreeOverlay extends Overlay where
  verbatim : Nat := 0
  metaRawBytes : Nat := 0
  metaStoredBytes : Nat := 0
deriving DecidableEq, Repr

/-- [SRC Transposer.cc:88-92] The tree record as stored in the extension. -/
def storedTree (blob : Bytes) : Bytes := shrink E blob 9

/-- [SRC Transposer.cc:94-97] The tree key's header for the record in the extension. -/
def relocatedKey (mkey : Bytes) (stored : Nat) (newSeek : Int) : Except BuildFault Bytes := do
  let k₁ ← putIn mkey 0 4 ((fm.treeKey.keylen + stored : Nat) : Int)
  patchSeek k₁ 0 fm.treeKey.ver newSeek

/-- Ranges in order, those that touch merged. -/
def mergeRanges (rs : List OriginRange) : List OriginRange :=
  (rs.insertionSort fun a b => a.off ≤ b.off).foldl mergeRange []

/-- The pieces that every build adds: the tree record in the extension, and the windows patched in
place, which are their own original ranges. -/
def lastPieces (newSeek : Int) (metaLen keysLen : Nat) : List OrigRange :=
  [⟨u64 newSeek, metaLen, u64 fm.treeKey.seekkey, u64 fm.treeKey.nbytes⟩,
    ⟨12, fm.headerSeekWidth, 12, fm.headerSeekWidth⟩,
    ⟨u64 fm.keyslistSeek, keysLen, u64 fm.keyslistSeek, keysLen⟩]

/-- [SRC Transposer.cc:75-203] The tree record, the keys list, the file's end, and what describes
the result. -/
def finishOverlay (zstdVersion : Nat) (st : Building) (mkey klist : Bytes) :
    Except BuildFault TreeOverlay :=
  let payload := storedTree E st.blob
  let newSeek := fm.fend + st.ext.length
  do
    let mkey' ← relocatedKey fm mkey payload.length newSeek
    let ext := st.ext ++ mkey' ++ payload
    let klist' ← repointKeysList fm klist (fm.treeKey.keylen + payload.length) newSeek
    if fm.keyslistSeek < 100 ∨ u64 fm.fend < u64 fm.keyslistSeek + klist'.length then
      refuse "keys-list record does not lie inside the original file"
    else
      let hw := fm.headerSeekWidth
      let newFend := fm.fend + ext.length
      if hw = 4 ∧ 2 ^ 31 ≤ newFend then refuse "small-layout file would grow past 2 GiB"
      else
        .ok
          { tdata := beInt hw newFend ++ klist' ++ ext
            sidecar :=
              { extents := [⟨12, hw, 0⟩, ⟨u64 fm.keyslistSeek, klist'.length, hw⟩,
                  ⟨u64 fm.fend, ext.length, hw + klist'.length⟩]
                origMap := (st.origMap ++
                  lastPieces fm newSeek (mkey'.length + payload.length) klist'.length).insertionSort
                    fun a b => a.virtOff ≤ b.virtOff
                superseded := mergeRanges (st.superseded ++
                  [⟨u64 fm.treeKey.seekkey, u64 fm.treeKey.nbytes⟩])
                virtualSize := u64 newFend
                originSize := u64 fm.fend
                encoding := 1
                encoderVersion := zstdVersion }
            baskets := st.baskets
            transcoded := st.transcoded
            fallbackRaw := st.fallbackRaw
            oldBytes := st.oldBytes
            newBytes := st.newBytes
            decodeBytes := st.decodeBytes
            verbatim := st.verbatim
            metaRawBytes := st.blob.length
            metaStoredBytes := payload.length }

/-! ### The whole build -/

/-- [SRC Transposer.cc:414-417] The tree key's header, from the source. -/
def readTreeKey : Except BuildFault Bytes :=
  if !src.has (u64 fm.treeKey.seekkey) (u64 fm.treeKey.nbytes) then
    unavailable "tree key header not available"
  else
    match src.read (u64 fm.treeKey.seekkey) fm.treeKey.keylen with
    | none => unavailable "tree key header not available"
    | some mkey => .ok mkey

/-- [SRC Transposer.cc:420-440] The keys list, from the source: its first bytes say its length. -/
def readKeysRecord : Except BuildFault Bytes :=
  let probe := if fm.keyslistSeek < fm.fend then min 512 (fm.fend - fm.keyslistSeek).toNat else 0
  if probe = 0 then refuse "keys-list lies at or past the end of the file"
  else
    match src.read (u64 fm.keyslistSeek) probe with
    | none => unavailable "keys-list header not readable"
    | some head =>
        match parseKey head 0 with
        | none => refuse "keys-list key parse failed"
        | some kl =>
            if kl.nbytes ≤ 0 ∨ kl.nbytes < kl.keylen + 4 then
              refuse "keys-list key geometry implausible"
            else if !src.has (u64 fm.keyslistSeek) kl.nbytes.toNat then
              unavailable "keys-list not available"
            else
              match src.read (u64 fm.keyslistSeek) kl.nbytes.toNat with
              | none => unavailable "keys-list not available"
              | some klist => .ok klist

/-- [SRC Transposer.cc:317-444] -/
def buildOverlay (zstdVersion : Nat) (hot : List Bytes) : Except BuildFault TreeOverlay := do
  let st ← hot.foldlM (buildBranch D E fm src) { blob := fm.treeBlob }
  let mkey ← readTreeKey fm src
  let klist ← readKeysRecord fm src
  finishOverlay E fm zstdVersion st mkey klist

end Build

end UCache
