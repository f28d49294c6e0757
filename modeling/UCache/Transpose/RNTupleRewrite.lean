/-
Module: UCache.Transpose.RNTupleRewrite
Purpose: Recompressing the pages of a column-store file by patch and append: the pages of the ranges
  that move, the page list and the footer go to an extension, and what nothing points at any more is
  listed as superseded.
Trusted boundary: none
Main exports: Eligible, PageBlock, RNTupleRewrite
-/
import UCache.Core.ReplicaFile
import UCache.Transpose.RNTupleParse
import Mathlib.Data.List.Sort

namespace UCache

open Lib

/-! ### The rewrite -/

/-- [SRC RNTupleRewrite.cc:133-138] How a range is decided. -/
inductive Eligible where
  | relocate
  | declined (codec : String)
  | uncached
deriving DecidableEq, Repr

/-- [SRC RNTupleRewrite.cc:136-140] A page's new block without its checksum, and what is counted
for it. -/
structure PageBlock where
  enc : Bytes
  storedRaw : Bool := false
  decoded : Nat := 0
deriving DecidableEq, Repr

/-- Why a block is not to be had; `transient` when the source could not vouch for it. -/
structure BlockFault where
  why : String
  transient : Bool
  said : why ≠ "" := by decide

/-- [SRC RNTupleRewrite.h:38-69] The time spent decoding is left out. -/
structure RNTupleRewrite where
  extBase : Nat := 0
  extension : Bytes := []
  patches : List Window := []
  superseded : List OriginRange := []
  origMap : List OrigRange := []
  pages : Nat := 0
  storedRaw : Nat := 0
  sharedPages : Nat := 0
  rangesRelocated : Nat := 0
  rangesUncached : Nat := 0
  rangesDeclined : Nat := 0
  declinedCodec : String := ""
  oldPageBytes : Nat := 0
  newPageBytes : Nat := 0
  decodeBytes : Nat := 0
  error : String := ""
  transient : Bool := false
deriving DecidableEq, Repr

def RNTupleRewrite.fail (out : RNTupleRewrite) (why : String) (transient : Bool) : RNTupleRewrite :=
  { out with error := why, transient := transient, extension := [], patches := [] }

/-- Where the walk over the ranges stands.  `seen` maps a page that was moved to its new place and
size, `live` are the offsets that ranges left in place point at. -/
structure Rewriting where
  out : RNTupleRewrite
  pl : Bytes
  seen : List ((Nat × Nat) × (Nat × Nat)) := []
  live : List Nat := []
  candidates : List OriginRange := []

/-- Repoint a page's locator: its size, then its offset. -/
def repoint (pl : Bytes) (pg : PageInfo) (size off : Nat) : Bytes :=
  putLE (putLE pl (pg.recordOffset + 4) 4 size) (pg.recordOffset + 8) 8 off

section Build

variable (E : Encoder) (hash : Bytes → UInt64) (m : RNTupleMeta) (fileSize level : Nat)
  (eligible : Nat → ColumnRange → Eligible)
  (block : Nat → Nat → PageInfo → Except BlockFault PageBlock)

/-- [SRC RNTupleRewrite.cc:189-236] One page of a range that moves.  A page already moved is pointed
at again. -/
def rewritePage (ri : Nat) (st : Rewriting) (p : Nat × PageInfo) :
    Except RNTupleRewrite Rewriting :=
  let pg := p.2
  match st.seen.lookup (pg.offset, pg.nbytes) with
  | some (to_, size) =>
      .ok { st with
        pl := repoint st.pl pg size to_
        out := { st.out with pages := st.out.pages + 1, sharedPages := st.out.sharedPages + 1 } }
  | none =>
      match block ri p.1 pg with
      | .error e => .error (st.out.fail e.why e.transient)
      | .ok b =>
          -- the checksum covers the block and is past the locator's size
          let stored := if pg.hasChecksum then b.enc ++ le 8 (hash b.enc).toNat else b.enc
          let (ext, to_) :=
            appendBlob st.out.extension st.out.extBase stored pg.uncompressedBytes
          .ok
            { out :=
                { st.out with
                  extension := ext
                  origMap := st.out.origMap ++ [⟨to_, stored.length, pg.offset, pg.onDisk⟩]
                  pages := st.out.pages + 1
                  storedRaw := st.out.storedRaw + if b.storedRaw then 1 else 0
                  oldPageBytes := st.out.oldPageBytes + pg.onDisk
                  newPageBytes := st.out.newPageBytes + stored.length
                  decodeBytes := st.out.decodeBytes + b.decoded }
              pl := repoint st.pl pg b.enc.length to_
              seen := ((pg.offset, pg.nbytes), (to_, b.enc.length % 2 ^ 32)) :: st.seen
              live := st.live
              candidates := st.candidates ++ [⟨pg.offset, pg.onDisk⟩] }

/-- A range left in place keeps its pages alive. -/
def keepRange (st : Rewriting) (r : ColumnRange) (out : RNTupleRewrite) : Rewriting :=
  { st with out := out, live := st.live ++ r.pages.map PageInfo.offset }

/-- [SRC RNTupleRewrite.cc:169-239] One range. -/
def rewriteRange (st : Rewriting) (r : Nat × ColumnRange) : Except RNTupleRewrite Rewriting :=
  match eligible r.1 r.2 with
  | .declined codec =>
      .ok (keepRange st r.2
        { st.out with
          rangesDeclined := st.out.rangesDeclined + 1
          declinedCodec := if st.out.declinedCodec = "" then codec else st.out.declinedCodec })
  | .uncached => .ok (keepRange st r.2 { st.out with rangesUncached := st.out.rangesUncached + 1 })
  | .relocate => do
      let moving :=
        { st with out := { st.out with rangesRelocated := st.out.rangesRelocated + 1 } }
      let st' ← (((List.range r.2.pages.length).zip r.2.pages).foldlM
        (rewritePage hash block r.1) moving)
      .ok { st' with pl := putLE st'.pl r.2.compressionOffset 4 (500 + level) }

/-- The ranges with their numbers. -/
def RNTupleMeta.numbered (m : RNTupleMeta) : List (Nat × ColumnRange) :=
  (List.range m.ranges.length).zip m.ranges

/-- [SRC RNTupleRewrite.cc:248-287] The page list and the footer behind the moved pages, and the
anchor and the file's end patched where they lie. -/
def finishRewrite (st : Rewriting) : RNTupleRewrite :=
  let pl := sealEnvelope hash st.pl
  let plStored := storeEnvelope E pl level
  let (ext₁, plAt) := appendBlob st.out.extension st.out.extBase plStored pl.length
  let out₁ : RNTupleRewrite :=
    { st.out with
      superseded := st.candidates.filter fun r => !st.live.contains r.off
      extension := ext₁
      origMap := st.out.origMap ++ if m.pageListNbytes = 0 then [] else
        [⟨plAt, plStored.length, m.pageListOffset, m.pageListNbytes⟩] }
  match patchFooterLink m m.footer pl.length plStored.length plAt with
  | none => out₁.fail "footer page-list locator out of bounds" false
  | some ftr₀ =>
      let ftr := sealEnvelope hash ftr₀
      let ftrStored := storeEnvelope E ftr level
      let (ext, ftrAt) := appendBlob ext₁ st.out.extBase ftrStored ftr.length
      let out₂ : RNTupleRewrite :=
        { out₁ with
          extension := ext
          origMap := out₁.origMap ++ if m.anchor.nbytesFooter = 0 then [] else
            [⟨ftrAt, ftrStored.length, m.anchor.seekFooter, m.anchor.nbytesFooter⟩] }
      if m.anchor.payloadOffset = 0 then
        out₂.fail "compressed anchor cannot be patched in place" false
      else if m.anchor.payloadLength < 78 then out₂.fail "anchor payload too short to patch" false
      else
        let newEnd := st.out.extBase + ext.length
        -- a narrow header cannot be widened in place
        if m.headerSeekWidth = 4 ∧ 0x7FFFFFFF < newEnd then
          out₂.fail "rewrite would push fEND past 2 GB under a 32-bit header" false
        else
          { out₂ with
            patches := [anchorPatch hash m ftrAt ftrStored.length ftr.length,
              { off := 12, bytes := be m.headerSeekWidth newEnd }] }

/-- [SRC RNTupleRewrite.cc:142-288] -/
def buildImpl : RNTupleRewrite :=
  let start : RNTupleRewrite := { extBase := fileSize }
  if m.pageList = [] ∨ m.footer = [] then start.fail "no page list to rewrite" false
  else
    match m.numbered.foldlM (rewriteRange hash level eligible block)
        { out := start, pl := m.pageList } with
    | .error out => out
    | .ok st =>
        if st.out.rangesRelocated = 0 then
          st.out.fail "no eligible column ranges"
            (decide (0 < st.out.rangesUncached) && decide (st.out.rangesDeclined = 0))
        else finishRewrite E hash m level st

end Build

/-! ### From a source -/

/-- [SRC RNTupleRewrite.cc:295-307] By codec, then by whether every page can be had. -/
def sourceEligible (src : ByteSource) (codecs : List String) (_ : Nat) (r : ColumnRange) :
    Eligible :=
  if codecs ≠ [] ∧ rnTupleCodecName r.compressionSettings ∉ codecs then
    .declined (rnTupleCodecName r.compressionSettings)
  else if r.pages.all fun pg => src.has pg.offset pg.onDisk then .relocate
  else .uncached

/-- [SRC RNTupleRewrite.cc:308-375] The page's bytes, checked, decoded and encoded again. -/
def sourceBlock (D : Decoders) (E : Encoder) (hash : Bytes → UInt64) (src : ByteSource) (level : Nat)
    (_ _ : Nat) (pg : PageInfo) : Except BlockFault PageBlock :=
  if !src.has pg.offset pg.onDisk then
    .error { why := "page bytes not available", transient := true }
  else
    match if pg.nbytes = 0 then some [] else src.read pg.offset pg.nbytes with
    | none => .error { why := "page read failed", transient := true }
    | some raw =>
        match if pg.hasChecksum then (src.read (pg.offset + pg.nbytes) 8).map ofLe
            else some (hash raw).toNat with
        | none => .error { why := "page checksum read failed", transient := true }
        | some stored =>
            let want := pg.uncompressedBytes
            if (hash raw).toNat ≠ stored then
              .error
                { why := "page checksum mismatch — source bytes are damaged (run `ucache verify`)"
                  transient := false }
            else if want = 0 then
              .error
                { why := "page of unknown width (column not in schema)", transient := false }
            else
              let buf := decodePage D raw want
              if buf.length ≠ want then
                .error { why := "page decompression failed", transient := false }
              else
                let enc := encodeZstdFrames E buf level
                if enc = [] then .error { why := "zstd encode failed", transient := false }
                else if buf.length ≤ enc.length then
                  .ok { enc := buf, storedRaw := true, decoded := want }
                else .ok { enc := enc, decoded := want }

/-- [SRC RNTupleRewrite.cc:292-377] -/
def buildRNTupleRewrite (D : Decoders) (E : Encoder) (hash : Bytes → UInt64) (m : RNTupleMeta)
    (src : ByteSource) (fileSize level : Nat) (codecs : List String) : RNTupleRewrite :=
  buildImpl E hash m fileSize level (sourceEligible src codecs) (sourceBlock D E hash src level)

/-! ### The overlay -/

/-- [SRC Transposer.h:34-53] What a build fills in. -/
structure Overlay where
  tdata : Bytes := []
  sidecar : ReplicaMeta := {}
  baskets : Nat := 0
  transcoded : Nat := 0
  fallbackRaw : Nat := 0
  oldBytes : Nat := 0
  newBytes : Nat := 0
  decodeBytes : Nat := 0
  error : String := ""
  transient : Bool := false
deriving DecidableEq, Repr

/-- The head of the file, which readers ask for as one block. -/
def kHeadReserve : Nat := 128 * 1024

def OriginRange.stop (r : OriginRange) : Nat := add64 r.off r.len

/-- [SRC RNTupleRewrite.cc:605-612] What of a range is behind the head. -/
def reserveHead (r : OriginRange) : OriginRange :=
  if r.off < kHeadReserve then
    { off := kHeadReserve, len := if kHeadReserve < r.stop then r.stop - kHeadReserve else 0 }
  else r

/-- [SRC RNTupleRewrite.cc:620-628] Ranges that touch become one. -/
def mergeRange (merged : List OriginRange) (r : OriginRange) : List OriginRange :=
  match merged.getLast? with
  | some b =>
      if r.off ≤ b.stop then merged.dropLast ++ [{ b with len := sub64 (max b.stop r.stop) b.off }]
      else merged ++ [r]
  | none => [r]

/-- [SRC RNTupleRewrite.cc:584-589] The pages that moved, the page list and the footer.  The header
envelope is still pointed at. -/
def supersedes (m : RNTupleMeta) (out : RNTupleRewrite) : List OriginRange :=
  out.superseded ++
    (if m.pageListNbytes = 0 then [] else [⟨m.pageListOffset, m.pageListNbytes⟩]) ++
    if m.anchor.nbytesFooter = 0 then [] else [⟨m.anchor.seekFooter, m.anchor.nbytesFooter⟩]

/-- [SRC RNTupleRewrite.cc:605-629] What of it is behind the head, merged. -/
def supersededRanges (m : RNTupleMeta) (out : RNTupleRewrite) : List OriginRange :=
  let behind := ((supersedes m out).map reserveHead).filter fun r => r.len != 0
  (behind.insertionSort fun a b => a.off ≤ b.off).foldl mergeRange []

/-- The pieces of the overlay one after the other, from `pos` on. -/
def placeExtents : Nat → List Window → List Extent
  | _, [] => []
  | pos, w :: ws => ⟨w.off, w.bytes.length, pos⟩ :: placeExtents (pos + w.bytes.length) ws

/-- [SRC RNTupleRewrite.cc:539-641] -/
def rnTupleOverlay (m : RNTupleMeta) (out : RNTupleRewrite) : Overlay :=
  if out.error ≠ "" then { error := out.error, transient := out.transient }
  else
    let pieces := out.patches.insertionSort fun a b => a.off ≤ b.off
    if (pieces.zip pieces.tail).any fun p => decide (p.2.off < p.1.stop) then
      { error := "overlapping patch windows" }
    else
      let ext : Window := { off := out.extBase, bytes := out.extension }
      { tdata := (pieces ++ [ext]).flatMap Window.bytes
        sidecar :=
          { extents := placeExtents 0 (pieces ++ [ext])
            -- a patch window is its own original range
            origMap := (out.origMap ++ pieces.map fun w =>
              (⟨w.off, w.bytes.length, w.off, w.bytes.length⟩ : OrigRange)).insertionSort
                fun a b => a.virtOff ≤ b.virtOff
            superseded := supersededRanges m out
            virtualSize := out.extBase + out.extension.length
            originSize := m.fileSize
            encoding := 1 }
        baskets := out.pages
        transcoded := out.pages - out.storedRaw
        fallbackRaw := out.storedRaw
        oldBytes := out.oldPageBytes
        newBytes := out.newPageBytes
        decodeBytes := out.decodeBytes }

end UCache
