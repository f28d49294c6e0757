/-
Module: UCache.Transpose.RNTupleLayout
Purpose: The address space a column-store file is shown in while its replica is made: envelopes and
  the anchor re-sealed over new locators, and a page prepared for its slot.
Trusted boundary: none
Main exports: RNTupleAnchor, PageInfo, ColumnRange
-/
import UCache.Transpose.FillLayout

namespace UCache

open Lib

/-! ### What a parse yields -/

/-- [SRC RNTupleMeta.h:53-61] -/
structure RNTupleAnchor where
  versionEpoch : Nat := 0
  versionMajor : Nat := 0
  versionMinor : Nat := 0
  versionPatch : Nat := 0
  seekHeader : Nat := 0
  nbytesHeader : Nat := 0
  lenHeader : Nat := 0
  seekFooter : Nat := 0
  nbytesFooter : Nat := 0
  lenFooter : Nat := 0
  maxKeySize : Nat := 0
  payloadOffset : Nat := 0
  payloadLength : Nat := 0
deriving DecidableEq, Repr

/-- [SRC RNTupleMeta.h:64-69] -/
structure ColumnInfo where
  type : Nat := 0
  bitsOnStorage : Nat := 0
  fieldId : Nat := 0
  fieldName : Bytes := []
deriving DecidableEq, Repr

/-- [SRC RNTupleMeta.h:73-82] -/
structure PageInfo where
  offset : Nat := 0
  nbytes : Nat := 0
  nElements : Nat := 0
  hasChecksum : Bool := false
  uncompressedBytes : Nat := 0
  recordOffset : Nat := 0
deriving DecidableEq, Repr

/-- A block of `nbytes` with its checksum, when it carries one. -/
def storedLen (nbytes : Nat) (hasChecksum : Bool) : Nat := nbytes + if hasChecksum then 8 else 0

/-- The page as it lies in the file. -/
def PageInfo.onDisk (pg : PageInfo) : Nat := storedLen pg.nbytes pg.hasChecksum

/-- [SRC RNTupleMeta.h:86-92] -/
structure ColumnRange where
  clusterId : Nat := 0
  columnId : Nat := 0
  compressionSettings : Int := 0
  compressionOffset : Nat := 0
  pages : List PageInfo := []
deriving DecidableEq, Repr

/-- [SRC RNTupleMeta.h:94-119] What a parse that succeeds yields. -/
structure RNTupleMeta where
  fileSize : Nat := 0
  fend : Int := 0
  headerSeekWidth : Nat := 8
  ntupleName : Bytes := []
  writer : Bytes := []
  anchor : RNTupleAnchor := {}
  columns : List ColumnInfo := []
  ranges : List ColumnRange := []
  nEntries : Nat := 0
  nClusters : Nat := 0
  header : Bytes := []
  footer : Bytes := []
  pageList : Bytes := []
  pageListLocatorOffset : Nat := 0
  pageListOffset : Nat := 0
  pageListNbytes : Nat := 0
deriving DecidableEq, Repr

/-! ### Envelopes, locators and the anchor

The 64-bit hash of the format is a parameter. -/

/-- [SRC RNTupleRewrite.cc:19-21] Overwrite `n` bytes at `off`, least significant first. -/
def putLE (p : Bytes) (off n v : Nat) : Bytes := patch p off (le n v)

/-- [SRC RNTupleMeta.cc:165-169] Recompute the checksum an envelope ends with. -/
def sealEnvelope (hash : Bytes → UInt64) (p : Bytes) : Bytes :=
  if p.length < 16 then p else putLE p (p.length - 8) 8 (hash (p.take (p.length - 8))).toNat

def kRBlobKeyVersion : Nat := 1004

/-- The length of the key every relocated payload is wrapped in. -/
def kRBlobKeyLen : Nat := 4 + 2 + 4 + 4 + 2 + 2 + 8 + 8 + (1 + 5) + 1 + 1

/-- [SRC RNTupleRewrite.cc:37-52] -/
def rBlobKey (seek payloadBytes objlen : Nat) : Bytes :=
  be 4 (kRBlobKeyLen + payloadBytes) ++ be 2 kRBlobKeyVersion ++ be 4 objlen ++ be 4 0 ++
    be 2 kRBlobKeyLen ++ be 2 1 ++ be 8 seek ++ be 8 100 ++ [5] ++ ascii "RBlob" ++ [0] ++ [0]

theorem length_rBlobKey (seek payloadBytes objlen : Nat) :
    (rBlobKey seek payloadBytes objlen).length = kRBlobKeyLen := by
  simp [rBlobKey, kRBlobKeyLen, show (ascii "RBlob").length = 5 from rfl]

/-- [SRC RNTupleRewrite.cc:54-63] Append a payload in a fresh key: the extension, and where the
payload starts. -/
def appendBlob (ext : Bytes) (extBase : Nat) (payload : Bytes) (objlen : Nat) : Bytes × Nat :=
  (ext ++ rBlobKey (extBase + ext.length) payload.length objlen ++ payload,
    extBase + ext.length + kRBlobKeyLen)

/-- [SRC RNTupleRewrite.cc:67-77] -/
def rnTupleCodecName (compressionSettings : Int) : String :=
  match compressionSettings.tdiv 100 with
  | 0 => "none"
  | 1 => "zlib"
  | 2 => "lzma"
  | 4 => "lz4"
  | 5 => "zstd"
  | _ => ""

/-- [SRC RNTupleRewrite.cc:81-87] An envelope as stored. -/
def storeEnvelope (E : Encoder) (env : Bytes) (level : Nat) : Bytes := shrink E env level

/-- [SRC RNTupleRewrite.cc:89-98] Point the footer's cluster-group link at a page list. -/
def patchFooterLink (m : RNTupleMeta) (ftr : Bytes) (plLen plStored plAt : Nat) : Option Bytes :=
  if m.pageListLocatorOffset < 8 ∨ ftr.length < m.pageListLocatorOffset + 12 then none
  else
    some (putLE (putLE (putLE ftr (m.pageListLocatorOffset - 8) 8 plLen)
      m.pageListLocatorOffset 4 plStored) (m.pageListLocatorOffset + 4) 8 plAt)

/-- The checksummed window of the anchor, with its footer link. -/
def anchorWindow (a : RNTupleAnchor) (ftrAt ftrStored ftrLen : Nat) : Bytes :=
  be 2 a.versionEpoch ++ be 2 a.versionMajor ++ be 2 a.versionMinor ++ be 2 a.versionPatch ++
    be 8 a.seekHeader ++ be 8 a.nbytesHeader ++ be 8 a.lenHeader ++ be 8 ftrAt ++
    be 8 ftrStored ++ be 8 ftrLen ++ be 8 a.maxKeySize

/-- [SRC RNTupleRewrite.cc:108-131] The anchor from its footer link through its checksum. -/
def anchorPatch (hash : Bytes → UInt64) (m : RNTupleMeta) (ftrAt ftrStored ftrLen : Nat) :
    Window where
  off := m.anchor.payloadOffset + 38
  bytes := be 8 ftrAt ++ be 8 ftrStored ++ be 8 ftrLen ++ be 8 m.anchor.maxKeySize ++
    be 8 (hash (anchorWindow m.anchor ftrAt ftrStored ftrLen)).toNat

/-! ### The layout -/

def kSlotChecksumBytes : Nat := 8

/-- [SRC RNTupleRewrite.cc:431-433] A page that can be given a slot; its end is a 64-bit sum. -/
def PageInfo.convertible (fileSize : Nat) (pg : PageInfo) : Bool :=
  decide (0 < pg.uncompressedBytes) && decide (pg.uncompressedBytes ≤ 0x7FFFFFFF) &&
    decide ((pg.offset + pg.onDisk) % 2 ^ 64 ≤ fileSize) && decide (100 ≤ pg.offset)

/-- [SRC RNTupleRewrite.cc:425-435] -/
def relocatedRanges (m : RNTupleMeta) (fileSize : Nat) (codecs : List String) : List Nat :=
  (List.range m.ranges.length).filter fun ri =>
    let r := m.ranges.getD ri {}
    !r.pages.isEmpty && codecs.contains (rnTupleCodecName r.compressionSettings) &&
      r.pages.all (PageInfo.convertible fileSize)

/-- Where the walk over the moved pages stands; `seen` maps a page's offset to its slot. -/
structure PagePlacing where
  pos : Nat
  pl : Bytes
  slots : List FillSlot := []
  seen : List (Nat × Nat) := []

/-- The slot of a page: the one its offset has already, or the next one. -/
def slotForPage (st : PagePlacing) (ri pi : Nat) (pg : PageInfo) : PagePlacing × Nat :=
  match st.seen.lookup pg.offset with
  | some v => (st, v)
  | none =>
      let s : FillSlot :=
        { origSeek := pg.offset
          origLen := pg.onDisk % 2 ^ 32
          vSeek := st.pos
          vLen := pg.uncompressedBytes + kSlotChecksumBytes
          branch := ri
          basket := pi }
      ({ st with
          pos := st.pos + s.vLen
          slots := st.slots ++ [s]
          seen := (pg.offset, st.pos) :: st.seen },
        st.pos)

/-- [SRC RNTupleRewrite.cc:452-473] One page: its slot, and its record in the page list. -/
def placePage (ri : Nat) (st : PagePlacing) (pi : Nat × PageInfo) : PagePlacing :=
  let pg := pi.2
  let (st', v) := slotForPage st ri pi.1 pg
  { st' with
    -- A negative element count says that the page carries a checksum.
    pl := putLE (putLE (putLE st'.pl pg.recordOffset 4 (2 ^ 32 - pg.nElements))
      (pg.recordOffset + 4) 4 pg.uncompressedBytes) (pg.recordOffset + 8) 8 v }

/-- [SRC RNTupleRewrite.cc:449-476] The pages of a range, then its compression setting. -/
def placeRange (m : RNTupleMeta) (st : PagePlacing) (ri : Nat) : PagePlacing :=
  let r := m.ranges.getD ri {}
  let st' := ((List.range r.pages.length).zip r.pages).foldl (placePage ri) st
  { st' with pl := putLE st'.pl r.compressionOffset 4 0 }

/-- The two windows, sorted by offset. -/
def orderWindows (hw ap : Window) : Window × Window := if ap.off < hw.off then (ap, hw) else (hw, ap)

/-- [SRC RNTupleRewrite.cc:408-503] -/
def layoutForRNTupleFill (E : Encoder) (hash : Bytes → UInt64) (m : RNTupleMeta) (fileSize : Nat)
    (header : Bytes) (codecs : List String) : Except String FillLayout :=
  if m.pageList = [] ∨ m.footer = [] then .error "no page list"
  else if (fileSize : Int) ≠ m.fend % 2 ^ 64 ∨ fileSize ≠ m.fileSize then
    .error "file size differs from fEND"
  else if m.anchor.payloadOffset = 0 then .error "compressed anchor cannot be patched in place"
  else if m.anchor.payloadLength < 78 then .error "anchor payload too short to patch"
  else if fileSize < m.anchor.payloadOffset + 78 then .error "anchor outside the file"
  else
    let relocated := relocatedRanges m fileSize codecs
    if relocated = [] then .error "no convertible column range"
    else
      let metaSeek := (fileSize + 4095) / 4096 * 4096
      let reserve := 2 * kRBlobKeyLen + m.pageList.length + m.footer.length
      let slotsBegin := metaSeek + reserve
      let placed := relocated.foldl (placeRange m) { pos := slotsBegin, pl := m.pageList }
      let pl := sealEnvelope hash placed.pl
      let plStored := storeEnvelope E pl 1
      let (blobs₁, plAt) := appendBlob [] metaSeek plStored pl.length
      match patchFooterLink m m.footer pl.length plStored.length plAt with
      | none => .error "footer page-list locator out of bounds"
      | some ftr₀ =>
          let ftr := sealEnvelope hash ftr₀
          let ftrStored := storeEnvelope E ftr 1
          let (blobs, ftrAt) := appendBlob blobs₁ metaSeek ftrStored ftr.length
          if reserve < blobs.length then .error "metadata outgrew its reservation"
          else
            match headerWindowForEnd header placed.pos with
            | .error e => .error e
            | .ok hw =>
                let ap := anchorPatch hash m ftrAt ftrStored.length ftr.length
                let ws := orderWindows hw ap
                if ws.2.off < ws.1.stop then .error "anchor overlaps the file header"
                else
                  .ok
                    { originSize := fileSize
                      virtualSize := placed.pos
                      windows := [ws.1, ws.2]
                      metaSeek := metaSeek
                      metaRecord := blobs
                      slotsBegin := slotsBegin
                      slots := placed.slots
                      relocated := relocated }

/-! ### Pages -/

/-- [SRC RNTupleRewrite.cc:506-509] The checksum a slot serves after a decoded page. -/
def sealDecodedPage (hash : Bytes → UInt64) (page : Bytes) : Bytes :=
  le kSlotChecksumBytes (hash page).toNat

/-- A block as the page it holds: a block of the page's own length is the page. -/
def decodePage (D : Decoders) (block : Bytes) (pageLen : Nat) : Bytes :=
  if block.length = pageLen then block else decompressFrames D block pageLen

/-- [SRC RNTupleRewrite.h:124-127] -/
structure ConvertedPage where
  raw : Bytes
  enc : Bytes
deriving DecidableEq, Repr

/-- [SRC RNTupleRewrite.cc:511-537] -/
def convertPage (D : Decoders) (E : Encoder) (hash : Bytes → UInt64) (onDisk : Bytes) (nbytes : Nat)
    (hasChecksum : Bool) (uncompressed : Nat) : Except String ConvertedPage :=
  if onDisk.length ≠ storedLen nbytes hasChecksum ∨ uncompressed = 0 then
    .error "page geometry"
  else
    let block := onDisk.take nbytes
    if hasChecksum ∧ (hash block).toNat ≠ ofLe (slice onDisk nbytes 8) then
      .error "page checksum mismatch"
    else
      let raw := decodePage D block uncompressed
      if raw.length ≠ uncompressed then .error "page decompression failed"
      else
        .ok { raw := raw, enc := shrink E raw 1 }

/-- What a page prepared for its slot keeps of the original block. -/
structure SamePage (D : Decoders) (block : Bytes) (pageLen : Nat) (enc : Bytes) : Prop where
  length : (decodePage D block pageLen).length = pageLen
  decode : decodePage D enc pageLen = decodePage D block pageLen

/-- [SRC RNTupleRewrite.h:122-128] -/
theorem convertPage_same {D : Decoders} {E : Encoder} {hash : Bytes → UInt64} {onDisk : Bytes}
    {nbytes : Nat} {hasChecksum : Bool} {uncompressed : Nat} {p : ConvertedPage}
    (h : convertPage D E hash onDisk nbytes hasChecksum uncompressed = .ok p)
    (hundo : Undoes D E 1 (decodePage D (onDisk.take nbytes) uncompressed)) :
    SamePage D (onDisk.take nbytes) uncompressed p.enc ∧
      p.raw = decodePage D (onDisk.take nbytes) uncompressed := by
  unfold convertPage at h
  split at h
  · cases h
  simp only at h
  split at h
  · cases h
  split at h
  · cases h
  rename_i hlen
  cases h
  have hlen' : (decodePage D (onDisk.take nbytes) uncompressed).length = uncompressed := by
    simpa using hlen
  refine ⟨⟨hlen', ?_⟩, rfl⟩
  show decodePage D (shrink E (decodePage D (onDisk.take nbytes) uncompressed) 1) uncompressed = _
  obtain hraw | ⟨henc, hne, hlt⟩ :=
    shrink_cases E (decodePage D (onDisk.take nbytes) uncompressed) 1
  · rw [hraw, decodePage, if_pos hlen']
  · have hback := hundo hne
    rw [hlen'] at hback hlt
    rw [henc, decodePage, if_neg (by omega), hback]

/-! ### The layout is well formed -/

theorem slotForPage_ok {start : Nat} {st : PagePlacing} (ri pi : Nat) {pg : PageInfo}
    (h : SlotsFrom start st.slots st.pos) (heach : ∀ s ∈ st.slots, 8 < s.vLen)
    (hpg : 0 < pg.uncompressedBytes) :
    SlotsFrom start (slotForPage st ri pi pg).1.slots (slotForPage st ri pi pg).1.pos ∧
      ∀ s ∈ (slotForPage st ri pi pg).1.slots, 8 < s.vLen := by
  unfold slotForPage
  split
  · exact ⟨h, heach⟩
  · refine ⟨h.snoc rfl, ?_⟩
    intro s hs
    simp only [List.mem_append, List.mem_singleton] at hs
    obtain hs | rfl := hs
    · exact heach s hs
    · simp only [kSlotChecksumBytes]
      omega

/-- The slots placed so far, each with room for a page and its checksum. -/
structure PagesOk (start : Nat) (st : PagePlacing) : Prop where
  slots : SlotsFrom start st.slots st.pos
  each : ∀ s ∈ st.slots, 8 < s.vLen

theorem placePage_ok {start ri : Nat} {st : PagePlacing} {pi : Nat × PageInfo}
    (h : PagesOk start st) (hpg : 0 < pi.2.uncompressedBytes) :
    PagesOk start (placePage ri st pi) := by
  obtain ⟨hslots, heach⟩ := slotForPage_ok ri pi.1 h.slots h.each hpg
  exact ⟨hslots, heach⟩

theorem placePages_ok {start ri : Nat} {pages : List (Nat × PageInfo)}
    (hpg : ∀ pi ∈ pages, 0 < pi.2.uncompressedBytes) {st : PagePlacing} (h : PagesOk start st) :
    PagesOk start (pages.foldl (placePage ri) st) := by
  induction pages generalizing st with
  | nil => exact h
  | cons pi rest ih =>
      exact ih (fun x hx => hpg x (by simp [hx])) (placePage_ok h (hpg pi (by simp)))

theorem placeRanges_ok {start : Nat} {m : RNTupleMeta} {ris : List Nat}
    (hpg : ∀ ri ∈ ris, ∀ pg ∈ (m.ranges.getD ri {}).pages, 0 < pg.uncompressedBytes)
    {st : PagePlacing} (h : PagesOk start st) : PagesOk start (ris.foldl (placeRange m) st) := by
  induction ris generalizing st with
  | nil => exact h
  | cons ri rest ih =>
      apply ih (fun x hx => hpg x (by simp [hx]))
      have hpages := @placePages_ok start ri
        ((List.range (m.ranges.getD ri {}).pages.length).zip (m.ranges.getD ri {}).pages) (by
          intro pi hpi
          exact hpg ri (by simp) pi.2 (List.of_mem_zip hpi).2) st h
      exact ⟨hpages.slots, hpages.each⟩

theorem relocatedRanges_pos {m : RNTupleMeta} {fileSize : Nat} {codecs : List String} :
    ∀ ri ∈ relocatedRanges m fileSize codecs, ∀ pg ∈ (m.ranges.getD ri {}).pages,
      0 < pg.uncompressedBytes := by
  intro ri hri pg hpg
  simp only [relocatedRanges, List.mem_filter, Bool.and_eq_true] at hri
  have hall := List.all_eq_true.1 hri.2.2 pg hpg
  simp only [PageInfo.convertible, Bool.and_eq_true, decide_eq_true_eq] at hall
  exact hall.1.1.1

/-- A computed layout is well formed, and every slot has room for a page and its checksum. -/
theorem layoutForRNTupleFill_ok {E : Encoder} {hash : Bytes → UInt64} {m : RNTupleMeta}
    {fileSize : Nat} {header : Bytes} {codecs : List String} {L : FillLayout}
    (h : layoutForRNTupleFill E hash m fileSize header codecs = .ok L) :
    LayoutOk L ∧ ∀ s ∈ L.slots, 8 < s.vLen := by
  unfold layoutForRNTupleFill at h
  split at h
  · cases h
  split at h
  · cases h
  split at h
  · cases h
  split at h
  · cases h
  split at h
  · cases h
  rename_i hanchor
  simp only at h
  split at h
  · cases h
  split at h
  · cases h
  rename_i ftr hftr
  split at h
  · cases h
  rename_i hres
  split at h
  · cases h
  rename_i hw hhw
  split at h
  · cases h
  rename_i hover
  cases h
  have hplaced := @placeRanges_ok ((fileSize + 4095) / 4096 * 4096 +
    (2 * kRBlobKeyLen + m.pageList.length + m.footer.length)) m
      (relocatedRanges m fileSize codecs) relocatedRanges_pos
        { pos := _, pl := m.pageList } ⟨rfl, by simp⟩
  have hstop := headerWindow_stop hhw
  refine ⟨?_, hplaced.each⟩
  constructor
  · simp only [List.pairwise_cons, List.mem_singleton, forall_eq, List.not_mem_nil,
      false_implies, implies_true, List.Pairwise.nil, and_true]
    omega
  · intro w hmem
    simp only [List.mem_cons, List.not_mem_nil, or_false] at hmem
    have hboth : ∀ hw ap : Window, w = (orderWindows hw ap).1 ∨ w = (orderWindows hw ap).2 →
        w = hw ∨ w = ap := by
      intro hw ap
      unfold orderWindows
      split <;> simp [or_comm]
    show w.stop ≤ fileSize
    obtain rfl | rfl := hboth _ _ hmem
    · omega
    · simp only [Window.stop, anchorPatch, List.length_append, length_be]
      omega
  · show fileSize ≤ (fileSize + 4095) / 4096 * 4096
    omega
  · simp only [FillLayout.metaEnd]
    omega
  · exact hplaced.slots
  · intro s hs
    have := hplaced.each s hs
    omega

end UCache
