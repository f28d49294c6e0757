/-
Module: UCache.Transpose.RNTupleReaddress
Purpose: The layout of a column-store file is a re-addressing of it: the file that is shown parses
  to the same columns and clusters, with the relocated pages at their slots.
Trusted boundary: none
Main exports: ImageOf, FillLayout.image, RNTupleFillOf
-/
import UCache.Transpose.FileHeader
import UCache.Transpose.FrameTrip
import UCache.Transpose.RNTupleShown
import UCache.Transpose.Superseded

namespace UCache

open Lib

/-! ### What a layout went through -/

/-- Where the page list's envelope starts in the shown file. -/
def FillLayout.pageListAt (L : FillLayout) : Nat := L.metaSeek + kRBlobKeyLen

/-- Where the footer's envelope starts, behind a page list stored like this. -/
def FillLayout.footerAt (L : FillLayout) (plStored : Bytes) : Nat :=
  L.pageListAt + plStored.length + kRBlobKeyLen

/-- The page list with its records written for the slots. -/
def writtenPageList (m : RNTupleMeta) (fileSize : Nat) (codecs : List String)
    (slots : List FillSlot) : Bytes :=
  patches m.pageList
    ((m.ranges.filter (ColumnRange.movable fileSize codecs)).flatMap (rangeWrites slots))

/-- The patch of the anchor that a layout makes for a footer. -/
def footerPatch (E : Encoder) (hash : Bytes → UInt64) (m : RNTupleMeta) (L : FillLayout)
    (plStored ftr : Bytes) : Window :=
  anchorPatch hash m (L.footerAt plStored) (storeEnvelope E ftr 1).length ftr.length

/-- A computed layout: the written page list `pl`, the footer `ftr` before it is sealed, and the
window of the file's header. -/
structure RNTupleFillOf (E : Encoder) (hash : Bytes → UInt64) (m : RNTupleMeta) (fileSize : Nat)
    (header : Bytes) (codecs : List String) (L : FillLayout) (pl ftr : Bytes) (hw : Window) :
    Prop where
  originSize : L.originSize = fileSize
  relocated : L.relocated = relocatedRanges m fileSize codecs
  payload : m.anchor.payloadOffset ≠ 0
  anchorIn : m.anchor.payloadOffset + 78 ≤ fileSize
  placed : ∃ st : PagePlacing, st.slots = L.slots ∧ PagesPlaced
    ((m.ranges.filter (ColumnRange.movable fileSize codecs)).flatMap ColumnRange.pages) st
  pageList : pl = sealEnvelope hash (writtenPageList m fileSize codecs L.slots)
  footer : patchFooterLink m m.footer pl.length (storeEnvelope E pl 1).length L.pageListAt = some ftr
  metaRecord : L.metaRecord =
    rBlobKey L.metaSeek (storeEnvelope E pl 1).length pl.length ++ storeEnvelope E pl 1 ++
      rBlobKey (L.pageListAt + (storeEnvelope E pl 1).length)
        (storeEnvelope E (sealEnvelope hash ftr) 1).length (sealEnvelope hash ftr).length ++
      storeEnvelope E (sealEnvelope hash ftr) 1
  header : headerWindowForEnd header L.virtualSize = .ok hw
  windows : ∀ w, w ∈ L.windows ↔
    w = hw ∨ w = footerPatch E hash m L (storeEnvelope E pl 1) (sealEnvelope hash ftr)

theorem mem_orderWindows {hw ap w : Window} :
    w ∈ [(orderWindows hw ap).1, (orderWindows hw ap).2] ↔ w = hw ∨ w = ap := by
  unfold orderWindows
  split <;> simp [or_comm]

theorem layoutForRNTupleFill_inv {E : Encoder} {hash : Bytes → UInt64} {m : RNTupleMeta}
    {fileSize : Nat} {header : Bytes} {codecs : List String} {L : FillLayout}
    (h : layoutForRNTupleFill E hash m fileSize header codecs = .ok L) :
    ∃ pl ftr hw, RNTupleFillOf E hash m fileSize header codecs L pl ftr hw := by
  unfold layoutForRNTupleFill at h
  split at h
  · cases h
  split at h
  · cases h
  split at h
  · cases h
  rename_i hpayload
  split at h
  · cases h
  split at h
  · cases h
  rename_i hanchor
  simp only at h
  split at h
  · cases h
  split at h
  · cases h
  rename_i ftr hftr
  split at h
  · cases h
  split at h
  · cases h
  rename_i hw hhw
  split at h
  · cases h
  cases h
  have hwalk := placeRanges_placed m (relocatedRanges m fileSize codecs)
    ((fileSize + 4095) / 4096 * 4096 + (2 * kRBlobKeyLen + m.pageList.length + m.footer.length))
    m.pageList
  rw [relocatedRanges_map] at hwalk
  have hpl := hwalk.pl
  simp only at hpl
  refine ⟨_, ftr, hw,
    { originSize := rfl
      relocated := rfl
      payload := hpayload
      anchorIn := by omega
      placed := ⟨_, rfl, hwalk.placed⟩
      pageList := by rw [writtenPageList, ← hpl]
      footer := ?_
      metaRecord := ?_
      header := hhw
      windows := fun w => ?_ }⟩
  · simpa [appendBlob, FillLayout.pageListAt] using hftr
  · simp [appendBlob, FillLayout.pageListAt, length_rBlobKey, Nat.add_assoc]
  · rw [mem_orderWindows]
    simp [footerPatch, appendBlob, FillLayout.footerAt, FillLayout.pageListAt, length_rBlobKey,
      Nat.add_assoc]

/-! ### The shown file -/

variable {origin : Bytes}

/-- The shown file: the origin with the windows in place, and the metadata behind it.  What the slots
hold is left open. -/
structure ImageOf (L : FillLayout) (origin image : Bytes) : Prop where
  length : image.length = L.virtualSize
  origin : ∀ i, i < origin.length → (∀ w ∈ L.windows, i < w.off ∨ w.stop ≤ i) →
    image[i]? = origin[i]?
  window : ∀ w ∈ L.windows, slice image w.off w.bytes.length = w.bytes
  record : slice image L.metaSeek L.metaRecord.length = L.metaRecord

/-- The shown file with zeros for what the slots hold. -/
def FillLayout.image (L : FillLayout) (origin : Bytes) : Bytes :=
  patches origin (L.windows.map fun w => (w.off, w.bytes)) ++
    List.replicate (L.metaSeek - origin.length) 0 ++ L.metaRecord ++
      List.replicate (L.virtualSize - L.metaEnd) 0

/-- Of a well-formed layout the image is the origin, its windows and its metadata. -/
theorem LayoutOk.imageOf {L : FillLayout} (h : LayoutOk L) (hsize : L.originSize = origin.length) :
    ImageOf L origin (L.image origin) := by
  have hin : EndIn origin.length (L.windows.map fun w => (w.off, w.bytes)) := by
    intro v hv
    obtain ⟨w, hw, rfl⟩ := List.mem_map.1 hv
    rw [← hsize]
    exact h.inside w hw
  have hapart : StretchesApart (L.windows.map fun w => (w.off, w.bytes)) :=
    List.pairwise_map.2 (h.windows.imp Or.inl)
  have hlen := length_patches hin
  have hmeta := h.metaSeek
  have hend := h.metaEnd
  have hslots := h.slots.le
  have hstop : L.metaEnd = L.metaSeek + L.metaRecord.length := rfl
  refine ⟨?_, fun i hi hout => ?_, fun w hw => ?_, ?_⟩
  · simp only [FillLayout.image, List.length_append, List.length_replicate, hlen]
    omega
  · have hfree : ¬ Lib.Touched (L.windows.map fun w => (w.off, w.bytes)) i := by
      rintro ⟨v, hv, hlo, hhi⟩
      obtain ⟨w, hw, rfl⟩ := List.mem_map.1 hv
      have hclear := hout w hw
      simp only [Window.stop] at hclear hhi
      omega
    rw [FillLayout.image, List.append_assoc, List.append_assoc,
      List.getElem?_append_left (by omega), getElem?_patches_apart hin hfree]
  · have hoff : w.off + w.bytes.length ≤ origin.length := hin _ (List.mem_map_of_mem hw)
    rw [FillLayout.image, List.append_assoc, List.append_assoc, slice_append_left _ (by omega)]
    exact slice_patches hin hapart (List.mem_map_of_mem hw)
  · have hfront : (patches origin (L.windows.map fun w : Window => (w.off, w.bytes)) ++
        List.replicate (L.metaSeek - origin.length) 0).length = L.metaSeek := by
      rw [List.length_append, List.length_replicate, hlen]
      omega
    rw [FillLayout.image, List.append_assoc, slice_skip (Nat.le_of_eq hfront), hfront,
      Nat.sub_self, slice_head rfl]

/-- No window touches these stretches of the origin. -/
def FillLayout.Spares (L : FillLayout) (spans : List (Nat × Nat)) : Prop :=
  ∀ w ∈ L.windows, ∀ s ∈ spans, w.stop ≤ s.1 ∨ s.2 ≤ w.off

theorem ImageOf.same {L : FillLayout} {image : Bytes} (h : ImageOf L origin image)
    {spans : List (Nat × Nat)} (hspares : L.Spares spans) {s : Nat × Nat} (hs : s ∈ spans) :
    SameOn origin image s.1 (min s.2 origin.length) :=
  fun i hi₁ hi₂ => h.origin i (by omega) fun w hw => by
    have := hspares w hw s hs
    omega

/-- A header window either leaves the format's name alone or writes it. -/
theorem headerWindow_magic {header : Bytes} {newEnd : Nat} {w : Window}
    (h : headerWindowForEnd header newEnd = .ok w) :
    4 ≤ w.off ∨ (w.off = 0 ∧ slice w.bytes 0 4 = ascii "root" ∧ 4 ≤ w.bytes.length) := by
  unfold headerWindowForEnd at h
  split at h
  · cases h
  · split at h
    · cases h
      exact Or.inl (show 4 ≤ 12 by decide)
    · split at h
      · cases h
        exact Or.inl (show 4 ≤ 12 by decide)
      · rename_i H _ _ _
        cases h
        refine Or.inr ⟨rfl, ?_, ?_⟩
        · simp only [largeHeader, List.append_assoc]
          exact slice_head rfl
        · simp [largeHeader]

theorem ImageOf.magic {L : FillLayout} {image : Bytes} (h : ImageOf L origin image) {E : Encoder}
    {hash : Bytes → UInt64} {m : RNTupleMeta} {header : Bytes} {codecs : List String}
    {pl ftr : Bytes} {hw : Window}
    (hL : RNTupleFillOf E hash m origin.length header codecs L pl ftr hw)
    (horigin : slice origin 0 4 = ascii "root") (hlen : 20 ≤ origin.length) :
    slice image 0 4 = ascii "root" := by
  rcases headerWindow_magic hL.header with hoff | ⟨hoff, hroot, hfour⟩
  · have hfront : SameOn origin image 0 (0 + 4) := fun i _ hi =>
      h.origin i (by omega) fun w hwin => by
        rcases (hL.windows w).1 hwin with rfl | rfl
        · omega
        · simp only [footerPatch, anchorPatch]
          omega
    rw [hfront.slice, horigin]
  · have hin := h.window hw ((hL.windows hw).2 (Or.inl rfl))
    rw [hoff] at hin
    rw [← hroot, ← hin, slice_slice (by omega)]

/-! ### What is read of it -/

/-- The payload of a key that is stored as it is. -/
theorem readKeyPayload_raw {D : Decoders} {b : Bytes} {k : KeyInfo}
    (hne : readKeyPayload D (.ofBytes b) k ≠ []) (hraw : k.objlen = k.nbytes - k.keylen) :
    k.seekkey.toNat + k.keylen + k.objlen.toNat ≤ b.length ∧
      ∀ b', b.length ≤ b'.length →
        readKeyPayload D (.ofBytes b') k = slice b' (k.seekkey.toNat + k.keylen) k.objlen.toNat := by
  have hgeometry : ¬ (k.nbytes ≤ 0 ∨ k.nbytes < k.keylen ∨ k.objlen < 0 ∨ k.seekkey < 0) := by
    intro hbad
    rw [readKeyPayload, if_pos hbad] at hne
    exact hne rfl
  have hroom : k.seekkey.toNat + k.nbytes.toNat ≤ b.length := by
    by_contra hover
    rw [readKeyPayload, if_neg hgeometry, ByteSource.get_ofBytes, if_neg hover] at hne
    exact hne rfl
  refine ⟨by omega, fun b' hlen => ?_⟩
  have hout : (slice b' k.seekkey.toNat k.nbytes.toNat).drop k.keylen =
      slice b' (k.seekkey.toNat + k.keylen) k.objlen.toNat := by
    rw [slice, slice, List.drop_take, List.drop_drop]
    congr 1
    omega
  rw [readKeyPayload, if_neg hgeometry, ByteSource.get_ofBytes, if_pos (by omega)]
  simp only [if_pos hraw, hout]
  rw [if_neg]
  rw [length_slice]
  omega

theorem preadRange_ofBytes {b : Bytes} {off len fileSize : Nat} (hpos : 0 < len)
    (hfile : off + len ≤ fileSize) (hlen : fileSize ≤ b.length) :
    preadRange (.ofBytes b) off len fileSize = slice b off len := by
  unfold preadRange
  rw [if_neg (by omega), ByteSource.get_ofBytes, if_pos (by omega)]
  rfl

/-- An envelope that was not touched, in a longer file. -/
theorem readEnvelope_again {D : Decoders} {b b' : Bytes} {off nbytes len : Nat}
    (hne : readEnvelope D (.ofBytes b) off nbytes len b.length ≠ []) (hlen : b.length ≤ b'.length)
    (hsame : SameOn b b' off (off + nbytes)) :
    readEnvelope D (.ofBytes b') off nbytes len b'.length =
      readEnvelope D (.ofBytes b) off nbytes len b.length := by
  have hin := readEnvelope_inFile hne
  have hpos : 0 < nbytes := by
    rcases Nat.eq_zero_or_pos nbytes with rfl | hpos
    · simp [readEnvelope, preadRange] at hne
    · exact hpos
  unfold readEnvelope
  rw [preadRange_ofBytes hpos hin (Nat.le_refl _),
    preadRange_ofBytes hpos (by omega) (Nat.le_refl _), hsame.slice]

/-! ### Re-addressing -/

/-- Page records of one offset are of one page. -/
def RNTupleMeta.PagesAgree (m : RNTupleMeta) : Prop :=
  ∀ p ∈ m.allPages, ∀ q ∈ m.allPages, p.offset = q.offset →
    p.nbytes = q.nbytes ∧ p.hasChecksum = q.hasChecksum ∧ p.uncompressedBytes = q.uncompressedBytes

/-- The frames of the page list and of the footer are well nested: no summary's frame ends in front of
what is read in it, and records and locator are in front of their envelope's checksum. -/
structure RNTupleMeta.WellNested (m : RNTupleMeta) : Prop where
  pageList : PageListNested m.columns m.pageList
  footer : m.pageListLocatorOffset + 12 + 8 ≤ m.footer.length

/-- What of the origin a parse of the shown file reads again: what leads to the keys, the anchor in
front of its footer link, and the header envelope. -/
def RNTupleMeta.keptSpans (m : RNTupleMeta) (origin : Bytes) : List (Nat × Nat) :=
  containerSpans origin ++
    [(m.anchor.payloadOffset + 6, m.anchor.payloadOffset + 38),
      (m.anchor.seekHeader, m.anchor.seekHeader + m.anchor.nbytesHeader)]

/-- One slot for each offset of a relocated page, as long as the page and its checksum. -/
structure SlotPerOffset (m : RNTupleMeta) (L : FillLayout) : Prop where
  once : (L.slots.map FillSlot.origSeek).Nodup
  offsets : ∀ offset, offset ∈ L.slots.map FillSlot.origSeek ↔
    ∃ ri ∈ L.relocated, ∃ pg ∈ (m.ranges.getD ri {}).pages, pg.offset = offset
  slot : ∀ s ∈ L.slots, slotFor L.slots s.origSeek = s.vSeek
  length : ∀ ri ∈ L.relocated, ∀ pg ∈ (m.ranges.getD ri {}).pages, ∀ s ∈ L.slots,
    s.origSeek = pg.offset → s.vLen = pg.uncompressedBytes + kSlotChecksumBytes

/-- What was parsed of the shown file: as before, but that the pages of the relocated ranges are at
their slots. -/
structure ShownMeta (m : RNTupleMeta) (L : FillLayout) (shown : RNTupleMeta) : Prop where
  columns : shown.columns = m.columns
  nClusters : shown.nClusters = m.nClusters
  nEntries : shown.nEntries = m.nEntries
  ranges : ∀ ri : Nat, shown.ranges[ri]? = (m.ranges[ri]?).map fun r =>
    shownRange (fun _ => decide (ri ∈ L.relocated)) L.slots r

section Layout

variable {E : Encoder} {hash : Bytes → UInt64} {m : RNTupleMeta} {fileSize : Nat} {header : Bytes}
  {codecs : List String} {L : FillLayout} {pl ftr : Bytes} {hw : Window}

theorem mem_relocatedRanges {ri : Nat} : ri ∈ relocatedRanges m fileSize codecs ↔
    ∃ r, m.ranges[ri]? = some r ∧ r.movable fileSize codecs = true := by
  unfold relocatedRanges
  rw [List.mem_filter, List.mem_range]
  constructor
  · rintro ⟨hlt, hmoves⟩
    rw [List.getD_eq_getElem?_getD, List.getElem?_eq_getElem hlt] at hmoves
    exact ⟨_, List.getElem?_eq_getElem hlt, hmoves⟩
  · rintro ⟨r, hr, hmoves⟩
    refine ⟨(List.getElem?_eq_some_iff.1 hr).1, ?_⟩
    rw [List.getD_eq_getElem?_getD, hr]
    exact hmoves

/-- The pages of the relocated ranges, by range and as one list. -/
theorem mem_relocatedPages {pg : PageInfo} :
    pg ∈ (m.ranges.filter (ColumnRange.movable fileSize codecs)).flatMap ColumnRange.pages ↔
      ∃ ri ∈ relocatedRanges m fileSize codecs, pg ∈ (m.ranges.getD ri {}).pages := by
  rw [← relocatedRanges_map]
  simp only [List.mem_flatMap, List.mem_map]
  constructor
  · rintro ⟨r, ⟨ri, hri, rfl⟩, hpg⟩
    exact ⟨ri, hri, hpg⟩
  · rintro ⟨ri, hri, hpg⟩
    exact ⟨_, ⟨ri, hri, rfl⟩, hpg⟩

theorem mem_allPages_of_relocated {ri : Nat} (hri : ri ∈ relocatedRanges m fileSize codecs)
    {pg : PageInfo} (hpg : pg ∈ (m.ranges.getD ri {}).pages) : pg ∈ m.allPages := by
  obtain ⟨r, hr, -⟩ := mem_relocatedRanges.1 hri
  rw [List.getD_eq_getElem?_getD, hr] at hpg
  exact RNTupleMeta.mem_allPages hr hpg

theorem RNTupleFillOf.slots (h : RNTupleFillOf E hash m fileSize header codecs L pl ftr hw)
    (hagree : m.PagesAgree) : SlotPerOffset m L := by
  obtain ⟨st, hst, hplaced⟩ := h.placed
  have honce := hplaced.once
  have hgiven := hplaced.given
  have hpage := hplaced.page
  rw [hst] at honce hgiven hpage
  have hunique : ∀ s ∈ L.slots, ∀ t ∈ L.slots, s.origSeek = t.origSeek → s = t :=
    fun s hs t ht heq => List.inj_on_of_nodup_map honce hs ht heq
  refine ⟨honce, fun offset => ?_, fun s hs => ?_, fun ri hri pg hpg s hs hoff => ?_⟩
  · constructor
    · intro hmem
      obtain ⟨s, hs, hoff⟩ := List.mem_map.1 hmem
      obtain ⟨pg, hpg, hpgOff, -⟩ := hpage s hs
      obtain ⟨ri, hri, hin⟩ := mem_relocatedPages.1 hpg
      exact ⟨ri, h.relocated ▸ hri, pg, hin, hpgOff.trans hoff⟩
    · rintro ⟨ri, hri, pg, hpg, rfl⟩
      exact hgiven pg (mem_relocatedPages.2 ⟨ri, h.relocated ▸ hri, hpg⟩)
  · obtain ⟨t, ht, hoff, hslot⟩ := slotFor_mem (List.mem_map_of_mem hs)
    rw [hslot, hunique t ht s hs hoff]
  · obtain ⟨q, hq, hqOff, hlen⟩ := hpage s hs
    obtain ⟨rj, hrj, hqIn⟩ := mem_relocatedPages.1 hq
    rw [hlen, (hagree q (mem_allPages_of_relocated hrj hqIn) pg
      (mem_allPages_of_relocated (h.relocated ▸ hri) hpg) (hqOff.trans hoff)).2.2]

/-- The pages of a relocated range fit the records that are written for them. -/
theorem RNTupleFillOf.fits (h : RNTupleFillOf E hash m fileSize header codecs L pl ftr hw)
    (hok : LayoutOk L) (hend : L.virtualSize < 2 ^ 63) {r : ColumnRange} (hr : r ∈ m.ranges)
    (hmoves : r.movable fileSize codecs = true) : MovedFits L.slots r := by
  obtain ⟨st, hst, hplaced⟩ := h.placed
  have hgiven := hplaced.given
  rw [hst] at hgiven
  refine ⟨fun pg hpg => ?_, fun pg hpg => ?_⟩
  · simp only [ColumnRange.movable, Bool.and_eq_true, List.all_eq_true, PageInfo.convertible,
      decide_eq_true_eq] at hmoves
    have := hmoves.2 pg hpg
    omega
  · obtain ⟨s, hs, -, hslot⟩ := slotFor_mem
      (hgiven pg (List.mem_flatMap.2 ⟨r, List.mem_filter.2 ⟨hr, hmoves⟩, hpg⟩))
    have := hok.slots.end_le hs
    omega

/-- The written page list is one, and has the shown ranges. -/
theorem RNTupleFillOf.pageList_again
    (h : RNTupleFillOf E hash m fileSize header codecs L pl ftr hw) (hok : LayoutOk L)
    (hend : L.virtualSize < 2 ^ 63) (hsmall : m.pageList.length < 2 ^ 31)
    (hnested : PageListNested m.columns m.pageList)
    (henv : EnvelopeOk hash m.pageList kEnvelopePageList) {c : LE}
    (hwalk : pageListWalk m.columns ⟨m.pageList, 16⟩ =
      some ((m.nClusters, m.nEntries, m.ranges), c)) :
    pl.length = m.pageList.length ∧ EnvelopeOk hash pl kEnvelopePageList ∧
      ∃ c', pageListWalk m.columns ⟨pl, 16⟩ = some ((m.nClusters, m.nEntries,
        m.ranges.map (shownRange (ColumnRange.movable fileSize codecs) L.slots)), c') := by
  obtain ⟨hlaid, hsum⟩ := pageListWalk_laid (by omega) hnested hwalk
  obtain ⟨hlen, hword⟩ := @slice_written L.slots c.pos (ColumnRange.movable fileSize codecs)
    m.pageList m.ranges hlaid hsum
  have hlength : pl.length = m.pageList.length := by
    rw [h.pageList, sealEnvelope_length]
    exact hlen
  refine ⟨hlength, ?_, ?_⟩
  · rw [h.pageList]
    exact verify_sealed henv hlen hword
  · refine ⟨_, pageListWalk_again (by omega) hlength hnested hwalk
      (fun r hr hmoves => h.fits hok hend hr hmoves) ?_⟩
    rw [h.pageList]
    exact pagesShown_sealed hlaid hsum

theorem storeEnvelope_length_le (E : Encoder) (env : Bytes) (level : Nat) :
    (storeEnvelope E env level).length ≤ env.length := by
  rcases shrink_cases E env level with hraw | ⟨henc, -, hlt⟩
  · exact (congrArg List.length hraw).le
  · rw [storeEnvelope, henc]
    omega

theorem storeEnvelope_pos {env : Bytes} {level : Nat} (h : env ≠ []) :
    0 < (storeEnvelope E env level).length := by
  rcases shrink_cases E env level with hraw | ⟨henc, hne, -⟩
  · rw [storeEnvelope, hraw]
    exact List.length_pos_of_ne_nil h
  · rw [storeEnvelope, henc]
    exact List.length_pos_of_ne_nil hne

/-- The written footer is one, and leads to the written page list. -/
theorem RNTupleFillOf.footer_again
    (h : RNTupleFillOf E hash m fileSize header codecs L pl ftr hw)
    (hsmall : pl.length < 2 ^ 31) (hseek : L.pageListAt < 2 ^ 64) (hfooter : m.footer.length < 2 ^ 32)
    (hnested : m.pageListLocatorOffset + 12 + 8 ≤ m.footer.length)
    (henv : EnvelopeOk hash m.footer kEnvelopeFooter) {link : GroupLink} {c : LE}
    (hwalk : footerWalk ⟨m.footer, 16⟩ = some (some [link], c))
    (hloc : m.pageListLocatorOffset = link.locAt % 2 ^ 32) :
    (sealEnvelope hash ftr).length = m.footer.length ∧
      EnvelopeOk hash (sealEnvelope hash ftr) kEnvelopeFooter ∧
      ∃ c', footerWalk ⟨sealEnvelope hash ftr, 16⟩ = some (some [⟨pl.length,
        (storeEnvelope E pl 1).length, L.pageListAt, m.pageListLocatorOffset⟩], c') := by
  obtain ⟨k, hlink⟩ := footerWalk_inv hwalk
  have hin := hlink.inside
  have hk : m.pageListLocatorOffset = k + 8 := by
    rw [hloc, hlink.locAt, Nat.mod_eq_of_lt (by omega)]
  have hstored := storeEnvelope_length_le E pl 1
  obtain ⟨hftr, -⟩ := patchFooterLink_eq hk h.footer
  obtain ⟨hlen, hword, hread⟩ := @footer_sealed hash m.footer link k pl.length
    (storeEnvelope E pl 1).length L.pageListAt hlink (by omega) (by omega) (by omega) hseek
  rw [← hftr] at hlen hword hread
  rw [hk]
  exact ⟨(sealEnvelope_length _).trans hlen, verify_sealed henv hlen hword, hread⟩

/-- Where the two envelopes are in the shown file. -/
structure StoredIn (E : Encoder) (hash : Bytes → UInt64) (L : FillLayout) (pl ftr image : Bytes) :
    Prop where
  pageList : slice image L.pageListAt (storeEnvelope E pl 1).length = storeEnvelope E pl 1
  footer : slice image (L.footerAt (storeEnvelope E pl 1))
    (storeEnvelope E (sealEnvelope hash ftr) 1).length = storeEnvelope E (sealEnvelope hash ftr) 1
  inside : L.footerAt (storeEnvelope E pl 1) +
    (storeEnvelope E (sealEnvelope hash ftr) 1).length ≤ image.length

theorem RNTupleFillOf.stored (h : RNTupleFillOf E hash m fileSize header codecs L pl ftr hw)
    (hok : LayoutOk L) {image : Bytes} (himage : ImageOf L origin image) :
    StoredIn E hash L pl ftr image := by
  have hpart : ∀ off n, off + n ≤ L.metaRecord.length →
      slice image (L.metaSeek + off) n = slice L.metaRecord off n := by
    intro off n hle
    rw [← slice_slice hle, himage.record]
  have hlen : L.metaRecord.length = kRBlobKeyLen + (storeEnvelope E pl 1).length + kRBlobKeyLen +
      (storeEnvelope E (sealEnvelope hash ftr) 1).length := by
    rw [h.metaRecord]
    simp only [List.length_append, length_rBlobKey]
  have hbegin : L.metaEnd ≤ L.slotsBegin := hok.metaEnd
  have hslots := hok.slots.le
  simp only [FillLayout.metaEnd] at hbegin
  refine ⟨?_, ?_, ?_⟩
  · rw [FillLayout.pageListAt, hpart _ _ (by omega), h.metaRecord, List.append_assoc,
      List.append_assoc, slice_skip (by rw [length_rBlobKey]), length_rBlobKey, Nat.sub_self,
      slice_head rfl]
  · have hoff : L.footerAt (storeEnvelope E pl 1) =
        L.metaSeek + (kRBlobKeyLen + (storeEnvelope E pl 1).length + kRBlobKeyLen) := by
      simp only [FillLayout.footerAt, FillLayout.pageListAt]
      omega
    rw [hoff, hpart _ _ (by omega), h.metaRecord, slice_skip (by
      simp only [List.length_append, length_rBlobKey]
      omega)]
    simp only [List.length_append, length_rBlobKey, Nat.sub_self]
    exact slice_all rfl
  · rw [himage.length]
    simp only [FillLayout.footerAt, FillLayout.pageListAt]
    omega

end Layout

/-! ### The shown file parses -/

/-- The hypotheses on a file, its parse and its layout under which the shown file parses. -/
structure Readable (D : Decoders) (E : Encoder) (m : RNTupleMeta) (L : FillLayout)
    (origin : Bytes) : Prop where
  undoes : ∀ env, env.length = m.pageList.length ∨ env.length = m.footer.length → Undoes D E 1 env
  nested : m.WellNested
  spared : L.Spares (m.keptSpans origin)
  pageList : m.pageList.length < 2 ^ 31
  footer : m.footer.length < 2 ^ 32
  image : L.virtualSize < 2 ^ 63

section Shown

variable {D : Decoders} {E : Encoder} {hash : Bytes → UInt64} {m : RNTupleMeta} {header : Bytes}
  {codecs : List String} {L : FillLayout} {pl ftr : Bytes} {hw : Window} {origin image : Bytes}
  {cm cm' : ContainerMeta} {ntuple : String}

/-- The footer of the shown file. -/
def FillLayout.shownFooter (L : FillLayout) (E : Encoder) (pl sealed : Bytes) : FooterAt where
  seek := L.footerAt (storeEnvelope E pl 1)
  nbytes := (storeEnvelope E sealed 1).length
  len := sealed.length

/-- The anchor of the shown file: patched where it lies. -/
theorem RNTupleFillOf.anchor_again
    (h : RNTupleFillOf E hash m origin.length header codecs L pl ftr hw)
    (hparsed : ParsedFrom D hash (.ofBytes origin) cm ntuple m) (himage : ImageOf L origin image)
    (hspared : L.Spares (m.keptSpans origin)) (hle : origin.length ≤ image.length)
    (hkeys : cm'.keys = cm.keys) (hseek : L.footerAt (storeEnvelope E pl 1) < 2 ^ 64)
    (hlen : (sealEnvelope hash ftr).length < 2 ^ 64) :
    78 ≤ (anchorPayload D (.ofBytes image) cm' ntuple).length ∧
      readAnchor (anchorKey ntuple cm'.keys) (anchorPayload D (.ofBytes image) cm' ntuple) =
        m.anchor.link (L.shownFooter E pl (sealEnvelope hash ftr)) ∧
      (hash (slice (anchorPayload D (.ofBytes image) cm' ntuple) 6 64)).toNat =
        beGet (anchorPayload D (.ofBytes image) cm' ntuple) 70 8 := by
  have hpayload := h.payload
  have ha := hparsed.anchor
  -- the anchor is stored as it is, which is where it can be patched
  have hraw : (anchorKey ntuple cm.keys).objlen =
      (anchorKey ntuple cm.keys).nbytes - (anchorKey ntuple cm.keys).keylen := by
    by_contra hnot
    rw [ha] at hpayload
    simp [readAnchor, hnot] at hpayload
  have hat : m.anchor.payloadOffset =
      (anchorKey ntuple cm.keys).seekkey.toNat + (anchorKey ntuple cm.keys).keylen := by
    rw [ha]
    simp [readAnchor, hraw]
  have h78 := hparsed.payload
  have hne : readKeyPayload D (.ofBytes origin) (anchorKey ntuple cm.keys) ≠ [] := by
    intro hnil
    rw [anchorPayload, hnil] at h78
    exact absurd h78 (by decide)
  obtain ⟨hin, hagain⟩ := readKeyPayload_raw hne hraw
  rw [← hat] at hin hagain
  have hold : anchorPayload D (.ofBytes origin) cm ntuple = slice origin m.anchor.payloadOffset
      (anchorKey ntuple cm.keys).objlen.toNat := hagain origin (Nat.le_refl _)
  have hnew : anchorPayload D (.ofBytes image) cm' ntuple = slice image m.anchor.payloadOffset
      (anchorKey ntuple cm.keys).objlen.toNat := by
    rw [anchorPayload, hkeys]
    exact hagain image hle
  have hlength : (anchorPayload D (.ofBytes image) cm' ntuple).length =
      (anchorPayload D (.ofBytes origin) cm ntuple).length := by
    rw [hold, hnew, length_slice, length_slice]
    omega
  have hobj : (anchorPayload D (.ofBytes origin) cm ntuple).length =
      (anchorKey ntuple cm.keys).objlen.toNat := by
    rw [hold, length_slice]
    omega
  have hfront : SameOn (anchorPayload D (.ofBytes origin) cm ntuple)
      (anchorPayload D (.ofBytes image) cm' ntuple) 6 38 := by
    intro i hi₁ hi₂
    have hsame := himage.same hspared (s := (m.anchor.payloadOffset + 6,
      m.anchor.payloadOffset + 38)) (List.mem_append_right _ (by simp))
    rw [hold, hnew, getElem?_slice, getElem?_slice, if_pos (by omega), if_pos (by omega)]
    exact hsame _ (by simp only; omega) (by simp only; omega)
  have hpatch : slice (anchorPayload D (.ofBytes image) cm' ntuple) 38 40 =
      (footerPatch E hash m L (storeEnvelope E pl 1) (sealEnvelope hash ftr)).bytes := by
    have hin := himage.window _ ((h.windows _).2 (Or.inr rfl))
    have hbytes : (footerPatch E hash m L (storeEnvelope E pl 1)
        (sealEnvelope hash ftr)).bytes.length = 40 := by
      simp [footerPatch, anchorPatch]
    rw [hbytes] at hin
    rw [hnew, slice_slice (by omega)]
    exact hin
  rw [hkeys]
  have hstored := storeEnvelope_length_le E (sealEnvelope hash ftr) 1
  obtain ⟨hread, hsum⟩ := @readAnchor_again hash _ _ _
    (L.shownFooter E pl (sealEnvelope hash ftr)) m ha h78 hlength hfront hpatch hseek
    (by show (storeEnvelope E (sealEnvelope hash ftr) 1).length < 2 ^ 64; omega) hlen
  exact ⟨by omega, hread, hsum⟩

/-- What is parsed of the shown file. -/
def FillLayout.shownMeta (L : FillLayout) (E : Encoder) (m : RNTupleMeta) (fileSize : Nat)
    (codecs : List String) (pl sealed : Bytes) (cm' : ContainerMeta) : RNTupleMeta :=
  { m with
    fileSize := cm'.fileSize.toNat
    fend := cm'.fend
    headerSeekWidth := cm'.headerSeekWidth
    anchor := m.anchor.link (L.shownFooter E pl sealed)
    footer := sealed
    pageList := pl
    pageListOffset := L.pageListAt
    pageListNbytes := (storeEnvelope E pl 1).length
    ranges := m.ranges.map (shownRange (ColumnRange.movable fileSize codecs) L.slots) }

/-- The anchor, the envelopes and the page list of the shown file lead from one to the other. -/
theorem RNTupleFillOf.parsed_again
    (h : RNTupleFillOf E hash m origin.length header codecs L pl ftr hw) (hok : LayoutOk L)
    (hparsed : ParsedFrom D hash (.ofBytes origin) cm ntuple m) (hsize : cm.fileSize = origin.length)
    (hread : Readable D E m L origin) (himage : ImageOf L origin image)
    (hkeys : cm'.keys = cm.keys) (hsize' : cm'.fileSize = image.length) :
    ParsedFrom D hash (.ofBytes image) cm' ntuple
      (L.shownMeta E m origin.length codecs pl (sealEnvelope hash ftr) cm') := by
  have hstored := h.stored hok himage
  have himageLen := himage.length
  have hend := hread.image
  have hle : origin.length ≤ image.length := by
    have h1 := hok.metaSeek
    have h2 := hok.metaEnd
    have h3 := hok.slots.le
    simp only [FillLayout.metaEnd, h.originSize] at h1 h2
    omega
  have hinside := hstored.inside
  have hat : L.pageListAt ≤ L.footerAt (storeEnvelope E pl 1) := by
    simp only [FillLayout.footerAt]
    omega
  obtain ⟨link, hlink⟩ := hparsed.link
  obtain ⟨c₁, hwalk⟩ := hparsed.pageListWalk
  obtain ⟨c₂, hfooterWalk⟩ := hlink.walk
  obtain ⟨hplLen, hplOk, c₃, hplWalk⟩ := h.pageList_again hok hend hread.pageList
    hread.nested.pageList hparsed.pageListOk hwalk
  obtain ⟨hftrLen, hftrOk, c₄, hftrWalk⟩ := h.footer_again (by have := hread.pageList; omega)
    (by omega) hread.footer hread.nested.footer hparsed.footerOk hfooterWalk hlink.locator
  obtain ⟨h78, hanchor, hsum⟩ := h.anchor_again hparsed himage hread.spared hle hkeys (by omega)
    (by have := hread.footer; omega)
  have hfileSize : m.fileSize = origin.length := by
    rw [hparsed.fileSize, hsize]
    rfl
  have hheaderOld := hparsed.header
  rw [hfileSize] at hheaderOld
  have hheader : readEnvelope D (.ofBytes image) m.anchor.seekHeader m.anchor.nbytesHeader
      m.anchor.lenHeader image.length = m.header := by
    have hne : readEnvelope D (.ofBytes origin) m.anchor.seekHeader m.anchor.nbytesHeader
        m.anchor.lenHeader origin.length ≠ [] := by
      rw [← hheaderOld]
      exact hparsed.headerOk.ne_nil
    have hin := readEnvelope_inFile hne
    have hsame := himage.same hread.spared (s := (m.anchor.seekHeader,
      m.anchor.seekHeader + m.anchor.nbytesHeader)) (List.mem_append_right _ (by simp))
    rw [readEnvelope_again hne hle (hsame.mono (Nat.le_refl _) (by simp only; omega)),
      ← hheaderOld]
  have hfooter : readEnvelope D (.ofBytes image) (L.footerAt (storeEnvelope E pl 1))
      (storeEnvelope E (sealEnvelope hash ftr) 1).length (sealEnvelope hash ftr).length
      image.length = sealEnvelope hash ftr := by
    refine readEnvelope_stored hftrOk.ne_nil (hread.undoes _ (Or.inr hftrLen)) ?_
    rw [preadRange_ofBytes (storeEnvelope_pos hftrOk.ne_nil) hinside (Nat.le_refl _),
      hstored.footer]
  have hpageList : readEnvelope D (.ofBytes image) L.pageListAt (storeEnvelope E pl 1).length
      pl.length image.length = pl := by
    refine readEnvelope_stored hplOk.ne_nil (hread.undoes _ (Or.inl hplLen)) ?_
    rw [preadRange_ofBytes (storeEnvelope_pos hplOk.ne_nil) (by
      simp only [FillLayout.footerAt] at hinside
      omega) (Nat.le_refl _), hstored.pageList]
  have hsizeNat : cm'.fileSize.toNat = image.length := by
    rw [hsize']
    rfl
  exact
    { fileSize := rfl
      fend := rfl
      headerSeekWidth := rfl
      key := by
        rw [hkeys]
        exact hparsed.key
      payload := h78
      anchor := hanchor.symm
      checksum := hsum
      header := by
        show m.header = readEnvelope D (.ofBytes image) m.anchor.seekHeader m.anchor.nbytesHeader
          m.anchor.lenHeader cm'.fileSize.toNat
        rw [hsizeNat, hheader]
      headerOk := hparsed.headerOk
      headerWalk := hparsed.headerWalk
      footer := by
        show sealEnvelope hash ftr = readEnvelope D (.ofBytes image)
          (L.footerAt (storeEnvelope E pl 1)) (storeEnvelope E (sealEnvelope hash ftr) 1).length
          (sealEnvelope hash ftr).length cm'.fileSize.toNat
        rw [hsizeNat, hfooter]
      footerOk := hftrOk
      link := ⟨⟨pl.length, (storeEnvelope E pl 1).length, L.pageListAt, m.pageListLocatorOffset⟩,
        { walk := ⟨c₄, hftrWalk⟩
          locator := by
            have := hread.nested.footer
            have := hread.footer
            show m.pageListLocatorOffset = m.pageListLocatorOffset % 2 ^ 32
            exact (Nat.mod_eq_of_lt (by omega)).symm
          offset := rfl
          nbytes := rfl
          pageList := by
            show pl = readEnvelope D (.ofBytes image) L.pageListAt (storeEnvelope E pl 1).length
              pl.length cm'.fileSize.toNat
            rw [hsizeNat, hpageList] }⟩
      pageListOk := hplOk
      pageListWalk := ⟨c₃, hplWalk⟩ }

end Shown

/-- [SRC RNTupleRewrite.cc:408-503] The layout is a re-addressing.  Of a file that parses, in which
page records of one offset agree: a layout is well formed with one slot for each offset of a
relocated page.  Where its windows spare what leads to the keys, the anchor's other fields and the
header envelope, and the sizes fit their fields, every file that is shown by it parses, to the same
columns, clusters and entries, with the relocated pages at their slots and every other range as
before. -/
theorem rntuple_layout_readdressed {D : Decoders} {E : Encoder} {hash : Bytes → UInt64}
    {origin : Bytes} {ntuple : String} {m : RNTupleMeta} {header : Bytes} {codecs : List String}
    {L : FillLayout}
    (hparse : parseRNTuple D hash (.ofBytes origin) origin.length ntuple = .ok m)
    (hagree : m.PagesAgree)
    (hL : layoutForRNTupleFill E hash m origin.length header codecs = .ok L) :
    LayoutOk L ∧ SlotPerOffset m L ∧
      (Readable D E m L origin → ∀ image, ImageOf L origin image →
        ∃ shown, parseRNTuple D hash (.ofBytes image) image.length ntuple = .ok shown ∧
          ShownMeta m L shown) := by
  obtain ⟨cm, hcm, hfrom⟩ := bind_eq_ok hparse
  have hparsed := parseRNTupleFrom_iff.1 hfrom
  obtain ⟨hok, -⟩ := layoutForRNTupleFill_ok hL
  obtain ⟨pl, ftr, hw, hfill⟩ := layoutForRNTupleFill_inv hL
  refine ⟨hok, hfill.slots hagree, fun hread image himage => ?_⟩
  obtain ⟨hroot, hlong⟩ := parseContainer_magic hcm
  have hmagic := himage.magic hfill hroot hlong
  have hle : origin.length ≤ image.length := by
    have h1 := hok.metaSeek
    have h2 := hok.metaEnd
    have h3 := hok.slots.le
    have h4 := himage.length
    simp only [FillLayout.metaEnd, hfill.originSize] at h1 h2
    omega
  obtain ⟨cm', hcm', hkeys, hsize'⟩ := parseContainer_again hle hmagic (fun s hs =>
    himage.same hread.spared (List.mem_append_left _ hs)) hcm
  have hagain := hfill.parsed_again hok hparsed (parseContainer_fileSize hcm) hread himage hkeys
    hsize'
  refine ⟨L.shownMeta E m origin.length codecs pl (sealEnvelope hash ftr) cm', ?_,
    ⟨rfl, rfl, rfl, fun ri => ?_⟩⟩
  · unfold parseRNTuple
    rw [hcm']
    exact parseRNTupleFrom_iff.2 hagain
  · show (m.ranges.map _)[ri]? = _
    rw [List.getElem?_map]
    cases hr : m.ranges[ri]? with
    | none => rfl
    | some r =>
        have hmoves : r.movable origin.length codecs = decide (ri ∈ L.relocated) := by
          rw [hfill.relocated, Bool.eq_iff_iff, decide_eq_true_iff, mem_relocatedRanges]
          simp [hr]
        simp only [Option.map_some, shownRange, hmoves]

/-! ### A file with one column -/

namespace OneColumn

open TwoColumns (recordFrame listFrame envelope key)

def headerAt : Nat := 340
def footerAt : Nat := 640
def pageListAt : Nat := 840
def pageAt : Nat := 1040
def keysAt : Nat := 1056

def padded (n : Nat) (b : Bytes) : Bytes := b ++ List.replicate (n - b.length) 0

def header (name : Bytes) : Bytes :=
  envelope kEnvelopeHeader (le 8 0 ++ TwoColumns.text name ++ TwoColumns.text [] ++
    TwoColumns.text (ascii "w") ++ listFrame 0 [] ++
    listFrame 1 (recordFrame (le 2 0 ++ le 2 8 ++ le 4 0)))

/-- One page of four bytes, uncompressed. -/
def pageList : Bytes :=
  envelope kEnvelopePageList (le 8 0 ++ listFrame 1 (recordFrame (le 8 0 ++ le 8 4)) ++
    listFrame 1 (listFrame 1
      (listFrame 1 (le 4 4 ++ le 4 4 ++ le 8 pageAt) ++ le 8 0 ++ le 4 0)))

def footer : Bytes :=
  envelope kEnvelopeFooter (le 8 0 ++ le 8 0 ++ recordFrame [] ++ listFrame 1
    (recordFrame (le 20 0 ++ le 8 pageList.length ++ le 4 pageList.length ++ le 8 pageListAt)))

def anchorKey (seek : Nat) : Bytes := key 121 78 43 seek (ascii "ROOT::RNTuple") (ascii "n")

/-- The anchor's record at `seek`, for a header of so many bytes. -/
def anchorRecord (seek headerLen : Nat) : Bytes :=
  let window := anchorWindow
    { versionEpoch := 1
      seekHeader := headerAt
      nbytesHeader := headerLen
      lenHeader := headerLen }
    footerAt footer.length footer.length
  anchorKey seek ++ le 6 0 ++ window ++ be 8 (xxh3_64 window).toNat

def keysList (anchorAt : Nat) : Bytes :=
  key 76 47 29 keysAt [] [] ++ be 4 1 ++ anchorKey anchorAt

def fileHead : Bytes :=
  ascii "root" ++ be 4 62400 ++ be 4 100 ++ be 4 (keysAt + 76) ++ le 84 0 ++
    key 90 61 29 100 [] [] ++ [0] ++ [0] ++ be 2 5 ++ le 24 0 ++ be 4 keysAt

def file (anchorAt : Nat) (front name : Bytes) : Bytes :=
  padded 200 fileHead ++ padded 140 front ++ padded 300 (header name) ++ padded 200 footer ++
    padded 200 pageList ++ padded 16 [1, 2, 3, 4] ++ keysList anchorAt

/-- The anchor in front of the header envelope. -/
def apart : Bytes := file 200 (anchorRecord 200 (header (ascii "n")).length) (ascii "n")

/-- The anchor in the header envelope: the ntuple's name is the anchor's record. -/
def enclosed : Bytes := file 360 [] (anchorRecord 360 198)

end OneColumn

instance (m : RNTupleMeta) : Decidable m.PagesAgree :=
  inferInstanceAs (Decidable (∀ p ∈ m.allPages, ∀ q ∈ m.allPages, p.offset = q.offset →
    p.nbytes = q.nbytes ∧ p.hasChecksum = q.hasChecksum ∧
      p.uncompressedBytes = q.uncompressedBytes))

instance (L : FillLayout) (spans : List (Nat × Nat)) : Decidable (L.Spares spans) :=
  inferInstanceAs (Decidable (∀ w ∈ L.windows, ∀ s ∈ spans, w.stop ≤ s.1 ∨ s.2 ≤ w.off))

instance (m : RNTupleMeta) : Decidable m.WellNested :=
  decidable_of_iff ((nestedSummaries ⟨m.pageList, 16⟩).isSome = true ∧
      (∀ y ∈ pageListWalk m.columns ⟨m.pageList, 16⟩, y.2.pos + 8 ≤ m.pageList.length) ∧
      m.pageListLocatorOffset + 12 + 8 ≤ m.footer.length)
    ⟨fun h => ⟨⟨h.1, fun x c hw => h.2.1 (x, c) hw⟩, h.2.2⟩,
      fun h => ⟨h.pageList.summaries, fun y hy => h.pageList.checksum y.1 y.2 hy, h.footer⟩⟩

/-- The file parses, its pages agree, its frames are well nested and its codecs have a layout: then
`p` holds of them. -/
def layoutCheck (origin : Bytes) (p : RNTupleMeta → FillLayout → Bool) : Bool :=
  match parseRNTuple storedDecoders xxh3_64 (.ofBytes origin) origin.length "" with
  | .error _ => false
  | .ok m =>
      match layoutForRNTupleFill storedEncoder xxh3_64 m origin.length (origin.take 100) ["none"] with
      | .error _ => false
      | .ok L =>
          decide m.PagesAgree && decide m.WellNested &&
            decide (m.pageList.length < 2 ^ 23 ∧ m.footer.length < 2 ^ 23) && p m L

theorem layoutCheck_spec {p : RNTupleMeta → FillLayout → Bool} (h : layoutCheck origin p = true) :
    ∃ m L,
      parseRNTuple storedDecoders xxh3_64 (.ofBytes origin) origin.length "" = .ok m ∧
      m.PagesAgree ∧
      layoutForRNTupleFill storedEncoder xxh3_64 m origin.length (origin.take 100) ["none"] = .ok L ∧
      m.WellNested ∧ (m.pageList.length < 2 ^ 23 ∧ m.footer.length < 2 ^ 23) ∧ p m L = true := by
  unfold layoutCheck at h
  split at h
  · cases h
  rename_i m hm
  split at h
  · cases h
  rename_i L hL
  simp only [Bool.and_eq_true, decide_eq_true_eq] at h
  exact ⟨m, L, hm, h.1.1.1, hL, h.1.1.2, h.1.2, h.2⟩

/-- With the anchor in front of the header envelope the shown file parses. -/
theorem apart_file_readdressed : ∃ m L,
    parseRNTuple storedDecoders xxh3_64 (.ofBytes OneColumn.apart) OneColumn.apart.length "" =
      .ok m ∧
    layoutForRNTupleFill storedEncoder xxh3_64 m OneColumn.apart.length (OneColumn.apart.take 100)
      ["none"] = .ok L ∧
    LayoutOk L ∧ SlotPerOffset m L ∧
    ∃ shown, parseRNTuple storedDecoders xxh3_64 (.ofBytes (L.image OneColumn.apart))
      (L.image OneColumn.apart).length "" = .ok shown ∧ ShownMeta m L shown := by
  have hcheck : layoutCheck OneColumn.apart (fun m L =>
      decide (L.Spares (m.keptSpans OneColumn.apart)) && decide (L.virtualSize < 2 ^ 63) &&
        decide (L.originSize = OneColumn.apart.length)) = true := by
    decide +kernel
  obtain ⟨m, L, hm, hagree, hL, hnested, hlens, hrest⟩ := layoutCheck_spec hcheck
  simp only [Bool.and_eq_true, decide_eq_true_eq] at hrest
  obtain ⟨⟨hspared, himage⟩, hsize⟩ := hrest
  obtain ⟨hok, hslots, hshown⟩ := rntuple_layout_readdressed hm hagree hL
  refine ⟨m, L, hm, hL, hok, hslots, hshown ?_ _ (hok.imageOf hsize)⟩
  exact
    { undoes := fun env henv => stored_undone (by omega) 1
      nested := hnested
      spared := hspared
      pageList := by omega
      footer := by omega
      image := himage }

/-- With the anchor in the header envelope the patched anchor breaks the envelope's checksum. -/
theorem enclosed_anchor_not_shown :
    ¬ ∀ (D : Decoders) (E : Encoder) (origin : Bytes) (ntuple : String) (m : RNTupleMeta)
        (header : Bytes) (codecs : List String) (L : FillLayout),
      parseRNTuple D xxh3_64 (.ofBytes origin) origin.length ntuple = .ok m → m.PagesAgree →
      layoutForRNTupleFill E xxh3_64 m origin.length header codecs = .ok L →
      (∀ env, env.length = m.pageList.length ∨ env.length = m.footer.length → Undoes D E 1 env) →
      m.WellNested →
      ∃ shown, parseRNTuple D xxh3_64 (.ofBytes (L.image origin)) L.virtualSize ntuple =
        .ok shown ∧ ShownMeta m L shown := by
  intro h
  have hcheck : layoutCheck OneColumn.enclosed (fun _ L =>
      match parseRNTuple storedDecoders xxh3_64 (.ofBytes (L.image OneColumn.enclosed))
        L.virtualSize "" with
      | .error _ => true
      | .ok _ => false) = true := by
    decide +kernel
  obtain ⟨m, L, hm, hagree, hL, hnested, hlens, hfails⟩ := layoutCheck_spec hcheck
  obtain ⟨shown, hshown, -⟩ := h storedDecoders storedEncoder OneColumn.enclosed "" m _ _ L hm hagree
    hL (fun env henv => stored_undone (by omega) 1) hnested
  rw [hshown] at hfails
  cases hfails

end UCache
