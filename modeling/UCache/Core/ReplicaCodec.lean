/-
Module: UCache.Core.ReplicaCodec
Purpose: The reader of a replica's sidecar with every read it makes, the image that version 1
  wrote, and what comes back of both.
Trusted boundary: none
Main exports: readImage, serializeV1, replica_codec
-/
import UCache.Core.ReplicaView
import UCache.Core.SidecarCodec

namespace UCache.ReplicaCodec

open Lib ReplicaFile SidecarCodec

/-! ### The reader -/

/-- An integer of `n` bytes at `p + off`. -/
def word (p : Bytes) (off n : Nat) : Except Stop Nat := do
  let bytes ← copyOut p off n
  return ofLe bytes

/-- [SRC ReplicaFile.cc:145-147] -/
def readExtent (p : Bytes) (q : Nat) : Except Stop Extent := do
  let virtOff ← word p q 8
  let len ← word p (q + 8) 8
  let tdataOff ← word p (q + 16) 8
  return { virtOff := virtOff, len := len, tdataOff := tdataOff }

/-- [SRC ReplicaFile.cc:152-153] -/
def readRange (p : Bytes) (q : Nat) : Except Stop OriginRange := do
  let off ← word p q 8
  let len ← word p (q + 8) 8
  return { off := off, len := len }

/-- [SRC ReplicaFile.cc:158-161] -/
def readOrigRange (p : Bytes) (q : Nat) : Except Stop OrigRange := do
  let virtOff ← word p q 8
  let len ← word p (q + 8) 8
  let origOff ← word p (q + 16) 8
  let origLen ← word p (q + 24) 8
  return { virtOff := virtOff, len := len, origOff := origOff, origLen := origLen }

/-- The loop over the `n` records of a section, each of `size` bytes. -/
def readRecords {R : Type} (one : Nat → Except Stop R) (size : Nat) :
    Nat → Nat → Except Stop (List R)
  | _, 0 => .ok []
  | q, n + 1 => do
      let x ← one q
      let rest ← readRecords one size (q + size) n
      return x :: rest

/-- [SRC ReplicaFile.cc:122-124] The counts a sidecar may have. -/
def limitsOk (g : Sections) : Bool :=
  decide (g.keyLen ≤ kMaxKeyLen) && decide (g.nExt ≤ kMaxExtents) &&
    decide (g.nSup ≤ kMaxSuperseded) && decide (g.nOrigMap ≤ kMaxOrigMap)

/-- [SRC ReplicaFile.cc:141-166] What follows the header, section by section. -/
def readSections (p h : Bytes) : Except Stop ReplicaMeta := do
  let g := sections h
  let key ← copyOut p g.keyOff g.keyLen
  let extents ← readRecords (readExtent p) 24 g.extOff g.nExt
  let superseded ← readRecords (readRange p) 16 g.supOff g.nSup
  let origMap ← readRecords (readOrigRange p) 32 g.omOff g.nOrigMap
  let crcs ← copyOut p g.crcsOff (g.npages * 4)
  let m : ReplicaMeta :=
    { flags := get h 8 4
      encoding := h.getD 12 0
      encoderVersion := get h 36 4
      originSize := get h 16 8
      originMtime := get h 24 8
      cksumKind := h.getD 13 0
      originCksum := get h 32 4
      virtualSize := get h 40 8
      tdataBytes := get h 48 8
      key := key
      extents := extents
      superseded := superseded
      origMap := origMap
      pageCrcs := crcTable crcs g.npages }
  if consistent m then return m else .error .absent

/-- [SRC ReplicaFile.cc:96-186] Magic and version are read once there is room for the shorter
header, the rest of the header once there is room for the one of this version.  The counts are
bounded before anything is sized by them, and the page table is as long as the image says, so the
sizes do not wrap and no vector is out of reach. -/
def readImage (p : Bytes) : Except Stop ReplicaMeta :=
  if p.length < kHeaderSizeV1 then .error .absent
  else do
    let start ← copyOut p 0 8
    let v2 := decide (version start = kFormatVersion)
    if slice start 0 4 = kMagic ∧ (v2 = true ∨ version start = kFormatVersionV1) ∧
        ¬ (v2 = true ∧ p.length < kHeaderSize) then
      let h ← copyOut p 0 (if v2 then kHeaderSize else kHeaderSizeV1)
      let g := sections h
      if limitsOk g = true ∧ p.length = g.crcsOff + g.npages * 4 then
        let copy ← copyOut p 0 p.length
        if (crc32c (patch copy kCrcFieldOff [0, 0, 0, 0])).toNat = get h kCrcFieldOff 4 then
          readSections p h
        else .error .absent
      else .error .absent
    else .error .absent

/-! ### Version 1 -/

/-- [SRC FORMAT.md:97-124] The header that ends with the checksum, here for any version. -/
def headerV1 (version : Nat) (m : ReplicaMeta) : Bytes :=
  kMagic ++ le 4 version ++ le 4 m.flags ++ [m.encoding, m.cksumKind, 0, 0] ++
    le 8 m.originSize ++ le 8 m.originMtime ++ le 4 m.originCksum ++ le 4 m.encoderVersion ++
      le 8 m.virtualSize ++ le 8 m.tdataBytes ++ le 4 m.key.length ++ le 4 m.extents.length ++
        le 4 m.superseded.length ++ le 4 0

def keySectionV1 (m : ReplicaMeta) : Bytes :=
  m.key ++ List.replicate (align8 (kHeaderSizeV1 + m.key.length) -
    (kHeaderSizeV1 + m.key.length)) 0

/-- The image version 1 wrote: no origin map, and no count of one. -/
def serializeV1 (m : ReplicaMeta) : Bytes :=
  let image := headerV1 kFormatVersionV1 m ++ (keySectionV1 m ++ (m.extents.flatMap putExtent ++
    (m.superseded.flatMap putRange ++ crcsSection m)))
  patch image kCrcFieldOff (le 4 (crc32c image).toNat)

/-! ### Every read is of the image -/

variable {n off : Nat}

section Reads

variable {p : Bytes}

theorem get_take {k : Nat} (h : off + n ≤ k) : get (slice p 0 k) off n = get p off n := by
  rw [ReplicaFile.get, ReplicaFile.get, slice_slice h, Nat.zero_add]

theorem getD_take {k i : Nat} (h : i < k) : (slice p 0 k).getD i 0 = p.getD i 0 := by
  rw [List.getD_eq_getElem?_getD, List.getD_eq_getElem?_getD, getElem?_slice, if_pos h,
    Nat.zero_add]

theorem word_eq (h : off + n ≤ p.length) : word p off n = .ok (get p off n) := by
  rw [word, copyOut_of_within (.inr h)]
  rfl

theorem readExtent_eq {q : Nat} (h : q + 24 ≤ p.length) : readExtent p q =
    .ok { virtOff := get p q 8, len := get p (q + 8) 8, tdataOff := get p (q + 16) 8 } := by
  rw [readExtent, word_eq (by omega), word_eq (by omega), word_eq (by omega)]
  rfl

theorem readRange_eq {q : Nat} (h : q + 16 ≤ p.length) :
    readRange p q = .ok { off := get p q 8, len := get p (q + 8) 8 } := by
  rw [readRange, word_eq (by omega), word_eq (by omega)]
  rfl

theorem readOrigRange_eq {q : Nat} (h : q + 32 ≤ p.length) : readOrigRange p q =
    .ok { virtOff := get p q 8, len := get p (q + 8) 8, origOff := get p (q + 16) 8,
          origLen := get p (q + 24) 8 } := by
  rw [readOrigRange, word_eq (by omega), word_eq (by omega), word_eq (by omega),
    word_eq (by omega)]
  rfl

/-- A loop of which every turn reads its record reads them all. -/
theorem readRecords_eq {R : Type} {one : Nat → Except Stop R} {size : Nat} (n : Nat) (q : Nat)
    (f : Nat → R) (h : ∀ i < n, one (q + size * i) = .ok (f i)) :
    readRecords one size q n = .ok ((List.range n).map f) := by
  induction n generalizing q f with
  | zero => rfl
  | succ n ih =>
      have hfirst : one q = .ok (f 0) := h 0 (by omega)
      have hrest := ih (q + size) (fun i => f (i + 1)) fun i hi => by
        have hnext := h (i + 1) (by omega)
        rwa [Nat.mul_succ, Nat.add_comm (size * i), ← Nat.add_assoc] at hnext
      rw [readRecords, hfirst]
      simp only [bind, Except.bind, hrest, pure, Except.pure, List.range_succ_eq_map, List.map_cons,
        List.map_map]
      rfl

/-- How long the header of an image is. -/
def headerLen (p : Bytes) : Nat :=
  if version p = kFormatVersion then kHeaderSize else kHeaderSizeV1

theorem kHeaderSizeV1_le_headerLen (p : Bytes) : kHeaderSizeV1 ≤ headerLen p := by
  unfold headerLen
  split <;> decide

theorem version_take {k : Nat} (h : 8 ≤ k) : version (slice p 0 k) = version p := get_take h

theorem sections_header (p : Bytes) : sections (slice p 0 (headerLen p)) = sections p := by
  have hlen := kHeaderSizeV1_le_headerLen p
  have hversion : version (slice p 0 (headerLen p)) = version p :=
    version_take (Nat.le_trans (by decide) hlen)
  have hget : ∀ {off n : Nat}, off + n ≤ kHeaderSizeV1 →
      get (slice p 0 (headerLen p)) off n = get p off n := fun h => get_take (Nat.le_trans h hlen)
  have hcount : (if decide (version p = kFormatVersion) = true then
        get (slice p 0 (headerLen p)) kOrigMapCountOff 4 else 0) =
      if decide (version p = kFormatVersion) = true then get p kOrigMapCountOff 4 else 0 := by
    by_cases hv : version p = kFormatVersion
    · have hwide : kOrigMapCountOff + 4 ≤ headerLen p := by
        rw [headerLen, if_pos hv]
        decide
      simp only [hv, decide_true, if_true, get_take hwide]
    · simp only [hv, decide_false, Bool.false_eq_true, if_false]
  simp only [sections, hversion, hcount, hget (show 56 + 4 ≤ kHeaderSizeV1 by decide),
    hget (show 60 + 4 ≤ kHeaderSizeV1 by decide), hget (show 64 + 4 ≤ kHeaderSizeV1 by decide),
    hget (show 48 + 8 ≤ kHeaderSizeV1 by decide)]

end Reads

section Image

variable {p : Bytes}

/-- The sections follow one another. -/
theorem sections_follow (p : Bytes) :
    (sections p).extOff = align8 ((sections p).keyOff + (sections p).keyLen) ∧
      (sections p).supOff = (sections p).extOff + (sections p).nExt * 24 ∧
        (sections p).omOff = (sections p).supOff + (sections p).nSup * 16 ∧
          (sections p).crcsOff = (sections p).omOff + (sections p).nOrigMap * 32 :=
  ⟨rfl, rfl, rfl, rfl⟩

/-- The sections of an image that is as long as its header says are its own bytes. -/
theorem readSections_eq (hlen : p.length = (sections p).crcsOff + (sections p).npages * 4) :
    readSections p (slice p 0 (headerLen p)) =
      if consistent (fields p) then .ok (fields p) else .error .absent := by
  have hhead := kHeaderSizeV1_le_headerLen p
  have hget : ∀ {off n : Nat}, off + n ≤ kHeaderSizeV1 →
      get (slice p 0 (headerLen p)) off n = get p off n := fun h => get_take (Nat.le_trans h hhead)
  have hbyte : ∀ {i : Nat}, i < kHeaderSizeV1 →
      (slice p 0 (headerLen p)).getD i 0 = p.getD i 0 :=
    fun h => getD_take (Nat.lt_of_lt_of_le h hhead)
  obtain ⟨hext, hsup, hom, hcrcs⟩ := sections_follow p
  rw [align8] at hext
  have hkey := @copyOut_of_within p (sections p).keyOff (sections p).keyLen (.inr (by omega))
  have hextents := @readRecords_eq _ (readExtent p) 24 (sections p).nExt (sections p).extOff _
    fun i hi => readExtent_eq (by omega)
  have hranges := @readRecords_eq _ (readRange p) 16 (sections p).nSup (sections p).supOff _
    fun i hi => readRange_eq (by omega)
  have hmap := @readRecords_eq _ (readOrigRange p) 32 (sections p).nOrigMap (sections p).omOff _
    fun i hi => readOrigRange_eq (by omega)
  have htable := @copyOut_of_within p (sections p).crcsOff ((sections p).npages * 4)
    (.inr (by omega))
  have hcrc : crcTable (slice p (sections p).crcsOff ((sections p).npages * 4))
      (sections p).npages = (fields p).pageCrcs := by
    apply List.map_congr_left
    intro i hi
    have hlt := List.mem_range.1 hi
    rw [MetaFile.get, slice_slice (by omega)]
    rfl
  rw [readSections, sections_header, hkey, hextents, hranges, hmap, htable]
  simp only [bind, Except.bind, hcrc, hget (show 8 + 4 ≤ kHeaderSizeV1 by decide),
    hbyte (show 12 < kHeaderSizeV1 by decide),
    hget (show 36 + 4 ≤ kHeaderSizeV1 by decide), hget (show 16 + 8 ≤ kHeaderSizeV1 by decide),
    hget (show 24 + 8 ≤ kHeaderSizeV1 by decide), hbyte (show 13 < kHeaderSizeV1 by decide),
    hget (show 32 + 4 ≤ kHeaderSizeV1 by decide), hget (show 40 + 8 ≤ kHeaderSizeV1 by decide),
    hget (show 48 + 8 ≤ kHeaderSizeV1 by decide)]
  rfl

/-- The checks before the sections are read. -/
theorem whole_iff (p : Bytes) : whole p = true ↔
    kHeaderSizeV1 ≤ p.length ∧
      (slice p 0 4 = kMagic ∧
        (decide (version p = kFormatVersion) = true ∨ version p = kFormatVersionV1) ∧
          ¬ (decide (version p = kFormatVersion) = true ∧ p.length < kHeaderSize)) ∧
        (limitsOk (sections p) = true ∧
          p.length = (sections p).crcsOff + (sections p).npages * 4) ∧
          (crc32c (patch p kCrcFieldOff [0, 0, 0, 0])).toNat = get p kCrcFieldOff 4 := by
  have hversions : kFormatVersionV1 ≠ kFormatVersion := by decide
  simp only [whole, limitsOk, Bool.and_eq_true, Bool.or_eq_true, decide_eq_true_eq]
  constructor
  · rintro ⟨⟨⟨⟨⟨⟨⟨⟨hlen, hmagic⟩, hversion⟩, hkey⟩, hext⟩, hsup⟩, hom⟩, hsize⟩, hcrc⟩
    refine ⟨hlen, ⟨hmagic, ?_, ?_⟩, ⟨⟨⟨⟨hkey, hext⟩, hsup⟩, hom⟩, hsize⟩, hcrc⟩
    · exact hversion.elim .inr fun h => .inl h.1
    · rintro ⟨hv, hshort⟩
      rcases hversion with h | h
      · exact hversions (h.symm.trans hv)
      · exact Nat.not_lt.2 h.2 hshort
  · rintro ⟨hlen, ⟨hmagic, hversion, hlong⟩, ⟨⟨⟨⟨hkey, hext⟩, hsup⟩, hom⟩, hsize⟩, hcrc⟩
    refine ⟨⟨⟨⟨⟨⟨⟨⟨hlen, hmagic⟩, ?_⟩, hkey⟩, hext⟩, hsup⟩, hom⟩, hsize⟩, hcrc⟩
    rcases hversion with hv | hv
    · exact .inr ⟨hv, Nat.not_lt.1 fun hshort => hlong ⟨hv, hshort⟩⟩
    · exact .inl hv

/-- **Every read of the reader is of bytes the image has**, and what it gives is `deserialize`. -/
theorem readImage_eq (p : Bytes) : readImage p =
    match ReplicaFile.deserialize p with
    | some m => .ok m
    | none => .error .absent := by
  have hwhole := whole_iff p
  have hhead := kHeaderSizeV1_le_headerLen p
  unfold readImage ReplicaFile.deserialize
  by_cases hlen : p.length < kHeaderSizeV1
  · have hnot : ¬ whole p = true := fun h => absurd (hwhole.1 h).1 (by omega)
    simp [hlen, hnot]
  · have hlong : 8 ≤ p.length := Nat.le_trans (by decide) (Nat.not_lt.1 hlen)
    have hmagic : slice (slice p 0 8) 0 4 = slice p 0 4 := by
      rw [slice_slice (by decide), Nat.zero_add]
    rw [if_neg hlen, copyOut_of_within (.inr (by omega))]
    simp only [bind, Except.bind, version_take (Nat.le_refl 8), hmagic]
    split
    · rename_i hguard
      have hin : Within p 0 (headerLen p) := by
        right
        unfold headerLen
        split
        · rename_i hv
          have hfits : ¬ p.length < kHeaderSize := fun h => hguard.2.2 ⟨decide_eq_true hv, h⟩
          omega
        · omega
      have hif : (if decide (version p = kFormatVersion) = true then kHeaderSize
          else kHeaderSizeV1) = headerLen p := by simp only [decide_eq_true_eq, headerLen]
      rw [hif, copyOut_of_within hin]
      simp only [sections_header,
        get_take (Nat.le_trans (show kCrcFieldOff + 4 ≤ _ by decide) hhead)]
      split
      · rename_i hsizes
        rw [copyOut_of_within (.inr (by omega)), slice_self]
        dsimp only
        split
        · rename_i hcrc
          rw [readSections_eq hsizes.2,
            hwhole.2 ⟨Nat.not_lt.1 hlen, hguard, hsizes, hcrc⟩, Bool.true_and]
          split <;> rfl
        · rename_i hcrc
          have hnot : ¬ whole p = true := fun h => hcrc (hwhole.1 h).2.2.2
          simp [hnot]
      · rename_i hsizes
        have hnot : ¬ whole p = true := fun h => hsizes (hwhole.1 h).2.2.1
        simp [hnot]
    · rename_i hguard
      have hnot : ¬ whole p = true := fun h => hguard (hwhole.1 h).2.1
      simp [hnot]

theorem readImage_ne_wild (p : Bytes) : readImage p ≠ .error .wild := by
  rw [readImage_eq]
  cases ReplicaFile.deserialize p <;> simp

end Image

/-! ### What was stored comes back -/

/-- A value that passes the checks of the reader, with a checksum for every page. -/
structure Storable (m : ReplicaMeta) : Prop where
  fits : m.Fits
  key : m.key.length ≤ kMaxKeyLen
  extents : m.extents.length ≤ kMaxExtents
  superseded : m.superseded.length ≤ kMaxSuperseded
  origMap : m.origMap.length ≤ kMaxOrigMap
  consistent : consistent m = true

section Stored

variable {m : ReplicaMeta}

theorem Storable.counts (h : Storable m) :
    get (ReplicaFile.serialize m) 56 4 = m.key.length ∧
      get (ReplicaFile.serialize m) 60 4 = m.extents.length ∧
        get (ReplicaFile.serialize m) 64 4 = m.superseded.length ∧
          get (ReplicaFile.serialize m) kOrigMapCountOff 4 = m.origMap.length := by
  obtain ⟨-, -, -, -, -, -, -, -, -, hkey, hext, hsup, hom⟩ :=
    ReplicaFile.slice_header m (ReplicaFile.body m)
  have hkeyLen := h.key
  have hnExt := h.extents
  have hnSup := h.superseded
  have hnOrig := h.origMap
  simp only [kMaxKeyLen, kMaxExtents, kMaxSuperseded, kMaxOrigMap] at hkeyLen hnExt hnSup hnOrig
  refine ⟨?_, ?_, ?_, ?_⟩
  · rw [get_serialize (by decide) hkey, Nat.mod_eq_of_lt (by omega)]
  · rw [get_serialize (by decide) hext, Nat.mod_eq_of_lt (by omega)]
  · rw [get_serialize (by decide) hsup, Nat.mod_eq_of_lt (by omega)]
  · rw [get_serialize (show kOrigMapCountOff + 4 ≤ kCrcFieldOff ∨ _ from .inr (by decide)) hom,
      Nat.mod_eq_of_lt (by omega)]

theorem crcField_le_image (m : ReplicaMeta) :
    kCrcFieldOff + 4 ≤ (ReplicaFile.header m ++ ReplicaFile.body m).length := by
  rw [List.length_append, ReplicaFile.length_header]
  simp only [kCrcFieldOff, kHeaderSize]
  omega

/-- Bytes sealed with their own digest pass the check of it. -/
theorem digest_patch {image : Bytes} (h : kCrcFieldOff + 4 ≤ image.length)
    (hzero : slice image kCrcFieldOff 4 = le 4 0) :
    let p := patch image kCrcFieldOff (le 4 (crc32c image).toNat)
    (crc32c (patch p kCrcFieldOff [0, 0, 0, 0])).toNat = get p kCrcFieldOff 4 := by
  intro p
  have hback : patch p kCrcFieldOff [0, 0, 0, 0] = image :=
    patch_restore (by rwa [length_le]) hzero
  have hfield : slice p kCrcFieldOff 4 = le 4 (crc32c image).toNat := by
    have hsame := @slice_patch_same _ image kCrcFieldOff (le 4 (crc32c image).toNat)
      (by rwa [length_le])
    rwa [length_le] at hsame
  rw [hback, ReplicaFile.get, hfield, ofLe_le,
    Nat.mod_eq_of_lt (show _ < 256 ^ 4 from UInt32.toNat_lt _)]

theorem crcField_zero (m : ReplicaMeta) (rest : Bytes) :
    slice (ReplicaFile.header m ++ rest) kCrcFieldOff 4 = le 4 0 := by
  simp (disch := simp only [length_le, List.length_cons, List.length_nil, Nat.reduceAdd,
    Nat.reduceLeDiff, Nat.le_refl]) only [ReplicaFile.header, ReplicaFile.kMagic, kCrcFieldOff,
    List.append_assoc, slice_skip, slice_head, length_le, List.length_cons, List.length_nil,
    Nat.reduceSub, Nat.reduceAdd, Nat.sub_self, Nat.zero_add]

theorem magic_header (m : ReplicaMeta) (rest : Bytes) :
    slice (ReplicaFile.header m ++ rest) 0 4 = ReplicaFile.kMagic := by
  simp only [ReplicaFile.header, List.append_assoc]
  exact slice_head rfl

theorem Storable.whole (h : Storable m) : ReplicaFile.whole (ReplicaFile.serialize m) = true := by
  obtain ⟨hkey, hext, hsup, hom⟩ := h.counts
  have hversion := version_serialize m
  have hpages := npages_serialize m
  have hlen := length_serialize m
  have hroom := crcField_le_image m
  have hstart := kHeaderSize_le_align8 m.key.length
  have hmagic : slice (ReplicaFile.serialize m) 0 4 = ReplicaFile.kMagic := by
    rw [ReplicaFile.slice_serialize m (.inl (by decide)), magic_header]
  have hsections : sections (ReplicaFile.serialize m) =
      { keyOff := kHeaderSize
        keyLen := m.key.length
        extOff := align8 (kHeaderSize + m.key.length)
        nExt := m.extents.length
        supOff := align8 (kHeaderSize + m.key.length) + m.extents.length * 24
        nSup := m.superseded.length
        omOff := align8 (kHeaderSize + m.key.length) + m.extents.length * 24 +
          m.superseded.length * 16
        nOrigMap := m.origMap.length
        crcsOff := align8 (kHeaderSize + m.key.length) + m.extents.length * 24 +
          m.superseded.length * 16 + m.origMap.length * kOrigRangeBytes
        npages := m.npages } := by
    simp only [sections, hversion, decide_true, if_true, hkey, hext, hsup, hom, hpages]
  have hlong : kHeaderSize ≤ (ReplicaFile.serialize m).length := by
    rw [hlen]
    omega
  refine (whole_iff _).2 ⟨Nat.le_trans (by decide) hlong, ⟨hmagic, ?_, ?_⟩, ⟨?_, ?_⟩, ?_⟩
  · exact .inl (decide_eq_true hversion)
  · exact fun hshort => absurd hshort.2 (Nat.not_lt.2 hlong)
  · simp only [limitsOk, hsections, Bool.and_eq_true, decide_eq_true_eq]
    exact ⟨⟨⟨h.key, h.extents⟩, h.superseded⟩, h.origMap⟩
  · rw [hsections, hlen]
    simp only [kOrigRangeBytes]
    omega
  · rw [serialize_eq]
    exact digest_patch hroom (crcField_zero m _)

/-- A stored value comes back. -/
theorem Storable.readImage (h : Storable m) :
    readImage (ReplicaFile.serialize m) = .ok m := by
  have hfields := fields_serialize h.fits h.whole
  have hok : ReplicaFile.deserialize (ReplicaFile.serialize m) = some m := by
    rw [ReplicaFile.deserialize, h.whole, hfields, h.consistent]
    rfl
  rw [readImage_eq, hok]

end Stored

/-! ### The image of version 1 -/

section VersionOne

variable {m : ReplicaMeta}

/-- Bytes 8 to 71 of the header, which both versions have. -/
def headerWords (m : ReplicaMeta) : Bytes :=
  le 4 m.flags ++ ([m.encoding, m.cksumKind, 0, 0] ++ (le 8 m.originSize ++ (le 8 m.originMtime ++
    (le 4 m.originCksum ++ (le 4 m.encoderVersion ++ (le 8 m.virtualSize ++ (le 8 m.tdataBytes ++
      (le 4 m.key.length ++ (le 4 m.extents.length ++ (le 4 m.superseded.length ++ le 4 0))))))))))

def bodyV1 (m : ReplicaMeta) : Bytes :=
  keySectionV1 m ++
    (m.extents.flatMap putExtent ++ (m.superseded.flatMap putRange ++ crcsSection m))

/-- The value a version 1 image stands for. -/
def withoutOrigMap (m : ReplicaMeta) : ReplicaMeta := { m with origMap := [] }

theorem length_headerWords (m : ReplicaMeta) : (headerWords m).length = 64 := by
  simp [headerWords]

theorem imageV1_eq (m : ReplicaMeta) : headerV1 kFormatVersionV1 m ++ bodyV1 m =
    (kMagic ++ le 4 kFormatVersionV1) ++ (headerWords m ++ bodyV1 m) := by
  simp only [headerV1, headerWords, List.append_assoc]

/-- The key is padded alike after either header: their lengths agree modulo eight. -/
theorem keySection_withoutOrigMap (m : ReplicaMeta) :
    ReplicaFile.keySection (withoutOrigMap m) = keySectionV1 m := by
  have hkey : (withoutOrigMap m).key = m.key := rfl
  have hpad : align8 (kHeaderSize + m.key.length) - (kHeaderSize + m.key.length) =
      align8 (kHeaderSizeV1 + m.key.length) - (kHeaderSizeV1 + m.key.length) := by
    simp only [align8, kHeaderSize, kHeaderSizeV1]
    omega
  rw [ReplicaFile.keySection, hkey, hpad, keySectionV1]

theorem body_withoutOrigMap (m : ReplicaMeta) : ReplicaFile.body (withoutOrigMap m) = bodyV1 m := by
  have hnone : (withoutOrigMap m).origMap.flatMap putOrigRange = [] := rfl
  have hextents : (withoutOrigMap m).extents = m.extents := rfl
  have hsuperseded : (withoutOrigMap m).superseded = m.superseded := rfl
  have hcrcs : crcsSection (withoutOrigMap m) = crcsSection m := rfl
  rw [ReplicaFile.body, bodyV1, keySection_withoutOrigMap, hcrcs, hnone, hextents, hsuperseded,
    List.nil_append]

/-- The image of this version has eight bytes more in its header, and the same after it. -/
theorem image_withoutOrigMap (m : ReplicaMeta) :
    ReplicaFile.header (withoutOrigMap m) ++ ReplicaFile.body (withoutOrigMap m) =
      (kMagic ++ le 4 kFormatVersion) ++ (headerWords m ++ ((le 4 0 ++ le 4 0) ++ bodyV1 m)) := by
  rw [body_withoutOrigMap]
  simp only [ReplicaFile.header, headerWords, withoutOrigMap, List.append_assoc, List.length_nil]

theorem crcField_le_imageV1 (m : ReplicaMeta) :
    kCrcFieldOff + 4 ≤ (headerV1 kFormatVersionV1 m ++ bodyV1 m).length := by
  simp only [imageV1_eq, List.length_append, length_headerWords, kCrcFieldOff, kMagic, length_le,
    List.length_cons, List.length_nil]
  omega

theorem slice_serializeV1 (m : ReplicaMeta)
    (hapart : off + n ≤ kCrcFieldOff ∨ kCrcFieldOff + 4 ≤ off) :
    slice (serializeV1 m) off n = slice (headerV1 kFormatVersionV1 m ++ bodyV1 m) off n :=
  slice_patch_apart (by rw [length_le]; exact crcField_le_imageV1 m) (by rwa [length_le])

theorem slice_words {start rest : Bytes} (m : ReplicaMeta) (hstart : start.length = 8)
    (hlo : 8 ≤ off) (hhi : off + n ≤ 72) :
    slice (start ++ (headerWords m ++ rest)) off n = slice (headerWords m) (off - 8) n := by
  have hwords := length_headerWords m
  rw [slice_skip (by omega), hstart, slice_append_left _ (by omega)]

/-- The words of the header are where they were. -/
theorem get_words (m : ReplicaMeta) (hlo : 8 ≤ off) (hhi : off + n ≤ kCrcFieldOff) :
    get (serializeV1 m) off n = get (ReplicaFile.serialize (withoutOrigMap m)) off n := by
  have hstart : ∀ v, (kMagic ++ le 4 v).length = 8 := fun v => by simp [kMagic]
  have hin : off + n ≤ 72 := Nat.le_trans hhi (by decide)
  rw [ReplicaFile.get, ReplicaFile.get, slice_serializeV1 m (.inl hhi),
    ReplicaFile.slice_serialize _ (.inl hhi), imageV1_eq, image_withoutOrigMap,
    slice_words m (hstart _) hlo hin, slice_words m (hstart _) hlo hin]

/-- What follows the header is eight bytes earlier. -/
theorem slice_tail (m : ReplicaMeta) (hlo : kHeaderSizeV1 ≤ off) :
    slice (serializeV1 m) off n = slice (ReplicaFile.serialize (withoutOrigMap m)) (off + 8) n := by
  have hwords := length_headerWords m
  have hstart : ∀ v, (kMagic ++ le 4 v).length = 8 := fun v => by simp [kMagic]
  have hpad : (le 4 0 ++ le 4 0 : Bytes).length = 8 := rfl
  simp only [kHeaderSizeV1] at hlo
  have happ : kCrcFieldOff + 4 ≤ off := hlo
  have hfar : 72 ≤ off + 8 := by omega
  rw [slice_serializeV1 m (.inr happ), ReplicaFile.slice_serialize _ (.inr hfar), imageV1_eq,
    image_withoutOrigMap, slice_skip (by rw [hstart]; omega),
    slice_skip (by rw [hwords, hstart]; omega),
    slice_skip (by rw [hstart]; omega), slice_skip (by rw [hwords, hstart]; omega),
    slice_skip (by rw [hwords, hstart, hpad]; omega), hstart, hstart, hwords, hpad,
    show off + 8 - 8 - 64 - 8 = off - 8 - 64 by omega]

theorem get_tail (m : ReplicaMeta) (hlo : kHeaderSizeV1 ≤ off) :
    get (serializeV1 m) off n = get (ReplicaFile.serialize (withoutOrigMap m)) (off + 8) n := by
  rw [ReplicaFile.get, ReplicaFile.get, slice_tail m hlo]

theorem version_serializeV1 (m : ReplicaMeta) : version (serializeV1 m) = kFormatVersionV1 := by
  have hword : slice (headerV1 kFormatVersionV1 m ++ bodyV1 m) 4 4 = le 4 kFormatVersionV1 := by
    rw [imageV1_eq, List.append_assoc, slice_skip (by decide)]
    exact slice_head (length_le 4 _)
  rw [version, ReplicaFile.get, slice_serializeV1 m (.inl (by decide)), hword, ofLe_le]
  rfl

theorem length_serializeV1 (m : ReplicaMeta) :
    (serializeV1 m).length + 8 = (ReplicaFile.serialize (withoutOrigMap m)).length := by
  have hlen : (serializeV1 m).length = (headerV1 kFormatVersionV1 m ++ bodyV1 m).length :=
    length_patch (by rw [length_le]; exact crcField_le_imageV1 m)
  have hlen' : (ReplicaFile.serialize (withoutOrigMap m)).length =
      (ReplicaFile.header (withoutOrigMap m) ++ ReplicaFile.body (withoutOrigMap m)).length := by
    rw [serialize_eq, length_patch (by rw [length_le]; exact crcField_le_image _)]
  rw [hlen, hlen', imageV1_eq, image_withoutOrigMap]
  simp only [List.length_append, length_le]
  omega

/-- Every section is eight bytes earlier, and there is no origin map. -/
theorem sections_serializeV1 (m : ReplicaMeta) :
    let g := sections (ReplicaFile.serialize (withoutOrigMap m))
    let g₁ := sections (serializeV1 m)
    (g₁.keyOff + 8 = g.keyOff ∧ g₁.extOff + 8 = g.extOff ∧ g₁.supOff + 8 = g.supOff ∧
        g₁.crcsOff + 8 = g.crcsOff) ∧
      (g₁.keyLen = g.keyLen ∧ g₁.nExt = g.nExt ∧ g₁.nSup = g.nSup ∧ g₁.npages = g.npages) ∧
        g₁.nOrigMap = 0 ∧ g.nOrigMap = 0 := by
  have hversions : ¬ kFormatVersionV1 = kFormatVersion := by decide
  obtain ⟨-, -, -, -, -, -, -, -, -, -, -, -, hcount⟩ :=
    ReplicaFile.slice_header (withoutOrigMap m) (ReplicaFile.body (withoutOrigMap m))
  have hnone : get (ReplicaFile.serialize (withoutOrigMap m)) kOrigMapCountOff 4 = 0 := by
    rw [get_serialize (show kOrigMapCountOff + 4 ≤ kCrcFieldOff ∨ _ from .inr (by decide)) hcount]
    rfl
  simp only [sections, version_serializeV1, version_serialize, hversions, decide_false, decide_true,
    Bool.false_eq_true, if_false, if_true, hnone,
    get_words m (show 8 ≤ 56 by decide) (show 56 + 4 ≤ kCrcFieldOff by decide),
    get_words m (show 8 ≤ 60 by decide) (show 60 + 4 ≤ kCrcFieldOff by decide),
    get_words m (show 8 ≤ 64 by decide) (show 64 + 4 ≤ kCrcFieldOff by decide),
    get_words m (show 8 ≤ 48 by decide) (show 48 + 8 ≤ kCrcFieldOff by decide), align8, kHeaderSize,
    kHeaderSizeV1, Nat.zero_mul, Nat.add_zero, true_and, and_true]
  omega

/-- The fields of the two images are the same. -/
theorem fields_serializeV1 (m : ReplicaMeta) :
    fields (serializeV1 m) = fields (ReplicaFile.serialize (withoutOrigMap m)) := by
  obtain ⟨⟨hkey, hext, hsup, hcrcs⟩, ⟨hkeyLen, hnExt, hnSup, hpages⟩, hnone, hnone'⟩ :=
    sections_serializeV1 m
  have hkeyOff : (sections (serializeV1 m)).keyOff = kHeaderSizeV1 := by
    have hversions : ¬ kFormatVersionV1 = kFormatVersion := by decide
    simp only [sections, version_serializeV1, hversions, decide_false, Bool.false_eq_true, if_false]
  obtain ⟨hextOff, hsupOff, homOff, hcrcsOff⟩ := sections_follow (serializeV1 m)
  rw [hkeyOff, align8] at hextOff
  have hbyte : ∀ i, 8 ≤ i → i < kCrcFieldOff → (serializeV1 m).getD i 0 =
      (ReplicaFile.serialize (withoutOrigMap m)).getD i 0 := by
    intro i hlo hhi
    have hstart : ∀ v, (kMagic ++ le 4 v).length = 8 := fun v => by simp [kMagic]
    have hone : slice (serializeV1 m) i 1 =
        slice (ReplicaFile.serialize (withoutOrigMap m)) i 1 := by
      rw [slice_serializeV1 m (.inl hhi), ReplicaFile.slice_serialize _ (.inl hhi), imageV1_eq,
        image_withoutOrigMap, slice_words m (hstart _) hlo (Nat.le_trans hhi (by decide)),
        slice_words m (hstart _) hlo (Nat.le_trans hhi (by decide))]
    have helem := congrArg (fun l => l[0]?) hone
    simp only [getElem?_slice, Nat.lt_one_iff, if_true, Nat.add_zero] at helem
    rw [List.getD_eq_getElem?_getD, List.getD_eq_getElem?_getD, helem]
  apply ReplicaMeta.ext
  case flags => simp only [fields, get_words m (show 8 ≤ 8 by decide) (show 8 + 4 ≤ _ by decide)]
  case encoding => simp only [fields, hbyte 12 (by decide) (by decide)]
  case encoderVersion =>
    simp only [fields, get_words m (show 8 ≤ 36 by decide) (show 36 + 4 ≤ _ by decide)]
  case originSize =>
    simp only [fields, get_words m (show 8 ≤ 16 by decide) (show 16 + 8 ≤ _ by decide)]
  case originMtime =>
    simp only [fields, get_words m (show 8 ≤ 24 by decide) (show 24 + 8 ≤ _ by decide)]
  case cksumKind => simp only [fields, hbyte 13 (by decide) (by decide)]
  case originCksum =>
    simp only [fields, get_words m (show 8 ≤ 32 by decide) (show 32 + 4 ≤ _ by decide)]
  case virtualSize =>
    simp only [fields, get_words m (show 8 ≤ 40 by decide) (show 40 + 8 ≤ _ by decide)]
  case tdataBytes =>
    simp only [fields, get_words m (show 8 ≤ 48 by decide) (show 48 + 8 ≤ _ by decide)]
  case key =>
    simp only [fields]
    rw [slice_tail m (Nat.le_of_eq hkeyOff.symm), hkey, hkeyLen]
  case extents =>
    simp only [fields, hnExt, ← hext]
    apply List.map_congr_left
    intro i _
    rw [get_tail m (by omega), get_tail m (by omega), get_tail m (by omega)]
    simp only [Nat.add_right_comm _ _ 8]
  case superseded =>
    simp only [fields, hnSup, ← hsup]
    apply List.map_congr_left
    intro i _
    rw [get_tail m (by omega), get_tail m (by omega)]
    simp only [Nat.add_right_comm _ _ 8]
  case origMap => simp only [fields, hnone, hnone', List.range_zero, List.map_nil]
  case pageCrcs =>
    simp only [fields, hpages, ← hcrcs]
    apply List.map_congr_left
    intro i _
    rw [get_tail m (by omega)]
    simp only [Nat.add_right_comm _ _ 8]

theorem Storable.withoutOrigMap (h : Storable m) : Storable (ReplicaCodec.withoutOrigMap m) where
  fits :=
    { words := h.fits.words
      sizes := h.fits.sizes
      extents := h.fits.extents
      superseded := h.fits.superseded
      origMap := fun _ hr => absurd hr List.not_mem_nil
      crcs := h.fits.crcs }
  key := h.key
  extents := h.extents
  superseded := h.superseded
  origMap := Nat.zero_le _
  consistent := h.consistent

theorem Storable.wholeV1 (h : Storable m) : ReplicaFile.whole (serializeV1 m) = true := by
  obtain ⟨hlen, -, ⟨hlimits, hsize⟩, -⟩ := (whole_iff _).1 h.withoutOrigMap.whole
  obtain ⟨⟨-, -, -, hcrcs⟩, ⟨hkeyLen, hnExt, hnSup, hpages⟩, hnone, -⟩ := sections_serializeV1 m
  have hshift := length_serializeV1 m
  have hroom := crcField_le_imageV1 m
  have hmagic : slice (serializeV1 m) 0 4 = ReplicaFile.kMagic := by
    rw [slice_serializeV1 m (.inl (by decide)), imageV1_eq, List.append_assoc]
    exact slice_head rfl
  have hzero : slice (headerV1 kFormatVersionV1 m ++ bodyV1 m) kCrcFieldOff 4 = le 4 0 := by
    have hold := crcField_zero (ReplicaCodec.withoutOrigMap m)
      (ReplicaFile.body (ReplicaCodec.withoutOrigMap m))
    have hstart : ∀ v, (kMagic ++ le 4 v).length = 8 := fun v => by simp [kMagic]
    rw [image_withoutOrigMap, slice_words m (hstart _) (by decide) (by decide)] at hold
    rw [imageV1_eq, slice_words m (hstart _) (by decide) (by decide), hold]
  have hversions : ¬ kFormatVersionV1 = kFormatVersion := by decide
  have hlong : kHeaderSizeV1 ≤ (serializeV1 m).length := by
    have hsame : (serializeV1 m).length = (headerV1 kFormatVersionV1 m ++ bodyV1 m).length :=
      length_patch (by rwa [length_le])
    rw [hsame]
    exact hroom
  refine (whole_iff _).2 ⟨hlong, ⟨hmagic, ?_, ?_⟩, ⟨?_, ?_⟩, digest_patch hroom hzero⟩
  · exact .inr (version_serializeV1 m)
  · rw [version_serializeV1]
    simp [hversions]
  · simp only [limitsOk, hkeyLen, hnExt, hnSup, hnone, Bool.and_eq_true, decide_eq_true_eq]
      at hlimits ⊢
    exact ⟨hlimits.1, Nat.zero_le _⟩
  · omega

/-- An image of version 1 is the value without its origin map. -/
theorem Storable.readImageV1 (h : Storable m) :
    ReplicaCodec.readImage (serializeV1 m) = .ok { m with origMap := [] } := by
  have hfields := fields_serialize h.withoutOrigMap.fits h.withoutOrigMap.whole
  have hok : ReplicaFile.deserialize (serializeV1 m) = some (ReplicaCodec.withoutOrigMap m) := by
    rw [ReplicaFile.deserialize, h.wholeV1, fields_serializeV1, hfields,
      h.withoutOrigMap.consistent]
    rfl
  rw [readImage_eq, hok]
  rfl

end VersionOne

/-! ### The codec -/

/-- What is served blindly once a sidecar is accepted. -/
structure Ordered (m : ReplicaMeta) : Prop where
  sorted : m.extents.Pairwise fun a b => a.virtOff + a.len ≤ b.virtOff
  nonempty : ∀ e ∈ m.extents, 0 < e.len
  inVirtual : ∀ e ∈ m.extents, e.virtOff + e.len ≤ m.virtualSize
  inPayload : ∀ e ∈ m.extents, e.tdataOff + e.len ≤ m.tdataBytes

theorem ExtentsFrom.pos {a : Nat} {extents : List Extent} (h : ExtentsFrom a extents) :
    ∀ e ∈ extents, 0 < e.len := by
  induction extents generalizing a with
  | nil => simp
  | cons e rest ih =>
      obtain ⟨-, hpos, hrest⟩ := h
      intro x hx
      rcases List.mem_cons.1 hx with rfl | hmem
      · exact hpos
      · exact ih hrest x hmem

theorem ordered_of_accepted {p : Bytes} {m : ReplicaMeta} (h : readImage p = .ok m) :
    Ordered m := by
  rw [readImage_eq] at h
  cases hsome : ReplicaFile.deserialize p with
  | none =>
      rw [hsome] at h
      cases h
  | some d =>
      rw [hsome] at h
      cases h
      have hok := ReplicaFile.deserialize_ok hsome
      exact
        { sorted := hok.ordered.pairwise
          nonempty := ExtentsFrom.pos hok.ordered
          inVirtual := fun e he => (hok.inside e he).1
          inPayload := fun e he => (hok.inside e he).2 }

/-- **The codec of a replica's sidecar**: a value that passes the reader's own checks comes back as
it was stored, and from an image of version 1 without its origin map; no byte string makes the
reader look outside of it, and what it accepts has its extents in order, apart, not empty, and inside the
stitched file and the payload. -/
theorem replica_codec :
    (∀ m, Storable m → readImage (ReplicaFile.serialize m) = .ok m ∧
      readImage (serializeV1 m) = .ok { m with origMap := [] }) ∧
    ∀ p, readImage p ≠ .error .wild ∧ ∀ m, readImage p = .ok m → Ordered m :=
  ⟨fun _ h => ⟨h.readImage, h.readImageV1⟩,
    fun p => ⟨readImage_ne_wild p, fun _ => ordered_of_accepted⟩⟩

/-- A replica with a patched window and an extension, and where the latter came from. -/
def twoExtents : ReplicaMeta :=
  { originSize := 1000
    virtualSize := 1500
    tdataBytes := 600
    key := [47, 97]
    extents := [⟨100, 50, 0⟩, ⟨1000, 500, 100⟩]
    superseded := [⟨200, 90⟩]
    origMap := [⟨1000, 500, 200, 90⟩]
    pageCrcs := [7] }

/-- A sidecar of two extents comes back. -/
theorem replica_codec_two_extents :
    readImage (ReplicaFile.serialize twoExtents) = .ok twoExtents ∧
      readImage (serializeV1 twoExtents) = .ok { twoExtents with origMap := [] } ∧
        Ordered twoExtents := by
  have hstored : Storable twoExtents :=
    { fits :=
        { words := by decide
          sizes := by decide
          extents := by decide
          superseded := by decide
          origMap := by decide
          crcs := by decide }
      key := by decide
      extents := by decide
      superseded := by decide
      origMap := by decide
      consistent := by decide }
  obtain ⟨hback, hback'⟩ := replica_codec.1 twoExtents hstored
  exact ⟨hback, hback', (replica_codec.2 _).2 _ hback⟩

end UCache.ReplicaCodec
