/-
Module: UCache.Core.ReplicaFile
Purpose: The sidecar of a replica: the ranges of the stitched file that come from its overlay, and
  the checks a sidecar passes before anything is served from it.
Trusted boundary: none
Main exports: Extent, ReplicaMeta, ReplicaFile.serialize
-/
import UCache.Core.MetaFile
import UCache.Lib.Bytes
import UCache.Lib.Endian

namespace UCache

open Lib

/-! ### The sidecar -/

/-- [SRC ReplicaFile.h:58-60] A range of the stitched file that is served from `.tdata`. -/
structure Extent where
  virtOff : Nat
  len : Nat
  tdataOff : Nat
deriving DecidableEq, Repr

def Extent.stop (e : Extent) : Nat := e.virtOff + e.len

/-- [SRC ReplicaFile.h:63-65] A range of the original that the overlay supersedes. -/
structure OriginRange where
  off : Nat
  len : Nat
deriving DecidableEq, Repr

/-- [SRC ReplicaFile.h:74-76] The original range whose content a range of the stitched file
carries. -/
structure OrigRange where
  virtOff : Nat
  len : Nat
  origOff : Nat
  origLen : Nat
deriving DecidableEq, Repr

/-- [SRC ReplicaFile.h:78-92] -/
@[ext] structure ReplicaMeta where
  flags : Nat := 0
  encoding : UInt8 := 1
  encoderVersion : Nat := 0
  originSize : Nat := 0
  originMtime : Nat := 0
  cksumKind : UInt8 := 0
  originCksum : Nat := 0
  virtualSize : Nat := 0
  tdataBytes : Nat := 0
  key : Bytes := []
  extents : List Extent := []
  superseded : List OriginRange := []
  origMap : List OrigRange := []
  pageCrcs : List UInt32 := []
deriving DecidableEq, Repr

/-- 64 KiB. -/
def kOverlayPageSize : Nat := 64 * 1024

/-- [SRC ReplicaFile.h:94-96] A 64-bit sum. -/
def ReplicaMeta.npages (m : ReplicaMeta) : Nat :=
  add64 m.tdataBytes (kOverlayPageSize - 1) / kOverlayPageSize

/-- [SRC ReplicaFile.h:98-102] The tail page may be short. -/
def ReplicaMeta.pageBytes (m : ReplicaMeta) (i : Nat) : Nat :=
  min (i * kOverlayPageSize + kOverlayPageSize) m.tdataBytes - i * kOverlayPageSize

/-- [SRC ReplicaFile.h:105-108] The bytes of the pages from `first` to `last`. -/
def ReplicaMeta.runBytes (m : ReplicaMeta) (first last : Nat) : Nat :=
  last * kOverlayPageSize + m.pageBytes last - first * kOverlayPageSize

namespace ReplicaFile

def kMagic : Bytes := [85, 67, 84, 82]

def kFormatVersion : Nat := 2

def kFormatVersionV1 : Nat := 1

def kHeaderSizeV1 : Nat := 72

def kHeaderSize : Nat := 80

def kOrigMapCountOff : Nat := 72

def kOrigRangeBytes : Nat := 32

def kMaxOrigMap : Nat := 2 ^ 22

def kCrcFieldOff : Nat := 68

def kMaxKeyLen : Nat := 64 * 1024

def kMaxExtents : Nat := 2 ^ 20

def kMaxSuperseded : Nat := 2 ^ 24

def align8 (n : Nat) : Nat := (n + 7) / 8 * 8

def putExtent (e : Extent) : Bytes := le 8 e.virtOff ++ le 8 e.len ++ le 8 e.tdataOff

def putRange (r : OriginRange) : Bytes := le 8 r.off ++ le 8 r.len

def putOrigRange (o : OrigRange) : Bytes :=
  le 8 o.virtOff ++ le 8 o.len ++ le 8 o.origOff ++ le 8 o.origLen

/-- [SRC ReplicaFile.cc:42-94] The image of a sidecar; CRCs that are missing stay zero. -/
def serialize (m : ReplicaMeta) : Bytes :=
  let header :=
    kMagic ++ le 4 kFormatVersion ++ le 4 m.flags ++ [m.encoding, m.cksumKind, 0, 0] ++
      le 8 m.originSize ++ le 8 m.originMtime ++ le 4 m.originCksum ++ le 4 m.encoderVersion ++
        le 8 m.virtualSize ++ le 8 m.tdataBytes ++ le 4 m.key.length ++ le 4 m.extents.length ++
          le 4 m.superseded.length ++ le 4 0 ++ le 4 m.origMap.length ++ le 4 0
  let key := m.key ++ List.replicate (align8 (kHeaderSize + m.key.length) -
    (kHeaderSize + m.key.length)) 0
  let crcs := (List.range m.npages).flatMap fun i => le 4 (m.pageCrcs.getD i 0).toNat
  let image := header ++ key ++ m.extents.flatMap putExtent ++ m.superseded.flatMap putRange ++
    m.origMap.flatMap putOrigRange ++ crcs
  patch image kCrcFieldOff (le 4 (crc32c image).toNat)

/-- An integer of `n` bytes at `off`. -/
def get (p : Bytes) (off n : Nat) : Nat := ofLe (slice p off n)

/-- [SRC ReplicaFile.cc:172-181] The extents are in order, apart, not empty, and inside the stitched
file and the overlay; the sums are of 64 bits. -/
def extentsOk (virtualSize tdataBytes : Nat) : Nat → List Extent → Bool
  | _, [] => true
  | prevEnd, e :: rest =>
      decide (e.len ≠ 0) && decide (prevEnd ≤ e.virtOff) &&
        decide (e.virtOff ≤ add64 e.virtOff e.len) &&
          decide (add64 e.virtOff e.len ≤ virtualSize) &&
            decide (e.tdataOff ≤ add64 e.tdataOff e.len) &&
              decide (add64 e.tdataOff e.len ≤ tdataBytes) &&
                extentsOk virtualSize tdataBytes (add64 e.virtOff e.len) rest

/-- [SRC ReplicaFile.cc:182-184] -/
def supersededOk (originSize : Nat) (r : OriginRange) : Bool :=
  decide (r.len ≠ 0) && decide (r.off ≤ add64 r.off r.len) &&
    decide (add64 r.off r.len ≤ originSize)

/-- [SRC ReplicaFile.cc:168-185] -/
def consistent (m : ReplicaMeta) : Bool :=
  decide (m.originSize ≤ m.virtualSize) && extentsOk m.virtualSize m.tdataBytes 0 m.extents &&
    m.superseded.all (supersededOk m.originSize)

/-- Where the sections of an image are. -/
structure Sections where
  keyOff : Nat
  keyLen : Nat
  extOff : Nat
  nExt : Nat
  supOff : Nat
  nSup : Nat
  omOff : Nat
  nOrigMap : Nat
  crcsOff : Nat
  npages : Nat

def version (p : Bytes) : Nat := get p 4 4

/-- [SRC ReplicaFile.cc:125-133] -/
def sections (p : Bytes) : Sections :=
  let v2 := decide (version p = kFormatVersion)
  let keyLen := get p 56 4
  let nExt := get p 60 4
  let nSup := get p 64 4
  let nOrigMap := if v2 then get p kOrigMapCountOff 4 else 0
  let keyOff := if v2 then kHeaderSize else kHeaderSizeV1
  let extOff := align8 (keyOff + keyLen)
  let supOff := extOff + nExt * 24
  let omOff := supOff + nSup * 16
  { keyOff := keyOff
    keyLen := keyLen
    extOff := extOff
    nExt := nExt
    supOff := supOff
    nSup := nSup
    omOff := omOff
    nOrigMap := nOrigMap
    crcsOff := omOff + nOrigMap * kOrigRangeBytes
    npages := add64 (get p 48 8) (kOverlayPageSize - 1) / kOverlayPageSize }

/-- [SRC ReplicaFile.cc:97-139] An image of a known version, as long as it says, and not torn. -/
def whole (p : Bytes) : Bool :=
  let g := sections p
  decide (kHeaderSizeV1 ≤ p.length) && decide (slice p 0 4 = kMagic) &&
    (decide (version p = kFormatVersionV1) ||
      decide (version p = kFormatVersion) && decide (kHeaderSize ≤ p.length)) &&
    decide (g.keyLen ≤ kMaxKeyLen) && decide (g.nExt ≤ kMaxExtents) &&
      decide (g.nSup ≤ kMaxSuperseded) && decide (g.nOrigMap ≤ kMaxOrigMap) &&
        decide (p.length = g.crcsOff + g.npages * 4) &&
          decide ((crc32c (patch p kCrcFieldOff [0, 0, 0, 0])).toNat = get p kCrcFieldOff 4)

/-- [SRC ReplicaFile.cc:106-166] The fields of an image. -/
def fields (p : Bytes) : ReplicaMeta :=
  let g := sections p
  { flags := get p 8 4
    encoding := p.getD 12 0
    encoderVersion := get p 36 4
    originSize := get p 16 8
    originMtime := get p 24 8
    cksumKind := p.getD 13 0
    originCksum := get p 32 4
    virtualSize := get p 40 8
    tdataBytes := get p 48 8
    key := slice p g.keyOff g.keyLen
    extents := (List.range g.nExt).map fun i =>
      { virtOff := get p (g.extOff + 24 * i) 8
        len := get p (g.extOff + 24 * i + 8) 8
        tdataOff := get p (g.extOff + 24 * i + 16) 8 }
    superseded := (List.range g.nSup).map fun i =>
      { off := get p (g.supOff + 16 * i) 8
        len := get p (g.supOff + 16 * i + 8) 8 }
    origMap := (List.range g.nOrigMap).map fun i =>
      { virtOff := get p (g.omOff + 32 * i) 8
        len := get p (g.omOff + 32 * i + 8) 8
        origOff := get p (g.omOff + 32 * i + 16) 8
        origLen := get p (g.omOff + 32 * i + 24) 8 }
    pageCrcs := (List.range g.npages).map fun i => UInt32.ofNat (get p (g.crcsOff + 4 * i) 4) }

/-- [SRC ReplicaFile.cc:96-186] What an image says; nothing when it is torn, of another version, or
lies about its geometry. -/
def deserialize (p : Bytes) : Option ReplicaMeta :=
  if whole p && consistent (fields p) then some (fields p) else none

end ReplicaFile

/-! ### What was accepted -/

variable {m : ReplicaMeta}

/-- The extents from `a` on: in order, apart and not empty. -/
def ExtentsFrom : Nat → List Extent → Prop
  | _, [] => True
  | a, e :: rest => a ≤ e.virtOff ∧ 0 < e.len ∧ ExtentsFrom e.stop rest

/-- A sidecar that can be served from. -/
structure ReplicaMeta.Ok (m : ReplicaMeta) : Prop where
  ordered : ExtentsFrom 0 m.extents
  inside : ∀ e ∈ m.extents, e.stop ≤ m.virtualSize ∧ e.tdataOff + e.len ≤ m.tdataBytes
  sizes : m.virtualSize < 2 ^ 64 ∧ m.tdataBytes < 2 ^ 64
  crcs : m.pageCrcs.length = m.npages

theorem extents_of_extentsOk {virtualSize tdataBytes : Nat} {extents : List Extent}
    (hfit : ∀ e ∈ extents, e.virtOff < 2 ^ 64 ∧ e.len < 2 ^ 64 ∧ e.tdataOff < 2 ^ 64) {prevEnd : Nat}
    (h : ReplicaFile.extentsOk virtualSize tdataBytes prevEnd extents = true) :
    ExtentsFrom prevEnd extents ∧
      ∀ e ∈ extents, e.stop ≤ virtualSize ∧ e.tdataOff + e.len ≤ tdataBytes := by
  induction extents generalizing prevEnd with
  | nil => exact ⟨trivial, by simp⟩
  | cons e rest ih =>
      obtain ⟨hvirt, hlen, htdata⟩ := hfit e (by simp)
      simp only [ReplicaFile.extentsOk, Bool.and_eq_true, decide_eq_true_eq] at h
      obtain ⟨⟨⟨⟨⟨⟨hne, hprev⟩, hwrap⟩, hinside⟩, htwrap⟩, htinside⟩, hrest⟩ := h
      have hstop : add64 e.virtOff e.len = e.stop := by
        unfold add64 Extent.stop at *
        omega
      have htstop : add64 e.tdataOff e.len = e.tdataOff + e.len := by
        unfold add64 at *
        omega
      rw [hstop] at hrest hinside
      rw [htstop] at htinside
      obtain ⟨hfrom, heach⟩ := ih (fun x hx => hfit x (by simp [hx])) hrest
      refine ⟨⟨hprev, by omega, hfrom⟩, ?_⟩
      intro x hx
      rcases List.mem_cons.1 hx with rfl | hmem
      · exact ⟨hinside, htinside⟩
      · exact heach x hmem

theorem ReplicaFile.get_lt (p : Bytes) (off n : Nat) : get p off n < 256 ^ n := by
  have hlt := ofLe_lt (slice p off n)
  have hle : (slice p off n).length ≤ n := by
    rw [length_slice]
    omega
  exact Nat.lt_of_lt_of_le hlt (Nat.pow_le_pow_right (by omega) hle)

/-- An image that is accepted describes a replica that can be served from. -/
theorem ReplicaFile.deserialize_ok {p : Bytes} (h : deserialize p = some m) : m.Ok := by
  have hget := get_lt p
  unfold deserialize at h
  split at h
  · rename_i hok
    cases h
    simp only [consistent, Bool.and_eq_true] at hok
    have hextents := extents_of_extentsOk (by
      intro e he
      obtain ⟨i, -, rfl⟩ := List.mem_map.1 he
      exact ⟨hget _ 8, hget _ 8, hget _ 8⟩) hok.2.1.2
    refine ⟨hextents.1, hextents.2, ⟨hget _ 8, hget _ 8⟩, ?_⟩
    simp only [fields, sections, List.length_map, List.length_range]
    rfl
  · cases h

/-! ### Round trip -/

/-- The fields fit their types, and there is a CRC for each page. -/
structure ReplicaMeta.Fits (m : ReplicaMeta) : Prop where
  words : m.flags < 2 ^ 32 ∧ m.encoderVersion < 2 ^ 32 ∧ m.originCksum < 2 ^ 32
  sizes : m.originSize < 2 ^ 64 ∧ m.originMtime < 2 ^ 64 ∧ m.virtualSize < 2 ^ 64 ∧
    m.tdataBytes < 2 ^ 64
  extents : ∀ e ∈ m.extents, e.virtOff < 2 ^ 64 ∧ e.len < 2 ^ 64 ∧ e.tdataOff < 2 ^ 64
  superseded : ∀ r ∈ m.superseded, r.off < 2 ^ 64 ∧ r.len < 2 ^ 64
  origMap : ∀ r ∈ m.origMap,
    r.virtOff < 2 ^ 64 ∧ r.len < 2 ^ 64 ∧ r.origOff < 2 ^ 64 ∧ r.origLen < 2 ^ 64
  crcs : m.pageCrcs.length = m.npages

namespace ReplicaFile

/-- The fixed part of an image, before its CRC is known. -/
def header (m : ReplicaMeta) : Bytes :=
  kMagic ++ le 4 kFormatVersion ++ le 4 m.flags ++ [m.encoding, m.cksumKind, 0, 0] ++
    le 8 m.originSize ++ le 8 m.originMtime ++ le 4 m.originCksum ++ le 4 m.encoderVersion ++
      le 8 m.virtualSize ++ le 8 m.tdataBytes ++ le 4 m.key.length ++ le 4 m.extents.length ++
        le 4 m.superseded.length ++ le 4 0 ++ le 4 m.origMap.length ++ le 4 0

/-- The key and the bytes up to the next multiple of eight. -/
def keySection (m : ReplicaMeta) : Bytes :=
  m.key ++ List.replicate (align8 (kHeaderSize + m.key.length) - (kHeaderSize + m.key.length)) 0

def crcsSection (m : ReplicaMeta) : Bytes :=
  (List.range m.npages).flatMap fun i => le 4 (m.pageCrcs.getD i 0).toNat

/-- What follows the fixed part. -/
def body (m : ReplicaMeta) : Bytes :=
  keySection m ++ (m.extents.flatMap putExtent ++ (m.superseded.flatMap putRange ++
    (m.origMap.flatMap putOrigRange ++ crcsSection m)))

theorem serialize_eq (m : ReplicaMeta) : serialize m =
    patch (header m ++ body m) kCrcFieldOff (le 4 (crc32c (header m ++ body m)).toNat) := by
  have himage : header m ++ body m = header m ++ keySection m ++ m.extents.flatMap putExtent ++
      m.superseded.flatMap putRange ++ m.origMap.flatMap putOrigRange ++ crcsSection m := by
    simp only [body, List.append_assoc]
  rw [himage]
  rfl

theorem length_header (m : ReplicaMeta) : (header m).length = kHeaderSize := by
  simp [header, kMagic, kHeaderSize]

theorem length_keySection (m : ReplicaMeta) :
    kHeaderSize + (keySection m).length = align8 (kHeaderSize + m.key.length) := by
  simp only [keySection, List.length_append, List.length_replicate, align8]
  omega

/-- The image reads as what was put together, the CRC aside. -/
theorem slice_serialize (m : ReplicaMeta) {off n : Nat}
    (h : off + n ≤ kCrcFieldOff ∨ kCrcFieldOff + 4 ≤ off) :
    slice (serialize m) off n = slice (header m ++ body m) off n := by
  have hlen := length_header m
  rw [serialize_eq]
  apply slice_patch_apart
  · rw [length_le, List.length_append, hlen]
    simp only [kCrcFieldOff, kHeaderSize]
    omega
  · rwa [length_le]

theorem length_serialize (m : ReplicaMeta) : (serialize m).length =
    align8 (kHeaderSize + m.key.length) + 24 * m.extents.length + 16 * m.superseded.length +
      32 * m.origMap.length + 4 * m.npages := by
  have hheader := length_header m
  have hkey := length_keySection m
  have hext : (m.extents.flatMap putExtent).length = 24 * m.extents.length := by
    simp [List.length_flatMap, putExtent, Nat.mul_comm]
  have hsup : (m.superseded.flatMap putRange).length = 16 * m.superseded.length := by
    simp [List.length_flatMap, putRange, Nat.mul_comm]
  have hom : (m.origMap.flatMap putOrigRange).length = 32 * m.origMap.length := by
    simp [List.length_flatMap, putOrigRange, Nat.mul_comm]
  have hcrcs : (crcsSection m).length = 4 * m.npages := by
    have hk : ∀ i ∈ List.range m.npages, (le 4 (m.pageCrcs.getD i 0).toNat).length = 4 :=
      fun _ _ => length_le 4 _
    rw [crcsSection, List.length_flatMap, List.map_congr_left hk, List.map_const',
      List.sum_replicate_nat, List.length_range, Nat.mul_comm]
  rw [serialize_eq, length_patch]
  · rw [body, List.length_append, List.length_append, List.length_append, List.length_append,
      List.length_append, hext, hsup, hom, hcrcs, hheader, ← hkey]
    generalize m.npages = pages
    omega
  · rw [length_le, List.length_append, hheader]
    simp only [kCrcFieldOff, kHeaderSize]
    omega

/-- The words of the fixed part. -/
theorem slice_header (m : ReplicaMeta) (rest : Bytes) :
    slice (header m ++ rest) 4 4 = le 4 kFormatVersion ∧
    slice (header m ++ rest) 8 4 = le 4 m.flags ∧
    slice (header m ++ rest) 12 4 = [m.encoding, m.cksumKind, 0, 0] ∧
    slice (header m ++ rest) 16 8 = le 8 m.originSize ∧
    slice (header m ++ rest) 24 8 = le 8 m.originMtime ∧
    slice (header m ++ rest) 32 4 = le 4 m.originCksum ∧
    slice (header m ++ rest) 36 4 = le 4 m.encoderVersion ∧
    slice (header m ++ rest) 40 8 = le 8 m.virtualSize ∧
    slice (header m ++ rest) 48 8 = le 8 m.tdataBytes ∧
    slice (header m ++ rest) 56 4 = le 4 m.key.length ∧
    slice (header m ++ rest) 60 4 = le 4 m.extents.length ∧
    slice (header m ++ rest) 64 4 = le 4 m.superseded.length ∧
    slice (header m ++ rest) 72 4 = le 4 m.origMap.length := by
  simp (disch := simp only [length_le, List.length_cons, List.length_nil, Nat.reduceAdd,
    Nat.reduceLeDiff, Nat.le_refl]) only [header, kMagic, List.append_assoc, slice_skip, slice_head,
    length_le, List.length_cons, List.length_nil, Nat.reduceSub, Nat.reduceAdd, Nat.sub_self,
    Nat.zero_add, and_self]


/-- A word of the fixed part, read from the image. -/
theorem get_serialize {off n v : Nat} (hapart : off + n ≤ kCrcFieldOff ∨ kCrcFieldOff + 4 ≤ off)
    (hword : slice (header m ++ body m) off n = le n v) :
    get (serialize m) off n = v % 256 ^ n := by
  rw [get, slice_serialize m hapart, hword, ofLe_le]

theorem version_serialize (m : ReplicaMeta) : version (serialize m) = kFormatVersion :=
  get_serialize (by decide) (slice_header m _).1

theorem npages_serialize (m : ReplicaMeta) :
    add64 (get (serialize m) 48 8) (kOverlayPageSize - 1) / kOverlayPageSize = m.npages := by
  obtain ⟨-, -, -, -, -, -, -, -, htdata, -⟩ := slice_header m (body m)
  have hwide : (256 : Nat) ^ 8 = 2 ^ 64 := by decide
  rw [get_serialize (by decide) htdata, ReplicaMeta.npages, add64, add64, hwide, Nat.mod_add_mod]

/-- An image that is accepted is as long as its counts say, so no count was cut. -/
theorem counts_serialize (h : whole (serialize m) = true) :
    get (serialize m) 56 4 = m.key.length ∧ get (serialize m) 60 4 = m.extents.length ∧
      get (serialize m) 64 4 = m.superseded.length ∧
        get (serialize m) kOrigMapCountOff 4 = m.origMap.length := by
  obtain ⟨-, -, -, -, -, -, -, -, -, hkey, hext, hsup, hom⟩ := slice_header m (body m)
  have hkey' := get_serialize (by decide) hkey
  have hext' := get_serialize (by decide) hext
  have hsup' := get_serialize (by decide) hsup
  have hom' : get (serialize m) kOrigMapCountOff 4 = m.origMap.length % 256 ^ 4 :=
    get_serialize (by decide) hom
  have hlen := length_serialize m
  simp only [whole, sections, version_serialize, Bool.and_eq_true, decide_eq_true_eq, if_true]
    at h
  have hsize := h.1.2
  rw [npages_serialize, hkey', hext', hsup', hom', hlen] at hsize
  rw [hkey', hext', hsup', hom']
  generalize m.npages = pages at hsize
  simp only [align8, kHeaderSize, kOrigRangeBytes] at hsize
  omega


theorem slice_key (m : ReplicaMeta) :
    slice (serialize m) kHeaderSize m.key.length = m.key := by
  rw [slice_serialize m (Or.inr (by decide)), ← length_header m,
    ← Nat.add_zero (header m).length, slice_append_right, body, keySection, List.append_assoc,
    slice_head rfl]

/-- A number in record `i` of the section at `base`. -/
theorem get_section {β : Type} {m : ReplicaMeta} {a c : Bytes} {enc : β → Bytes} {k base : Nat}
    {l : List β} (himage : header m ++ body m = a ++ (l.flatMap enc ++ c)) (ha : a.length = base)
    (hbase : kHeaderSize ≤ base) (hk : ∀ x, (enc x).length = k) {i : Nat} {x : β}
    (hi : l[i]? = some x) {off n v : Nat} (hoff : off + n ≤ k) (hv : slice (enc x) off n = le n v) :
    get (serialize m) (base + k * i + off) n = v % 256 ^ n := by
  have hapart : kCrcFieldOff + 4 ≤ base + k * i + off := by
    simp only [kCrcFieldOff, kHeaderSize] at *
    omega
  rw [get, slice_serialize m (Or.inr hapart), himage, ← slice_slice hoff, ← ha,
    slice_section hk hi, hv, ofLe_le]

/-- Where the sections of an image that is accepted are. -/
theorem sections_serialize (h : whole (serialize m) = true) :
    sections (serialize m) =
      let extOff := align8 (kHeaderSize + m.key.length)
      { keyOff := kHeaderSize
        keyLen := m.key.length
        extOff := extOff
        nExt := m.extents.length
        supOff := extOff + m.extents.length * 24
        nSup := m.superseded.length
        omOff := extOff + m.extents.length * 24 + m.superseded.length * 16
        nOrigMap := m.origMap.length
        crcsOff := extOff + m.extents.length * 24 + m.superseded.length * 16 +
          m.origMap.length * kOrigRangeBytes
        npages := m.npages } := by
  obtain ⟨hkey, hext, hsup, hom⟩ := counts_serialize h
  have hnpages := npages_serialize m
  simp only [sections, version_serialize, decide_true, if_true, hkey, hext, hsup, hom, hnpages]

theorem length_extents (m : ReplicaMeta) :
    (header m ++ keySection m).length = align8 (kHeaderSize + m.key.length) := by
  rw [List.length_append, length_header, length_keySection]

theorem length_superseded (m : ReplicaMeta) :
    (header m ++ keySection m ++ m.extents.flatMap putExtent).length =
      align8 (kHeaderSize + m.key.length) + m.extents.length * 24 := by
  rw [List.length_append, length_extents]
  simp [List.length_flatMap, putExtent]

theorem length_origMap (m : ReplicaMeta) :
    (header m ++ keySection m ++ m.extents.flatMap putExtent ++
      m.superseded.flatMap putRange).length =
        align8 (kHeaderSize + m.key.length) + m.extents.length * 24 +
          m.superseded.length * 16 := by
  rw [List.length_append, length_superseded]
  simp [List.length_flatMap, putRange]

theorem length_crcs (m : ReplicaMeta) :
    (header m ++ keySection m ++ m.extents.flatMap putExtent ++ m.superseded.flatMap putRange ++
      m.origMap.flatMap putOrigRange).length =
        align8 (kHeaderSize + m.key.length) + m.extents.length * 24 + m.superseded.length * 16 +
          m.origMap.length * kOrigRangeBytes := by
  rw [List.length_append, length_origMap]
  simp [List.length_flatMap, putOrigRange, kOrigRangeBytes]

theorem kHeaderSize_le_align8 (n : Nat) : kHeaderSize ≤ align8 (kHeaderSize + n) := by
  simp only [align8, kHeaderSize]
  omega

/-- The lists of an image that is accepted are the ones that were put in. -/
theorem lists_serialize (hfit : m.Fits) (h : whole (serialize m) = true) :
    (fields (serialize m)).extents = m.extents ∧
      (fields (serialize m)).superseded = m.superseded ∧
        (fields (serialize m)).origMap = m.origMap ∧
          (fields (serialize m)).pageCrcs = m.pageCrcs := by
  have hstart := kHeaderSize_le_align8 m.key.length
  have hwide : (256 : Nat) ^ 8 = 2 ^ 64 := by decide
  simp only [fields, sections_serialize h]
  refine ⟨map_range_eq ?_, map_range_eq ?_, map_range_eq ?_, ?_⟩
  · intro i e hi
    have hget := @get_section _ m _ (m.superseded.flatMap putRange ++
      (m.origMap.flatMap putOrigRange ++ crcsSection m)) putExtent 24 _ m.extents
      (by simp only [body, List.append_assoc]) (length_extents m) hstart (fun _ => rfl) i e hi
    have hparts : slice (putExtent e) 0 8 = le 8 e.virtOff ∧
        slice (putExtent e) 8 8 = le 8 e.len ∧ slice (putExtent e) 16 8 = le 8 e.tdataOff := by
      simp (disch := simp) [putExtent, slice_skip, slice_head, slice_all]
    obtain ⟨hvirt, hlen, htdata⟩ := hfit.extents e (List.mem_of_getElem? hi)
    have h0 := hget (by omega) hparts.1
    rw [Nat.add_zero] at h0
    rw [h0, hget (by omega) hparts.2.1, hget (by omega) hparts.2.2, hwide, Nat.mod_eq_of_lt hvirt,
      Nat.mod_eq_of_lt hlen, Nat.mod_eq_of_lt htdata]
  · intro i r hi
    have hget := @get_section _ m _ (m.origMap.flatMap putOrigRange ++ crcsSection m) putRange 16 _
      m.superseded (by simp only [body, List.append_assoc]) (length_superseded m) (by omega)
      (fun _ => rfl) i r hi
    have hparts : slice (putRange r) 0 8 = le 8 r.off ∧ slice (putRange r) 8 8 = le 8 r.len := by
      simp (disch := simp) [putRange, slice_skip, slice_head, slice_all]
    obtain ⟨hoff, hlen⟩ := hfit.superseded r (List.mem_of_getElem? hi)
    have h0 := hget (by omega) hparts.1
    rw [Nat.add_zero] at h0
    rw [h0, hget (by omega) hparts.2, hwide, Nat.mod_eq_of_lt hoff, Nat.mod_eq_of_lt hlen]
  · intro i r hi
    have hget := @get_section _ m _ (crcsSection m) putOrigRange 32 _ m.origMap
      (by simp only [body, List.append_assoc]) (length_origMap m) (by omega) (fun _ => rfl) i r hi
    have hparts : slice (putOrigRange r) 0 8 = le 8 r.virtOff ∧
        slice (putOrigRange r) 8 8 = le 8 r.len ∧ slice (putOrigRange r) 16 8 = le 8 r.origOff ∧
          slice (putOrigRange r) 24 8 = le 8 r.origLen := by
      simp (disch := simp) [putOrigRange, slice_skip, slice_head, slice_all]
    obtain ⟨hvirt, hlen, hoff, horig⟩ := hfit.origMap r (List.mem_of_getElem? hi)
    have h0 := hget (by omega) hparts.1
    rw [Nat.add_zero] at h0
    rw [h0, hget (by omega) hparts.2.1, hget (by omega) hparts.2.2.1, hget (by omega) hparts.2.2.2,
      hwide, Nat.mod_eq_of_lt hvirt, Nat.mod_eq_of_lt hlen, Nat.mod_eq_of_lt hoff,
      Nat.mod_eq_of_lt horig]
  · rw [← hfit.crcs]
    apply map_range_eq
    intro i x hi
    have hlt : i < m.npages := by
      rw [← hfit.crcs]
      exact (List.getElem?_eq_some_iff.1 hi).1
    have hget := @get_section _ m _ [] (fun i => le 4 (m.pageCrcs.getD i 0).toNat) 4 _
      (List.range m.npages) (by simp only [body, crcsSection, List.append_assoc, List.append_nil])
      (length_crcs m) (by omega) (fun _ => rfl) i i (by simp [hlt]) 0 4 _ (by omega)
      (by rw [List.getD_eq_getElem?_getD, hi]; exact slice_self (le 4 x.toNat))
    rw [Nat.add_zero] at hget
    rw [hget, Nat.mod_eq_of_lt (show x.toNat < 256 ^ 4 from x.toNat_lt), UInt32.ofNat_toNat]

theorem fields_serialize (hfit : m.Fits) (h : whole (serialize m) = true) :
    fields (serialize m) = m := by
  obtain ⟨-, hflags, hbytes, hsize, hmtime, hcksum, hver, hvirt, htdata, -⟩ :=
    slice_header m (body m)
  obtain ⟨hext, hsup, hom, hcrcs⟩ := lists_serialize hfit h
  have hword : ∀ {off v : Nat}, off + 4 ≤ kCrcFieldOff ∨ kCrcFieldOff + 4 ≤ off →
      slice (header m ++ body m) off 4 = le 4 v → v < 2 ^ 32 → get (serialize m) off 4 = v := by
    intro off v hapart hslice hlt
    rw [get_serialize hapart hslice, Nat.mod_eq_of_lt (show v < 256 ^ 4 from hlt)]
  have hwide : ∀ {off v : Nat}, off + 8 ≤ kCrcFieldOff ∨ kCrcFieldOff + 4 ≤ off →
      slice (header m ++ body m) off 8 = le 8 v → v < 2 ^ 64 → get (serialize m) off 8 = v := by
    intro off v hapart hslice hlt
    rw [get_serialize hapart hslice, Nat.mod_eq_of_lt (show v < 256 ^ 8 from hlt)]
  have hbyte : ∀ {k off : Nat}, 12 + k = off → k < 4 →
      (serialize m)[off]? = [m.encoding, m.cksumKind, 0, 0][k]? := by
    intro k off hoff hk
    rw [← hbytes, ← slice_serialize m (by decide), getElem?_slice, if_pos hk, hoff]
  have hkey : (fields (serialize m)).key = m.key := by
    simp only [fields, sections_serialize h]
    exact slice_key m
  have hflags := hword (by decide) hflags hfit.words.1
  have hver := hword (by decide) hver hfit.words.2.1
  have hcksum := hword (by decide) hcksum hfit.words.2.2
  have hsize := hwide (by decide) hsize hfit.sizes.1
  have hmtime := hwide (by decide) hmtime hfit.sizes.2.1
  have hvirt := hwide (by decide) hvirt hfit.sizes.2.2.1
  have htdata := hwide (by decide) htdata hfit.sizes.2.2.2
  have hencoding := hbyte (rfl : 12 + 0 = 12) (by omega)
  have hkind := hbyte (rfl : 12 + 1 = 13) (by omega)
  apply ReplicaMeta.ext
  case flags => simp only [fields, hflags]
  case encoderVersion => simp only [fields, hver]
  case originCksum => simp only [fields, hcksum]
  case originSize => simp only [fields, hsize]
  case originMtime => simp only [fields, hmtime]
  case virtualSize => simp only [fields, hvirt]
  case tdataBytes => simp only [fields, htdata]
  case encoding => simp [fields, hencoding]
  case cksumKind => simp [fields, hkind]
  case key => exact hkey
  case extents => exact hext
  case superseded => exact hsup
  case origMap => exact hom
  case pageCrcs => exact hcrcs

/-- **The sidecar comes back as it was stored**, when it is accepted. -/
theorem deserialize_serialize (hfit : m.Fits) (h : (deserialize (serialize m)).isSome) :
    deserialize (serialize m) = some m := by
  unfold deserialize at h ⊢
  split at h
  · rename_i hok
    rw [if_pos hok]
    rw [Bool.and_eq_true] at hok
    rw [fields_serialize hfit hok.1]
  · cases h

end ReplicaFile
end UCache
