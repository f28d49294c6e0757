/-
Module: UCache.Core.MetaImage
Purpose: The bytes of a sidecar: what a store writes for a metadata value, which images a load
  accepts, and that an accepted image gives back what was stored.
Trusted boundary: none
Main exports: MetaFile.serialize, MetaFile.deserialize, MetaFile.loadImage
-/
import UCache.Core.Sidecar
import UCache.Lib.Bytes
import UCache.Lib.Endian

namespace UCache

open Lib

/-! ### The bitmap as bytes -/

/-- Byte `j` of `bits_`. -/
def PageBitmap.rawByte (b : PageBitmap) (j : Nat) : UInt8 :=
  UInt8.ofNat (Nat.ofBits fun k : Fin 8 => b.get (8 * j + k))

/-- [SRC PageBitmap.h:29] Bit `i` of the bytes that were copied into `bits_`. -/
def PageBitmap.rawBit (raw : Bytes) (i : Nat) : Bool := (raw.getD (i / 8) 0).toNat.testBit (i % 8)

theorem PageBitmap.testBit_rawByte (b : PageBitmap) (j : Nat) {k : Nat} (hk : k < 8) :
    (b.rawByte j).toNat.testBit k = b.get (8 * j + k) := by
  have hlt : (Nat.ofBits fun k : Fin 8 => b.get (8 * j + k)) < 2 ^ 8 := Nat.ofBits_lt_two_pow _
  rw [rawByte, UInt8.toNat_ofNat', Nat.mod_eq_of_lt hlt, Nat.testBit_ofBits_lt _ _ hk]

/-- Every bit comes back from the bytes. -/
theorem PageBitmap.rawBit_raw (b : PageBitmap) {n i : Nat} (hi : i / 8 < n) :
    rawBit ((List.range n).map b.rawByte) i = b.get i := by
  have hbyte : ((List.range n).map b.rawByte).getD (i / 8) 0 = b.rawByte (i / 8) := by
    simp [List.getD_eq_getElem?_getD, hi]
  rw [rawBit, hbyte, b.testBit_rawByte _ (Nat.mod_lt i (by decide)), Nat.div_add_mod]

namespace MetaFile

/-! ### The image -/

def kMagic : Bytes := [85, 67, 65, 67]

def kFormatVersion : Nat := 1

def kHeaderSize : Nat := 56

def kCrcFieldOff : Nat := 52

/-- [SRC MetaFile.h:27-28] `kFlagPinned` and `kFlagComplete`. -/
def flags (m : MetaData) : Nat := (if m.pinned then 1 else 0) + (if m.complete then 2 else 0)

def header (m : MetaData) : Bytes :=
  kMagic ++ (le 4 kFormatVersion ++ (le 4 m.pageSize ++ (le 4 (flags m) ++ (le 8 m.fileSize ++
    (le 8 m.atime ++ (le 8 m.originMtime ++ (le 1 m.cksumKind ++ ([0, 0, 0] ++
      (le 4 m.originCksum ++ (le 4 m.key.length ++ le 4 0))))))))))

def keySection (m : MetaData) : Bytes :=
  m.key ++ List.replicate (align8 (kHeaderSize + m.key.length) - (kHeaderSize + m.key.length)) 0

/-- The bitmap has a bit for every page: `fresh` and `deserialize` give it that size. -/
def bitmapSection (m : MetaData) : Bytes := (List.range ((m.npages + 7) / 8)).map m.bitmap.rawByte

/-- A table of another length than the pages is not written. -/
def crcSection (m : MetaData) : Bytes :=
  (List.range m.npages).flatMap fun i =>
    le 4 (if m.ncrcs = m.npages then (m.pageCrcs i).toNat else 0)

def body (m : MetaData) : Bytes := keySection m ++ (bitmapSection m ++ crcSection m)

/-- [SRC MetaFile.cc:55-83] -/
def serialize (m : MetaData) : Bytes :=
  let image := header m ++ body m
  patch image kCrcFieldOff (le 4 (crc32c image).toNat)

/-- An integer of `n` bytes at `off`. -/
def get (p : Bytes) (off n : Nat) : Nat := ofLe (slice p off n)

/-- [SRC MetaFile.h:42-44] The pages an image is for: a 64-bit sum. -/
def imagePages (p : Bytes) : Nat :=
  if get p 8 4 = 0 then 0 else add64 (get p 16 8) (get p 8 4 - 1) / get p 8 4

def bitmapOff (p : Bytes) : Nat := align8 (kHeaderSize + get p 48 4)

def crcsOff (p : Bytes) : Nat := bitmapOff p + add64 (imagePages p) 7 / 8

/-- [SRC MetaFile.cc:86-117] An image of this version, as long as it says, and not torn. -/
def whole (p : Bytes) : Bool :=
  decide (kHeaderSize ≤ p.length) && decide (slice p 0 4 = kMagic) &&
    decide (get p 4 4 = kFormatVersion) &&
      decide (get p 8 4 ≠ 0) && decide (get p 8 4 &&& (get p 8 4 - 1) = 0) &&
        decide (p.length = (crcsOff p + imagePages p * 4) % 2 ^ 64) &&
          decide (get p 48 4 ≤ 64 * 1024) &&
            decide ((crc32c (patch p kCrcFieldOff [0, 0, 0, 0])).toNat = get p kCrcFieldOff 4)

/-- [SRC MetaFile.cc:91-126] The fields of an image. -/
def fields (p : Bytes) : MetaData :=
  let raw := slice p (bitmapOff p) (add64 (imagePages p) 7 / 8)
  let bitmap : PageBitmap :=
    { npages := imagePages p, bit := PageBitmap.rawBit raw, count := 0 }
  { pageSize := get p 8 4
    pinned := (get p 12 4).testBit 0
    complete := (get p 12 4).testBit 1
    fileSize := get p 16 8
    atime := get p 24 8
    originMtime := get p 32 8
    cksumKind := get p 40 1
    originCksum := get p 44 4
    key := slice p kHeaderSize (get p 48 4)
    bitmap := bitmap.recount
    pageCrcs := fun i => UInt32.ofNat (get p (crcsOff p + 4 * i) 4)
    ncrcs := imagePages p }

/-- [SRC MetaFile.cc:85-127] -/
def deserialize (p : Bytes) : Option MetaData := if whole p then some (fields p) else none

/-- [SRC MetaFile.cc:184-199] The sidecar file, read whole: an empty one and one of more than 2 GiB
are refused unread. -/
def loadImage (image : Option Bytes) : Option MetaData :=
  image.bind fun p => if 0 < p.length ∧ p.length ≤ 2 ^ 31 then deserialize p else none

/-! ### What was stored comes back -/

variable {m : MetaData}

theorem length_header (m : MetaData) : (header m).length = kHeaderSize := by
  simp [header, kMagic, kHeaderSize]

theorem length_keySection (m : MetaData) :
    kHeaderSize + (keySection m).length = align8 (kHeaderSize + m.key.length) := by
  simp only [keySection, List.length_append, List.length_replicate, align8]
  omega

theorem length_bitmapSection (m : MetaData) : (bitmapSection m).length = (m.npages + 7) / 8 := by
  simp [bitmapSection]

theorem length_crcSection (m : MetaData) : (crcSection m).length = m.npages * 4 := by
  simp [crcSection, List.length_flatMap]

theorem length_image (m : MetaData) : (header m ++ body m).length = imageSize m := by
  have hkey := length_keySection m
  rw [imageSize, body, List.length_append, List.length_append, List.length_append, length_header,
    length_bitmapSection, length_crcSection]
  simp only [kHeaderSize] at *
  omega

theorem crcField_le_imageSize (m : MetaData) : kCrcFieldOff + 4 ≤ imageSize m := by
  simp only [imageSize, kCrcFieldOff, align8]
  omega

theorem length_serialize (m : MetaData) : (serialize m).length = imageSize m := by
  have hroom := crcField_le_imageSize m
  rw [serialize, length_patch (by rwa [length_le, length_image]), length_image]

/-- The digest changes its own field only. -/
theorem slice_serialize (m : MetaData) {off n : Nat}
    (hapart : off + n ≤ kCrcFieldOff ∨ kCrcFieldOff + 4 ≤ off) :
    slice (serialize m) off n = slice (header m ++ body m) off n := by
  have hroom := crcField_le_imageSize m
  exact slice_patch_apart (by rwa [length_le, length_image]) (by rwa [length_le])

/-- The words of the fixed part. -/
theorem slice_header (m : MetaData) (rest : Bytes) :
    slice (header m ++ rest) 0 4 = kMagic ∧
    slice (header m ++ rest) 4 4 = le 4 kFormatVersion ∧
    slice (header m ++ rest) 8 4 = le 4 m.pageSize ∧
    slice (header m ++ rest) 12 4 = le 4 (flags m) ∧
    slice (header m ++ rest) 16 8 = le 8 m.fileSize ∧
    slice (header m ++ rest) 32 8 = le 8 m.originMtime ∧
    slice (header m ++ rest) 40 1 = le 1 m.cksumKind ∧
    slice (header m ++ rest) 44 4 = le 4 m.originCksum ∧
    slice (header m ++ rest) 48 4 = le 4 m.key.length ∧
    slice (header m ++ rest) 52 4 = le 4 0 := by
  simp (disch := simp only [length_le, List.length_cons, List.length_nil, Nat.reduceAdd,
    Nat.reduceLeDiff, Nat.le_refl]) only [header, kMagic, List.append_assoc, slice_skip, slice_head,
    length_le, List.length_cons, List.length_nil, Nat.reduceSub, Nat.reduceAdd, Nat.sub_self,
    Nat.zero_add, and_self]

/-- A word of the fixed part, read from the image. -/
theorem get_serialize {off n v : Nat} (hapart : off + n ≤ kCrcFieldOff ∨ kCrcFieldOff + 4 ≤ off)
    (hword : slice (header m ++ body m) off n = le n v) :
    get (serialize m) off n = v % 256 ^ n := by
  rw [get, slice_serialize m hapart, hword, ofLe_le]

/-- The digest of the image, its own field zeroed, is the one it was stored with. -/
theorem digest_serialize (m : MetaData) :
    (crc32c (patch (serialize m) kCrcFieldOff [0, 0, 0, 0])).toNat =
      get (serialize m) kCrcFieldOff 4 := by
  have hroom := crcField_le_imageSize m
  obtain ⟨-, -, -, -, -, -, -, -, -, hzero⟩ := slice_header m (body m)
  have himage : patch (serialize m) kCrcFieldOff [0, 0, 0, 0] = header m ++ body m :=
    patch_restore (by rwa [length_le, length_image]) hzero
  have hfield : slice (serialize m) kCrcFieldOff 4 = le 4 (crc32c (header m ++ body m)).toNat := by
    have hsame := @slice_patch_same _ (header m ++ body m) kCrcFieldOff
      (le 4 (crc32c (header m ++ body m)).toNat) (by rwa [length_le, length_image])
    rwa [length_le] at hsame
  rw [himage, get, hfield, ofLe_le,
    Nat.mod_eq_of_lt (show _ < 256 ^ 4 from UInt32.toNat_lt _)]

/-- Metadata whose fields are in the range of their C++ types, for a file that the data file can be
extended to, with a CRC for every page. -/
structure Fits (m : MetaData) : Prop where
  pageSize : Config.validPageSize m.pageSize = true
  fileSize : m.fileSize < 2 ^ 63
  originMtime : m.originMtime < 2 ^ 64
  cksumKind : m.cksumKind < 2 ^ 8
  originCksum : m.originCksum < 2 ^ 32
  ncrcs : m.ncrcs = m.npages

theorem validPageSize_iff {p : Nat} : Config.validPageSize p = true ↔
    4096 ≤ p ∧ p ≤ 2 ^ 20 ∧ p &&& (p - 1) = 0 := by
  simp only [Config.validPageSize, Bool.and_eq_true, decide_eq_true_eq, and_assoc]

theorem Fits.npages_le (h : Fits m) : m.npages ≤ 2 ^ 51 := by
  obtain ⟨hlo, -, -⟩ := validPageSize_iff.1 h.pageSize
  have hsize := h.fileSize
  rw [MetaData.npages, MetaData.pagesOf, if_neg (by omega)]
  apply Nat.le_of_lt_succ
  rw [Nat.div_lt_iff_lt_mul (by omega)]
  calc m.fileSize + m.pageSize - 1 < 2 ^ 63 + m.pageSize := by omega
    _ ≤ 2 ^ 51 * m.pageSize + m.pageSize := by omega
    _ = (2 ^ 51 + 1) * m.pageSize := by rw [Nat.succ_mul]

theorem pageSize_serialize (h : Fits m) : get (serialize m) 8 4 = m.pageSize := by
  obtain ⟨-, -, hword, -⟩ := slice_header m (body m)
  obtain ⟨-, hhi, -⟩ := validPageSize_iff.1 h.pageSize
  rw [get_serialize (by decide) hword, Nat.mod_eq_of_lt (by omega)]

theorem fileSize_serialize (h : Fits m) : get (serialize m) 16 8 = m.fileSize := by
  obtain ⟨-, -, -, -, hword, -⟩ := slice_header m (body m)
  have hsize := h.fileSize
  rw [get_serialize (by decide) hword, Nat.mod_eq_of_lt (by omega)]

/-- The length of the key is stored in 32 bits. -/
theorem keyLen_serialize (m : MetaData) : get (serialize m) 48 4 = m.key.length % 2 ^ 32 := by
  obtain ⟨-, -, -, -, -, -, -, -, hword, -⟩ := slice_header m (body m)
  exact get_serialize (by decide) hword

theorem imagePages_serialize (h : Fits m) : imagePages (serialize m) = m.npages := by
  obtain ⟨hlo, hhi, -⟩ := validPageSize_iff.1 h.pageSize
  have hsize := h.fileSize
  have hsum : m.fileSize + m.pageSize - 1 = m.fileSize + (m.pageSize - 1) := by omega
  have hwide : m.fileSize + (m.pageSize - 1) < 2 ^ 64 := by omega
  rw [imagePages, pageSize_serialize h, fileSize_serialize h, if_neg (by omega), add64,
    Nat.mod_eq_of_lt hwide, MetaData.npages, MetaData.pagesOf, if_neg (by omega), hsum]

theorem crcsOff_serialize (h : Fits m) : crcsOff (serialize m) =
    align8 (kHeaderSize + m.key.length % 2 ^ 32) + (m.npages + 7) / 8 := by
  have hpages := h.npages_le
  have hwide : m.npages + 7 < 2 ^ 64 := by omega
  rw [crcsOff, bitmapOff, keyLen_serialize, imagePages_serialize h, add64, Nat.mod_eq_of_lt hwide]

/-- An image is refused for its key alone: the length is above 64 KiB, or was cut to 32 bits and does
not match the size of the image. -/
theorem whole_serialize (h : Fits m) : whole (serialize m) = true ↔ m.key.length ≤ 64 * 1024 := by
  obtain ⟨hmagic, hversion, -⟩ := slice_header m (body m)
  obtain ⟨hlo, hhi, hpow⟩ := validPageSize_iff.1 h.pageSize
  have hpages := h.npages_le
  have hheader : kHeaderSize ≤ imageSize m := crcField_le_imageSize m
  have hmagic' : slice (serialize m) 0 4 = kMagic := by
    rw [slice_serialize m (by decide), hmagic]
  have hversion' : get (serialize m) 4 4 = kFormatVersion := get_serialize (by decide) hversion
  have hsize : imageSize m = (crcsOff (serialize m) + imagePages (serialize m) * 4) % 2 ^ 64 ↔
      align8 (kHeaderSize + m.key.length) = align8 (kHeaderSize + m.key.length % 2 ^ 32) := by
    rw [crcsOff_serialize h, imagePages_serialize h, imageSize, Nat.mod_eq_of_lt]
    · simp only [kHeaderSize]
      omega
    · simp only [align8, kHeaderSize]
      omega
  simp only [whole, Bool.and_eq_true, decide_eq_true_eq, hmagic', hversion', pageSize_serialize h,
    keyLen_serialize, length_serialize, digest_serialize, hsize, hheader, hpow, true_and, and_true]
  simp only [align8, kHeaderSize]
  omega

@[simp] theorem pageSize_of_fields (p : Bytes) : (fields p).pageSize = get p 8 4 := rfl

@[simp] theorem key_of_fields (p : Bytes) :
    (fields p).key = slice p kHeaderSize (get p 48 4) := rfl

@[simp] theorem ncrcs_of_fields (p : Bytes) : (fields p).ncrcs = imagePages p := rfl

@[simp] theorem bit_of_fields (p : Bytes) (i : Nat) : (fields p).bitmap.get i =
    PageBitmap.rawBit (slice p (bitmapOff p) (add64 (imagePages p) 7 / 8)) i := rfl

/-- Two values that say the same of the file and of every page. -/
structure Agrees (d m : MetaData) : Prop where
  key : d.key = m.key
  validators : d.validators = m.validators
  pageSize : d.pageSize = m.pageSize
  pinned : d.pinned = m.pinned
  ncrcs : d.ncrcs = m.ncrcs
  page : ∀ i < m.npages, d.page i = m.page i

section Fields

variable {m : MetaData}

theorem key_fields (hkey : m.key.length ≤ 64 * 1024) : (fields (serialize m)).key = m.key := by
  have hlen : m.key.length % 2 ^ 32 = m.key.length := Nat.mod_eq_of_lt (by omega)
  rw [key_of_fields, keyLen_serialize, hlen, slice_serialize m (Or.inr (by decide)), ← length_header m,
    ← Nat.add_zero (header m).length, slice_append_right, body, keySection, List.append_assoc,
    slice_head rfl]

theorem validators_fields (h : Fits m) : (fields (serialize m)).validators = m.validators := by
  obtain ⟨-, -, -, -, -, hmtime, hkind, hcksum, -⟩ := slice_header m (body m)
  have hmtime' : get (serialize m) 32 8 = m.originMtime := by
    rw [get_serialize (by decide) hmtime,
      Nat.mod_eq_of_lt (show m.originMtime < 256 ^ 8 from h.originMtime)]
  have hkind' : get (serialize m) 40 1 = m.cksumKind := by
    rw [get_serialize (by decide) hkind,
      Nat.mod_eq_of_lt (show m.cksumKind < 256 ^ 1 from h.cksumKind)]
  have hcksum' : get (serialize m) 44 4 = m.originCksum := by
    rw [get_serialize (by decide) hcksum,
      Nat.mod_eq_of_lt (show m.originCksum < 256 ^ 4 from h.originCksum)]
  simp only [MetaData.validators, fields, fileSize_serialize h, hmtime', hkind', hcksum']

theorem pinned_fields (m : MetaData) : (fields (serialize m)).pinned = m.pinned := by
  obtain ⟨-, -, -, hflags, -⟩ := slice_header m (body m)
  have hflags' : get (serialize m) 12 4 = flags m % 256 ^ 4 := get_serialize (by decide) hflags
  simp only [fields, hflags', flags]
  cases m.pinned <;> cases m.complete <;> decide

/-- The bytes of the bitmap are where `deserialize` looks for them. -/
theorem slice_bitmap (hkey : m.key.length ≤ 64 * 1024) :
    slice (serialize m) (bitmapOff (serialize m)) ((m.npages + 7) / 8) = bitmapSection m := by
  have hlen : m.key.length % 2 ^ 32 = m.key.length := Nat.mod_eq_of_lt (by omega)
  have hoff : bitmapOff (serialize m) = (header m ++ keySection m).length := by
    rw [bitmapOff, keyLen_serialize, hlen, List.length_append, length_header, length_keySection]
  have hapart : kCrcFieldOff + 4 ≤ (header m ++ keySection m).length := by
    rw [List.length_append, length_header]
    exact Nat.le_add_right _ _
  have himage : header m ++ body m =
      (header m ++ keySection m) ++ (bitmapSection m ++ crcSection m) := by
    rw [body, List.append_assoc]
  rw [hoff, slice_serialize m (Or.inr hapart), himage, slice_skip (Nat.le_refl _), Nat.sub_self,
    slice_head (length_bitmapSection m)]

/-- So is the CRC of every page. -/
theorem crc_fields (h : Fits m) (hkey : m.key.length ≤ 64 * 1024) {i : Nat} (hi : i < m.npages) :
    (fields (serialize m)).pageCrcs i = m.pageCrcs i := by
  have hlen : m.key.length % 2 ^ 32 = m.key.length := Nat.mod_eq_of_lt (by omega)
  have hoff : crcsOff (serialize m) = (header m ++ keySection m ++ bitmapSection m).length := by
    rw [crcsOff_serialize h, hlen, List.length_append, List.length_append, length_header,
      length_keySection, length_bitmapSection]
  have hapart : kCrcFieldOff + 4 ≤ (header m ++ keySection m ++ bitmapSection m).length + 4 * i := by
    rw [List.length_append, List.length_append, length_header]
    simp only [kCrcFieldOff, kHeaderSize]
    omega
  have himage : header m ++ body m =
      (header m ++ keySection m ++ bitmapSection m) ++ (crcSection m ++ []) := by
    rw [body, List.append_nil, List.append_assoc, List.append_assoc]
  have hget : get (serialize m) (crcsOff (serialize m) + 4 * i) 4 = (m.pageCrcs i).toNat := by
    rw [get, hoff, slice_serialize m (Or.inr hapart), himage, crcSection,
      slice_section (fun _ => length_le 4 _) (List.getElem?_range hi),
      if_pos h.ncrcs, ofLe_le, Nat.mod_eq_of_lt (show _ < 256 ^ 4 from UInt32.toNat_lt _)]
  simp only [fields, hget, UInt32.ofNat_toNat]

theorem fields_serialize (h : Fits m) (hkey : m.key.length ≤ 64 * 1024) :
    Agrees (fields (serialize m)) m where
  key := key_fields hkey
  validators := validators_fields h
  pageSize := by rw [pageSize_of_fields, pageSize_serialize h]
  pinned := pinned_fields m
  ncrcs := by rw [ncrcs_of_fields, imagePages_serialize h, h.ncrcs]
  page := by
    intro i hi
    have hpages := h.npages_le
    have hwide : m.npages + 7 < 2 ^ 64 := by omega
    have hbit : (fields (serialize m)).bitmap.get i = m.bitmap.get i := by
      rw [bit_of_fields, imagePages_serialize h, add64, Nat.mod_eq_of_lt hwide, slice_bitmap hkey]
      exact m.bitmap.rawBit_raw (by omega)
    exact Prod.ext hbit (crc_fields h hkey hi)

end Fields

theorem readable_iff (h : Fits m) :
    readable m = true ↔ imageSize m ≤ 2 ^ 31 ∧ m.key.length ≤ 64 * 1024 := by
  obtain ⟨hlo, -, hpow⟩ := validPageSize_iff.1 h.pageSize
  have hpos : m.pageSize ≠ 0 := by omega
  simp only [readable, Bool.and_eq_true, decide_eq_true_eq, hpow, hpos, ne_eq, not_false_eq_true,
    and_true]

/-- **The bytes on disk mean what was stored**: the image of a value is refused exactly when `load`
refuses the value, and else gives back what it said of every page. -/
theorem loadImage_serialize (h : Fits m) :
    (loadImage (some (serialize m)) = none ∧ load (some m) = none) ∨
      ∃ d d', loadImage (some (serialize m)) = some d ∧ load (some m) = some d' ∧
        Agrees d m ∧ Agrees d' m := by
  have hpos : 0 < imageSize m := Nat.lt_of_lt_of_le (by decide) (crcField_le_imageSize m)
  by_cases hread : readable m = true
  · obtain ⟨hsize, hkey⟩ := (readable_iff h).1 hread
    right
    refine ⟨fields (serialize m), _, ?_, by rw [load, if_pos hread], fields_serialize h hkey, ?_⟩
    · rw [loadImage, Option.bind_some, length_serialize, if_pos ⟨hpos, hsize⟩, deserialize,
        if_pos ((whole_serialize h).2 hkey)]
    · exact ⟨rfl, rfl, rfl, rfl, h.ncrcs.symm, fun _ _ => rfl⟩
  · left
    refine ⟨?_, by rw [load, if_neg hread]⟩
    rw [loadImage, Option.bind_some, length_serialize]
    split
    · rename_i hsize
      rw [deserialize, if_neg]
      intro hwhole
      exact hread ((readable_iff h).2 ⟨hsize.2, (whole_serialize h).1 hwhole⟩)
    · rfl

end MetaFile

end UCache
