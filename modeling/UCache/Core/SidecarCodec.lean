/-
Module: UCache.Core.SidecarCodec
Purpose: The sidecar codec byte by byte: the value with its raw bitmap and its table of
  checksums, the writer, and the two readers with every section they copy and every vector they
  allocate on the way.
Trusted boundary: none
Main exports: RawMeta, sidecar_codec, deserialize_safe_iff
-/
import UCache.Core.MetaImage

namespace UCache.SidecarCodec

open Lib MetaFile

/-! ### The value -/

/-- [SRC PageBitmap.h:16-75] `bits_`, `npages_` and `count_`. -/
structure RawBitmap where
  bits : Bytes
  npages : Nat
  count : Nat
deriving DecidableEq

/-- [SRC MetaFile.h:31-40] Every field, in the width it has. -/
structure RawMeta where
  pageSize : UInt32
  flags : UInt32
  fileSize : UInt64
  atime : UInt64
  originMtime : UInt64
  cksumKind : UInt8
  originCksum : UInt32
  key : Bytes
  bitmap : RawBitmap
  pageCrcs : List UInt32
deriving DecidableEq

/-- [SRC MetaFile.h:42-44] A 64-bit sum, which can wrap. -/
def RawMeta.npages (m : RawMeta) : Nat :=
  if m.pageSize = 0 then 0
  else add64 m.fileSize.toNat (m.pageSize.toNat - 1) / m.pageSize.toNat

/-! ### How a reader stops -/

/-- `absent` is the `nullopt` that callers treat as no sidecar, `thrown` what a vector throws that
cannot be had, and `wild` an access outside the bytes the reader was given or outside its own
bitmap: what happens then, the language does not say. -/
inductive Stop where
  | absent
  | thrown
  | wild
deriving DecidableEq

/-- Whether the allocator has room for a vector of `n` bytes.  No vector is larger than
`PTRDIFF_MAX`. -/
def Allocable (room n : Nat) : Prop := n ≤ room ∧ n < 2 ^ 63

instance (room n : Nat) : Decidable (Allocable room n) := inferInstanceAs (Decidable (_ ∧ _))

/-- `bad_alloc`, or `length_error` for the largest. -/
def alloc (room n : Nat) : Except Stop Unit :=
  if Allocable room n then .ok () else .error .thrown

/-- Whether `n` bytes from `off` are bytes of `p`. -/
def Within (p : Bytes) (off n : Nat) : Prop := n = 0 ∨ off + n ≤ p.length

instance (p : Bytes) (off n : Nat) : Decidable (Within p off n) :=
  inferInstanceAs (Decidable (_ ∨ _))

/-- `memcpy` of `n` bytes from `p + off`. -/
def copyOut (p : Bytes) (off n : Nat) : Except Stop Bytes :=
  if Within p off n then .ok (slice p off n) else .error .wild

/-- [SRC PageBitmap.h:65-70] The loop asks `bits_` for every page. -/
def RawBitmap.recount (b : RawBitmap) : Except Stop RawBitmap :=
  if b.npages ≤ 8 * b.bits.length then
    .ok { b with count := (List.range b.npages).countP (PageBitmap.rawBit b.bits) }
  else .error .wild

/-! ### The two readers -/

/-- [SRC MetaFile.cc:91-99] The fields of the fixed part, without what follows it. -/
def headerFields (h : Bytes) : RawMeta :=
  { pageSize := UInt32.ofNat (get h 8 4)
    flags := UInt32.ofNat (get h 12 4)
    fileSize := UInt64.ofNat (get h 16 8)
    atime := UInt64.ofNat (get h 24 8)
    originMtime := UInt64.ofNat (get h 32 8)
    cksumKind := UInt8.ofNat (get h 40 1)
    originCksum := UInt32.ofNat (get h 44 4)
    key := []
    bitmap := ⟨[], 0, 0⟩
    pageCrcs := [] }

def ours (h : Bytes) : Bool :=
  decide (slice h 0 4 = kMagic) && decide (get h 4 4 = kFormatVersion)

def pageSizeOk (h : Bytes) : Bool :=
  decide (get h 8 4 ≠ 0) && decide (get h 8 4 &&& (get h 8 4 - 1) = 0)

/-- The length of the bitmap, for `imagePages` pages: a 64-bit sum again. -/
def bitmapSize (h : Bytes) : Nat := add64 (imagePages h) 7 / 8

/-- The length an image of this header has to have, in 64 bits. -/
def total (h : Bytes) : Nat := (crcsOff h + imagePages h * 4) % 2 ^ 64

/-- The `n` integers of a table. -/
def crcTable (raw : Bytes) (n : Nat) : List UInt32 :=
  (List.range n).map fun i => UInt32.ofNat (get raw (4 * i) 4)

/-- [SRC MetaFile.cc:119-126] The three sections behind the header `h` of the image `p`. -/
def copySections (room : Nat) (p h : Bytes) : Except Stop RawMeta := do
  alloc room (get h 48 4)
  let key ← copyOut p kHeaderSize (get h 48 4)
  alloc room (bitmapSize h)
  let raw ← copyOut p (bitmapOff h) (bitmapSize h)
  let bitmap ← RawBitmap.recount ⟨raw, imagePages h, 0⟩
  alloc room (imagePages h * 4)
  let crcs ← copyOut p (crcsOff h) (imagePages h * 4 % 2 ^ 64)
  return { headerFields h with
    key := key
    bitmap := bitmap
    pageCrcs := crcTable crcs (imagePages h) }

/-- [SRC MetaFile.cc:85-127] The header is read once the image is known to hold one, and the digest
is taken of a copy of the image. -/
def deserialize (room : Nat) (p : Bytes) : Except Stop RawMeta :=
  if p.length < kHeaderSize then .error .absent
  else do
    let h ← copyOut p 0 kHeaderSize
    if ours h && pageSizeOk h && decide (p.length = total h) && decide (get h 48 4 ≤ 64 * 1024) then
      alloc room p.length
      if (crc32c (patch p kCrcFieldOff [0, 0, 0, 0])).toNat = get h kCrcFieldOff 4 then
        copySections room p h
      else .error .absent
    else .error .absent

/-- [SRC MetaFile.cc:184-199] -/
def load (room : Nat) (content : Bytes) : Except Stop RawMeta :=
  if 0 < content.length ∧ content.length ≤ 2 ^ 31 then do
    alloc room content.length
    deserialize room content
  else .error .absent

/-- [SRC MetaFile.cc:164-181] The key and the bitmap of the file, in one read. -/
def summarySections (room : Nat) (content h : Bytes) : Except Stop RawMeta := do
  alloc room (crcsOff h - kHeaderSize)
  let buf := slice content kHeaderSize (crcsOff h - kHeaderSize)
  if buf.length = crcsOff h - kHeaderSize then
    alloc room (get h 48 4)
    let key ← copyOut buf 0 (get h 48 4)
    alloc room (bitmapSize h)
    let raw ← copyOut buf (bitmapOff h - kHeaderSize) (bitmapSize h)
    let bitmap ← RawBitmap.recount ⟨raw, imagePages h, 0⟩
    return { headerFields h with
      key := key
      bitmap := bitmap }
  else .error .absent

/-- [SRC MetaFile.cc:129-182] -/
def loadSummary (room : Nat) (content : Bytes) : Except Stop RawMeta :=
  if kHeaderSize ≤ content.length ∧ content.length ≤ 2 ^ 31 then
    let h := slice content 0 kHeaderSize
    if h.length = kHeaderSize ∧ ours h = true then
      if pageSizeOk h = true ∧ get h 48 4 ≤ 64 * 1024 then
        if content.length = total h then summarySections room content h
        else .error .absent
      else .error .absent
    else .error .absent
  else .error .absent

/-! ### The writer -/

def header (m : RawMeta) : Bytes :=
  kMagic ++ (le 4 kFormatVersion ++ (le 4 m.pageSize.toNat ++ (le 4 m.flags.toNat ++
    (le 8 m.fileSize.toNat ++ (le 8 m.atime.toNat ++ (le 8 m.originMtime.toNat ++
      (le 1 m.cksumKind.toNat ++ ([0, 0, 0] ++ (le 4 m.originCksum.toNat ++
        (le 4 m.key.length ++ le 4 0))))))))))

def keySection (m : RawMeta) : Bytes :=
  m.key ++ List.replicate (align8 (kHeaderSize + m.key.length) - (kHeaderSize + m.key.length)) 0

/-- The table of a summary, which has none, is written as zeros. -/
def crcSection (m : RawMeta) : Bytes :=
  if m.npages ≠ 0 ∧ m.pageCrcs.length = m.npages then m.pageCrcs.flatMap fun c => le 4 c.toNat
  else List.replicate (m.npages * 4) 0

def body (m : RawMeta) : Bytes := keySection m ++ (m.bitmap.bits ++ crcSection m)

/-- The digest of an image, its field zero, is put in its place. -/
def sealed (image : Bytes) : Bytes := patch image kCrcFieldOff (le 4 (crc32c image).toNat)

/-- [SRC MetaFile.cc:55-83] -/
def serialize (m : RawMeta) : Bytes := sealed (header m ++ body m)

/-! ### What the fixed part says -/

theorem get_head {p : Bytes} {off n : Nat} (h : off + n ≤ kHeaderSize) :
    get (slice p 0 kHeaderSize) off n = get p off n := by
  rw [MetaFile.get, MetaFile.get, slice_slice h, Nat.zero_add]

theorem imagePages_head (p : Bytes) : imagePages (slice p 0 kHeaderSize) = imagePages p := by
  simp only [imagePages, get_head (show 8 + 4 ≤ kHeaderSize by decide),
    get_head (show 16 + 8 ≤ kHeaderSize by decide)]

theorem bitmapOff_head (p : Bytes) : bitmapOff (slice p 0 kHeaderSize) = bitmapOff p := by
  rw [bitmapOff, bitmapOff, get_head (by decide)]

theorem crcsOff_head (p : Bytes) : crcsOff (slice p 0 kHeaderSize) = crcsOff p := by
  rw [crcsOff, crcsOff, bitmapOff_head, imagePages_head]

theorem bitmapSize_head (p : Bytes) : bitmapSize (slice p 0 kHeaderSize) = bitmapSize p := by
  rw [bitmapSize, bitmapSize, imagePages_head]

theorem total_head (p : Bytes) : total (slice p 0 kHeaderSize) = total p := by
  rw [total, total, crcsOff_head, imagePages_head]

theorem ours_head (p : Bytes) : ours (slice p 0 kHeaderSize) = ours p := by
  rw [ours, ours, get_head (by decide), slice_slice (by decide), Nat.zero_add]

theorem pageSizeOk_head (p : Bytes) : pageSizeOk (slice p 0 kHeaderSize) = pageSizeOk p := by
  rw [pageSizeOk, pageSizeOk, get_head (by decide)]

theorem headerFields_head (p : Bytes) : headerFields (slice p 0 kHeaderSize) = headerFields p := by
  simp only [headerFields, get_head (show 8 + 4 ≤ kHeaderSize by decide),
    get_head (show 12 + 4 ≤ kHeaderSize by decide), get_head (show 16 + 8 ≤ kHeaderSize by decide),
    get_head (show 24 + 8 ≤ kHeaderSize by decide), get_head (show 32 + 8 ≤ kHeaderSize by decide),
    get_head (show 40 + 1 ≤ kHeaderSize by decide), get_head (show 44 + 4 ≤ kHeaderSize by decide)]

/-- The checks that an image passes, digest included. -/
theorem whole_iff (p : Bytes) : whole p = true ↔
    kHeaderSize ≤ p.length ∧
      (ours p && pageSizeOk p && decide (p.length = total p) &&
        decide (get p 48 4 ≤ 64 * 1024)) = true ∧
        (crc32c (patch p kCrcFieldOff [0, 0, 0, 0])).toNat = get p kCrcFieldOff 4 := by
  unfold total
  simp only [whole, ours, pageSizeOk, Bool.and_eq_true, decide_eq_true_eq, and_assoc]

/-! ### What a reader does with an image -/

section Readers

variable {room : Nat} {p : Bytes}

theorem copyOut_of_within {off n : Nat} (h : Within p off n) :
    copyOut p off n = .ok (slice p off n) := if_pos h

theorem alloc_of_allocable {n : Nat} (h : Allocable room n) : alloc room n = .ok () := if_pos h

/-- The three sections are copied once the checks are passed, if there is room for the copy the
digest is taken of. -/
theorem deserialize_of_whole (h : whole p = true) : deserialize room p =
    (alloc room p.length >>= fun _ => copySections room p (slice p 0 kHeaderSize)) := by
  obtain ⟨hlen, hok, hcrc⟩ := (whole_iff p).1 h
  rw [deserialize, if_neg (by omega), copyOut_of_within (.inr (by omega))]
  simp only [bind, Except.bind, ours_head, pageSizeOk_head, total_head,
    get_head (show 48 + 4 ≤ kHeaderSize by decide), hok, if_true,
    get_head (show kCrcFieldOff + 4 ≤ kHeaderSize by decide), hcrc]

/-- Any other image is no sidecar. -/
theorem deserialize_of_not_whole (h : ¬ whole p = true) :
    deserialize room p = .error .absent ∨ deserialize room p = .error .thrown := by
  rw [whole_iff] at h
  rw [deserialize]
  by_cases hlen : p.length < kHeaderSize
  · exact .inl (if_pos hlen)
  · rw [if_neg hlen, copyOut_of_within (.inr (by omega))]
    simp only [bind, Except.bind, ours_head, pageSizeOk_head, total_head,
      get_head (show 48 + 4 ≤ kHeaderSize by decide),
      get_head (show kCrcFieldOff + 4 ≤ kHeaderSize by decide)]
    split
    · rename_i hok
      have hcrc : ¬ (crc32c (patch p kCrcFieldOff [0, 0, 0, 0])).toNat = get p kCrcFieldOff 4 :=
        fun hcrc => h ⟨by omega, hok, hcrc⟩
      unfold alloc
      by_cases hroom : Allocable room p.length
      · exact .inl (by rw [if_pos hroom]; exact if_neg hcrc)
      · exact .inr (by rw [if_neg hroom])
    · exact .inl rfl

end Readers

/-! ### The three sections -/

/-- The value an image stands for. -/
def imageValue (p : Bytes) : RawMeta :=
  let raw := slice p (bitmapOff p) (bitmapSize p)
  { headerFields p with
    key := slice p kHeaderSize (get p 48 4)
    bitmap := ⟨raw, imagePages p, (List.range (imagePages p)).countP (PageBitmap.rawBit raw)⟩
    pageCrcs := crcTable (slice p (crcsOff p) (imagePages p * 4)) (imagePages p) }

/-- A section that there is room for is part of the image. -/
def Inside (room : Nat) (p : Bytes) (off n : Nat) : Prop := Allocable room n → Within p off n

theorem bitmapOff_bounds (p : Bytes) :
    kHeaderSize + get p 48 4 ≤ bitmapOff p ∧ bitmapOff p < kHeaderSize + get p 48 4 + 8 := by
  unfold bitmapOff align8
  omega

theorem imagePages_lt (p : Bytes) : imagePages p < 2 ^ 64 := by
  unfold imagePages
  split
  · decide
  · exact Nat.lt_of_le_of_lt (Nat.div_le_self _ _) (Nat.mod_lt _ (by decide))

theorem bitmapSize_of_lt {p : Bytes} (h : imagePages p + 7 < 2 ^ 64) :
    bitmapSize p = (imagePages p + 7) / 8 := by
  rw [bitmapSize, add64, Nat.mod_eq_of_lt h]

theorem crcsOff_eq (p : Bytes) : crcsOff p = bitmapOff p + bitmapSize p := rfl

section Sections

variable {room : Nat} {p : Bytes}

/-- The sections of an image whose sizes add up without wrapping. -/
theorem copySections_fits (hbits : imagePages p + 7 < 2 ^ 64)
    (hsum : crcsOff p + imagePages p * 4 < 2 ^ 64) (hlen : p.length = total p)
    (hroom : Allocable room p.length) :
    copySections room p (slice p 0 kHeaderSize) = .ok (imageValue p) := by
  have hoff := bitmapOff_bounds p
  have hsize := bitmapSize_of_lt hbits
  have hcrcs := crcsOff_eq p
  rw [total, Nat.mod_eq_of_lt hsum] at hlen
  obtain ⟨hle, hmax⟩ := hroom
  have halloc : ∀ n ≤ p.length, Allocable room n := fun n hn => ⟨by omega, by omega⟩
  have hcount : imagePages p ≤ 8 * (slice p (bitmapOff p) (bitmapSize p)).length := by
    rw [length_slice]
    omega
  have htable : imagePages p * 4 % 2 ^ 64 = imagePages p * 4 := Nat.mod_eq_of_lt (by omega)
  rw [copySections, get_head (by decide), bitmapSize_head, bitmapOff_head, imagePages_head,
    crcsOff_head, headerFields_head, alloc_of_allocable (halloc _ (by omega)),
    copyOut_of_within (.inr (by omega)), alloc_of_allocable (halloc _ (by omega)),
    copyOut_of_within (.inr (by omega)), alloc_of_allocable (halloc _ (by omega)), htable,
    copyOut_of_within (.inr (by omega))]
  simp only [bind, Except.bind, RawBitmap.recount, if_pos hcount]
  rfl

/-- A bitmap of 2^64 bits or nearly as many is allocated with none. -/
theorem copySections_wrapped (hbits : 2 ^ 64 ≤ imagePages p + 7) (hlen : p.length = total p)
    (hkeyLen : get p 48 4 ≤ 64 * 1024) (hroom : Allocable room p.length) :
    copySections room p (slice p 0 kHeaderSize) = .error .wild := by
  have hoff := bitmapOff_bounds p
  rw [kHeaderSize] at hoff
  have hlt := imagePages_lt p
  have hnone : bitmapSize p = 0 := by
    unfold bitmapSize add64
    omega
  have hcrcs := crcsOff_eq p
  rw [total, hcrcs, hnone] at hlen
  have hkey : Allocable room (get p 48 4) := by
    have hle := hroom.1
    have hmax := hroom.2
    exact ⟨by omega, by omega⟩
  rw [copySections, get_head (by decide), bitmapSize_head, bitmapOff_head, imagePages_head,
    alloc_of_allocable hkey, hnone, alloc_of_allocable ⟨Nat.zero_le _, by decide⟩]
  by_cases hin : Within p kHeaderSize (get p 48 4)
  · have hpages : ¬ imagePages p ≤ 8 * (slice p (bitmapOff p) 0).length := by
      rw [slice_zero, List.length_nil]
      omega
    rw [copyOut_of_within hin, copyOut_of_within (.inl rfl)]
    simp only [bind, Except.bind, RawBitmap.recount, if_neg hpages]
  · rw [copyOut, if_neg hin]
    rfl

/-- Sections that are longer than 64 bits can say: the table is more than a vector can hold. -/
theorem copySections_wide (hbits : imagePages p + 7 < 2 ^ 64)
    (hsum : 2 ^ 64 ≤ crcsOff p + imagePages p * 4) (hkeyLen : get p 48 4 ≤ 64 * 1024) :
    (Inside room p kHeaderSize (get p 48 4) ∧ Inside room p (bitmapOff p) (bitmapSize p) ∧
        copySections room p (slice p 0 kHeaderSize) = .error .thrown) ∨
      (¬ (Inside room p kHeaderSize (get p 48 4) ∧ Inside room p (bitmapOff p) (bitmapSize p)) ∧
        copySections room p (slice p 0 kHeaderSize) = .error .wild) := by
  have hoff := bitmapOff_bounds p
  have hsize := bitmapSize_of_lt hbits
  have hcrcs := crcsOff_eq p
  rw [kHeaderSize] at hoff
  have htable : ¬ Allocable room (imagePages p * 4) := fun h => by
    have hmax := h.2
    omega
  rw [copySections, get_head (by decide), bitmapSize_head, bitmapOff_head, imagePages_head]
  by_cases hroomKey : Allocable room (get p 48 4)
  · rw [alloc_of_allocable hroomKey]
    by_cases hinKey : Within p kHeaderSize (get p 48 4)
    · rw [copyOut_of_within hinKey]
      by_cases hroomBits : Allocable room (bitmapSize p)
      · rw [alloc_of_allocable hroomBits]
        by_cases hinBits : Within p (bitmapOff p) (bitmapSize p)
        · left
          refine ⟨fun _ => hinKey, fun _ => hinBits, ?_⟩
          have hlong : bitmapOff p + bitmapSize p ≤ p.length := by
            rcases hinBits with hzero | hle
            · omega
            · exact hle
          have hcount : imagePages p ≤ 8 * (slice p (bitmapOff p) (bitmapSize p)).length := by
            rw [length_slice]
            omega
          rw [copyOut_of_within hinBits, alloc, if_neg htable]
          simp only [bind, Except.bind, RawBitmap.recount, if_pos hcount]
        · right
          refine ⟨fun h => hinBits (h.2 hroomBits), ?_⟩
          rw [copyOut, if_neg hinBits]
          rfl
      · left
        refine ⟨fun _ => hinKey, fun h => absurd h hroomBits, ?_⟩
        rw [alloc, if_neg hroomBits]
        rfl
    · right
      refine ⟨fun h => hinKey (h.1 hroomKey), ?_⟩
      rw [copyOut, if_neg hinKey]
      rfl
  · -- no room for the key: none for the bitmap either
    left
    have hroomBits : ¬ Allocable room (bitmapSize p) := fun h => by
      have hle := h.1
      exact hroomKey ⟨by omega, by omega⟩
    refine ⟨fun h => absurd h hroomKey, fun h => absurd h hroomBits, ?_⟩
    rw [alloc, if_neg hroomKey]
    rfl

end Sections

/-! ### Every byte string -/

/-- What an accepted image has to be, over the integers. -/
structure Exact (p : Bytes) (m : RawMeta) : Prop where
  pages : m.bitmap.npages = MetaData.pagesOf m.pageSize.toNat m.fileSize.toNat
  bits : m.bitmap.bits.length = (m.bitmap.npages + 7) / 8
  crcs : m.pageCrcs.length = m.bitmap.npages
  sections : p.length =
    align8 (kHeaderSize + m.key.length) + m.bitmap.bits.length + 4 * m.pageCrcs.length

/-- Every access is inside the image, and what is accepted is an exact image. -/
def Safe (room : Nat) (p : Bytes) : Prop :=
  deserialize room p ≠ .error .wild ∧ ∀ m, deserialize room p = .ok m → Exact p m

/-- Where the sums of a header are the integers they stand for.  Sections that together are longer
than 64 bits can say do no harm while the key and the bitmap are inside the image, or too large to
be allocated. -/
structure SumsHold (room : Nat) (p : Bytes) : Prop where
  pages : get p 16 8 + (get p 8 4 - 1) < 2 ^ 64
  bits : imagePages p + 7 < 2 ^ 64
  sections : crcsOff p + imagePages p * 4 < 2 ^ 64 ∨
    (Inside room p kHeaderSize (get p 48 4) ∧ Inside room p (bitmapOff p) (bitmapSize p))

theorem get_lt (p : Bytes) (off n : Nat) : get p off n < 256 ^ n := by
  have hlen : (slice p off n).length ≤ n := by
    rw [length_slice]
    exact Nat.min_le_left _ _
  exact Nat.lt_of_lt_of_le (ofLe_lt _) (Nat.pow_le_pow_right (by decide) hlen)

/-- The parts of `whole` that the sizes hang on. -/
theorem sizes_of_whole {p : Bytes} (h : whole p = true) :
    p.length = total p ∧ get p 48 4 ≤ 64 * 1024 ∧ get p 8 4 ≠ 0 := by
  obtain ⟨-, hok, -⟩ := (whole_iff p).1 h
  simp only [pageSizeOk, Bool.and_eq_true, decide_eq_true_eq] at hok
  exact ⟨hok.1.2, hok.2, hok.1.1.2.1⟩

/-- The number of pages is right exactly where the rounding up does not wrap. -/
theorem imagePages_eq_iff {p : Bytes} (hpos : get p 8 4 ≠ 0) :
    imagePages p = MetaData.pagesOf (get p 8 4) (get p 16 8) ↔
      get p 16 8 + (get p 8 4 - 1) < 2 ^ 64 := by
  have hsize := get_lt p 8 4
  have hfile := get_lt p 16 8
  have hsum : get p 16 8 + get p 8 4 - 1 = get p 16 8 + (get p 8 4 - 1) := by omega
  rw [imagePages, MetaData.pagesOf, if_neg hpos, if_neg hpos, hsum]
  constructor
  · intro heq
    by_contra hwrap
    -- the wrapped sum is less than a page, the sum itself at least one
    have hnone : add64 (get p 16 8) (get p 8 4 - 1) / get p 8 4 = 0 :=
      Nat.div_eq_of_lt (by unfold add64; omega)
    have hsome : 0 < (get p 16 8 + (get p 8 4 - 1)) / get p 8 4 :=
      Nat.div_pos (by omega) (by omega)
    omega
  · intro hfits
    rw [add64, Nat.mod_eq_of_lt hfits]

section Safety

variable {room : Nat} {p : Bytes}

theorem pageSize_imageValue (p : Bytes) : (imageValue p).pageSize.toNat = get p 8 4 :=
  (UInt32.toNat_ofNat' ..).trans (Nat.mod_eq_of_lt (get_lt p 8 4))

theorem fileSize_imageValue (p : Bytes) : (imageValue p).fileSize.toNat = get p 16 8 :=
  (UInt64.toNat_ofNat' ..).trans (Nat.mod_eq_of_lt (get_lt p 16 8))

/-- An image whose sections add up is the value it stands for. -/
theorem deserialize_fits (h : whole p = true) (hroom : Allocable room p.length)
    (hbits : imagePages p + 7 < 2 ^ 64) (hsum : crcsOff p + imagePages p * 4 < 2 ^ 64) :
    deserialize room p = .ok (imageValue p) := by
  rw [deserialize_of_whole h, alloc_of_allocable hroom]
  exact copySections_fits hbits hsum (sizes_of_whole h).1 hroom

/-- It is exact when the number of pages is right. -/
theorem exact_imageValue (h : whole p = true)
    (hpages : get p 16 8 + (get p 8 4 - 1) < 2 ^ 64) (hbits : imagePages p + 7 < 2 ^ 64)
    (hsum : crcsOff p + imagePages p * 4 < 2 ^ 64) : Exact p (imageValue p) := by
  obtain ⟨hlen, -, hpos⟩ := sizes_of_whole h
  have hoff := bitmapOff_bounds p
  have hsize := bitmapSize_of_lt hbits
  have hcrcs := crcsOff_eq p
  rw [total, Nat.mod_eq_of_lt hsum] at hlen
  have hkey : (imageValue p).key.length = get p 48 4 := by
    change (slice p kHeaderSize (get p 48 4)).length = _
    rw [length_slice]
    omega
  have hraw : (imageValue p).bitmap.bits.length = bitmapSize p := by
    change (slice p (bitmapOff p) (bitmapSize p)).length = _
    rw [length_slice]
    omega
  have htable : (imageValue p).pageCrcs.length = imagePages p := by
    change (crcTable _ (imagePages p)).length = _
    rw [crcTable, List.length_map, List.length_range]
  refine ⟨?_, ?_, htable, ?_⟩
  · rw [pageSize_imageValue, fileSize_imageValue]
    exact (imagePages_eq_iff hpos).2 hpages
  · rw [hraw, hsize]
    rfl
  · rw [hkey, hraw, htable, hlen, hcrcs, bitmapOff]
    omega

/-- Without room for the copy nothing is read. -/
theorem deserialize_of_not_allocable (hroom : ¬ Allocable room p.length) :
    deserialize room p = .error .absent ∨ deserialize room p = .error .thrown := by
  by_cases h : whole p = true
  · right
    rw [deserialize_of_whole h, alloc, if_neg hroom]
    rfl
  · exact deserialize_of_not_whole h

theorem safe_of_refused
    (h : deserialize room p = .error .absent ∨ deserialize room p = .error .thrown) :
    Safe room p := by
  rcases h with h | h <;> exact ⟨by rw [h]; decide, fun m hm => by rw [h] at hm; cases hm⟩

/-- **The reader is safe where its sums do not wrap**: an image that passes the checks is read
inside its bytes, and is exactly what it says, if and only if the rounding up of the page count, the
rounding up of the bitmap and the sum of the sections are what they are over the integers. -/
theorem deserialize_safe_iff (room : Nat) (p : Bytes) :
    Safe room p ↔ (Allocable room p.length → whole p = true → SumsHold room p) := by
  constructor
  · rintro ⟨hwild, hexact⟩ hroom h
    obtain ⟨hlen, hkeyLen, hpos⟩ := sizes_of_whole h
    have heq : deserialize room p = copySections room p (slice p 0 kHeaderSize) := by
      rw [deserialize_of_whole h, alloc_of_allocable hroom]
      rfl
    have hbits : imagePages p + 7 < 2 ^ 64 := by
      by_contra hwrap
      exact hwild (heq.trans (copySections_wrapped (by omega) hlen hkeyLen hroom))
    refine ⟨?_, hbits, ?_⟩
    · by_contra hwrap
      have hzero : imagePages p = 0 := by
        have hsize := get_lt p 8 4
        have hfile := get_lt p 16 8
        rw [imagePages, if_neg hpos]
        exact Nat.div_eq_of_lt (by unfold add64; omega)
      have hoff := bitmapOff_bounds p
      have hsum : crcsOff p + imagePages p * 4 < 2 ^ 64 := by
        rw [crcsOff_eq, bitmapSize_of_lt hbits, hzero]
        rw [kHeaderSize] at hoff
        omega
      have hpages := (hexact _ (deserialize_fits h hroom hbits hsum)).pages
      rw [pageSize_imageValue, fileSize_imageValue] at hpages
      exact hwrap ((imagePages_eq_iff hpos).1 hpages)
    · by_cases hsum : crcsOff p + imagePages p * 4 < 2 ^ 64
      · exact .inl hsum
      · rcases copySections_wide hbits (by omega) hkeyLen with ⟨hkey, hbitmap, -⟩ | ⟨-, hstop⟩
        · exact .inr ⟨hkey, hbitmap⟩
        · exact absurd (heq.trans hstop) hwild
  · intro hsums
    by_cases hroom : Allocable room p.length
    · by_cases h : whole p = true
      · obtain ⟨hpages, hbits, hsections⟩ := hsums hroom h
        by_cases hsum : crcsOff p + imagePages p * 4 < 2 ^ 64
        · have hok := deserialize_fits h hroom hbits hsum
          refine ⟨by simp [hok], fun m hm => ?_⟩
          rw [hok] at hm
          cases hm
          exact exact_imageValue h hpages hbits hsum
        · have hinside := hsections.resolve_left hsum
          apply safe_of_refused
          right
          rw [deserialize_of_whole h, alloc_of_allocable hroom]
          rcases copySections_wide hbits (by omega) (sizes_of_whole h).2.1 with
            ⟨-, -, hstop⟩ | ⟨hout, -⟩
          · exact hstop
          · exact absurd hinside hout
      · exact safe_of_refused (deserialize_of_not_whole h)
    · exact safe_of_refused (deserialize_of_not_allocable hroom)

end Safety

/-- A file of 2^64-1 bytes in pages of `pageSize`. -/
def endless (pageSize : UInt32) (key : Bytes) : RawMeta :=
  { pageSize := pageSize, flags := 0, fileSize := 0xffffffffffffffff, atime := 0, originMtime := 0
    cksumKind := 0, originCksum := 0, key := key, bitmap := ⟨[], 0, 0⟩, pageCrcs := [] }

/-- An image of 56 bytes is accepted for a file of 2^64-1, with no page; and of one of 60 bytes, for
pages of one byte, the key is read to byte 64. -/
theorem endless_file_accepted : ¬ Safe (2 ^ 31) (serialize (endless 4096 [])) ∧
    ¬ Safe (2 ^ 31) (sealed (header (endless 1 (List.replicate 8 97)) ++ [0, 0, 0, 0])) := by
  constructor
  · intro hsafe
    have hexact := hsafe.2 _ (@deserialize_fits _ (serialize (endless 4096 [])) (by decide +kernel)
      (by decide +kernel) (by decide +kernel) (by decide +kernel))
    exact absurd hexact.pages (by decide +kernel)
  · intro hsafe
    have hwhole : whole (sealed (header (endless 1 (List.replicate 8 97)) ++ [0, 0, 0, 0])) =
        true := by decide +kernel
    apply hsafe.1
    have hroom : Allocable (2 ^ 31)
        (sealed (header (endless 1 (List.replicate 8 97)) ++ [0, 0, 0, 0])).length := by
      decide +kernel
    rw [deserialize_of_whole hwhole, alloc_of_allocable hroom]
    obtain ⟨hlen, hkeyLen, -⟩ := sizes_of_whole hwhole
    exact copySections_wrapped (by decide +kernel) hlen hkeyLen hroom

/-! ### What was stored comes back -/

def imageLength (m : RawMeta) : Nat :=
  align8 (kHeaderSize + m.key.length) + m.bitmap.bits.length + 4 * m.pageCrcs.length

/-- The bits that are set in the bytes. -/
def bitCount (bits : Bytes) : Nat := (List.range (8 * bits.length)).countP (PageBitmap.rawBit bits)

/-- A value with a bit and a checksum for every page, and an image of less than 2 GiB. -/
structure WellFormed (m : RawMeta) : Prop where
  pageSize : ∃ k, m.pageSize.toNat = 2 ^ k
  key : m.key.length ≤ 64 * 1024
  bitmapPages : m.bitmap.npages = m.npages
  bitmapBits : m.bitmap.bits.length = (m.npages + 7) / 8
  clean : ∀ i, m.npages ≤ i → PageBitmap.rawBit m.bitmap.bits i = false
  pageCrcs : m.pageCrcs.length = m.npages
  size : imageLength m < 2 ^ 31

theorem length_header (m : RawMeta) : (header m).length = kHeaderSize := by
  simp [header, kMagic, kHeaderSize]

/-- The words of the fixed part. -/
theorem slice_header (m : RawMeta) (rest : Bytes) :
    slice (header m ++ rest) 0 4 = kMagic ∧
    slice (header m ++ rest) 4 4 = le 4 kFormatVersion ∧
    slice (header m ++ rest) 8 4 = le 4 m.pageSize.toNat ∧
    slice (header m ++ rest) 12 4 = le 4 m.flags.toNat ∧
    slice (header m ++ rest) 16 8 = le 8 m.fileSize.toNat ∧
    slice (header m ++ rest) 24 8 = le 8 m.atime.toNat ∧
    slice (header m ++ rest) 32 8 = le 8 m.originMtime.toNat ∧
    slice (header m ++ rest) 40 1 = le 1 m.cksumKind.toNat ∧
    slice (header m ++ rest) 44 4 = le 4 m.originCksum.toNat ∧
    slice (header m ++ rest) 48 4 = le 4 m.key.length ∧
    slice (header m ++ rest) 52 4 = le 4 0 := by
  simp (disch := simp only [length_le, List.length_cons, List.length_nil, Nat.reduceAdd,
    Nat.reduceLeDiff, Nat.le_refl]) only [header, kMagic, List.append_assoc, slice_skip, slice_head,
    length_le, List.length_cons, List.length_nil, Nat.reduceSub, Nat.reduceAdd, Nat.sub_self,
    Nat.zero_add, and_self]

section Sealed

variable {image : Bytes}

theorem length_sealed (h : kCrcFieldOff + 4 ≤ image.length) :
    (sealed image).length = image.length := by
  rw [sealed, length_patch (by rwa [length_le])]

/-- The digest changes its own field only. -/
theorem slice_sealed (h : kCrcFieldOff + 4 ≤ image.length) {off n : Nat}
    (hapart : off + n ≤ kCrcFieldOff ∨ kCrcFieldOff + 4 ≤ off) :
    slice (sealed image) off n = slice image off n :=
  slice_patch_apart (by rwa [length_le]) (by rwa [length_le])

theorem get_sealed (h : kCrcFieldOff + 4 ≤ image.length) {off n v : Nat}
    (hapart : off + n ≤ kCrcFieldOff ∨ kCrcFieldOff + 4 ≤ off) (hword : slice image off n = le n v)
    (hv : v < 256 ^ n) : get (sealed image) off n = v := by
  rw [MetaFile.get, slice_sealed h hapart, hword, ofLe_le, Nat.mod_eq_of_lt hv]

/-- The digest of an image, its own field zeroed, is the one in the field. -/
theorem digest_sealed (h : kCrcFieldOff + 4 ≤ image.length)
    (hzero : slice image kCrcFieldOff 4 = le 4 0) :
    (crc32c (patch (sealed image) kCrcFieldOff [0, 0, 0, 0])).toNat =
      get (sealed image) kCrcFieldOff 4 := by
  have hback : patch (sealed image) kCrcFieldOff [0, 0, 0, 0] = image :=
    patch_restore (by rwa [length_le]) hzero
  have hfield : slice (sealed image) kCrcFieldOff 4 = le 4 (crc32c image).toNat := by
    have hsame := @slice_patch_same _ image kCrcFieldOff (le 4 (crc32c image).toNat)
      (by rwa [length_le])
    rwa [length_le] at hsame
  rw [hback, MetaFile.get, hfield, ofLe_le,
    Nat.mod_eq_of_lt (show _ < 256 ^ 4 from UInt32.toNat_lt _)]

end Sealed

section Stored

variable {m : RawMeta}

theorem length_keySection (m : RawMeta) :
    kHeaderSize + (keySection m).length = align8 (kHeaderSize + m.key.length) := by
  simp only [keySection, List.length_append, List.length_replicate, align8]
  omega

theorem WellFormed.crcSection_eq (h : WellFormed m) :
    crcSection m = m.pageCrcs.flatMap fun c => le 4 c.toNat := by
  unfold crcSection
  by_cases hzero : m.npages = 0
  · have hnil : m.pageCrcs = [] := List.eq_nil_of_length_eq_zero (h.pageCrcs.trans hzero)
    simp [hzero, hnil]
  · rw [if_pos ⟨hzero, h.pageCrcs⟩]

theorem WellFormed.length_crcSection (h : WellFormed m) :
    (crcSection m).length = m.npages * 4 := by
  rw [h.crcSection_eq, List.length_flatMap, List.map_congr_left (fun x _ => length_le 4 _)]
  simp [h.pageCrcs]

theorem WellFormed.length_image (h : WellFormed m) :
    (header m ++ body m).length = imageLength m := by
  have hkey := length_keySection m
  have hcrcs := h.pageCrcs
  rw [imageLength, body, List.length_append, List.length_append, List.length_append,
    SidecarCodec.length_header, h.length_crcSection]
  omega

theorem crcField_le_image (m : RawMeta) : kCrcFieldOff + 4 ≤ (header m ++ body m).length := by
  rw [List.length_append, SidecarCodec.length_header]
  exact Nat.le_add_right _ _

theorem WellFormed.length_serialize (h : WellFormed m) : (serialize m).length = imageLength m := by
  rw [serialize, length_sealed (crcField_le_image m), h.length_image]

theorem get_serialized {off n v : Nat}
    (hapart : off + n ≤ kCrcFieldOff ∨ kCrcFieldOff + 4 ≤ off)
    (hword : slice (header m ++ body m) off n = le n v) (hv : v < 256 ^ n) :
    get (serialize m) off n = v :=
  get_sealed (crcField_le_image m) hapart hword hv

theorem keyLen_serialized (h : WellFormed m) : get (serialize m) 48 4 = m.key.length := by
  obtain ⟨-, -, -, -, -, -, -, -, -, hword, -⟩ := SidecarCodec.slice_header m (body m)
  have hkey := h.key
  exact get_serialized (.inl (by decide)) hword (by omega)

/-- The fields of the fixed part come back. -/
theorem headerFields_serialized (m : RawMeta) : headerFields (serialize m) =
    { m with key := [], bitmap := ⟨[], 0, 0⟩, pageCrcs := [] } := by
  obtain ⟨-, -, hsize, hflags, hfile, hatime, hmtime, hkind, hcksum, -⟩ :=
    SidecarCodec.slice_header m (body m)
  rw [headerFields, get_serialized (.inl (by decide)) hsize (UInt32.toNat_lt _),
    get_serialized (.inl (by decide)) hflags (UInt32.toNat_lt _),
    get_serialized (.inl (by decide)) hfile (UInt64.toNat_lt _),
    get_serialized (.inl (by decide)) hatime (UInt64.toNat_lt _),
    get_serialized (.inl (by decide)) hmtime (UInt64.toNat_lt _),
    get_serialized (.inl (by decide)) hkind (UInt8.toNat_lt _),
    get_serialized (.inl (by decide)) hcksum (UInt32.toNat_lt _)]
  simp only [UInt32.ofNat_toNat, UInt64.ofNat_toNat, UInt8.ofNat_toNat]

theorem imagePages_serialized (m : RawMeta) : imagePages (serialize m) = m.npages := by
  obtain ⟨-, -, hsize, -, hfile, -⟩ := SidecarCodec.slice_header m (body m)
  have hzero : m.pageSize.toNat = 0 ↔ m.pageSize = 0 := @UInt32.toNat_inj m.pageSize 0
  simp only [imagePages, RawMeta.npages, hzero,
    get_serialized (.inl (by decide)) hsize (UInt32.toNat_lt _),
    get_serialized (.inl (by decide)) hfile (UInt64.toNat_lt _)]

theorem WellFormed.npages_lt (h : WellFormed m) : m.npages < 2 ^ 31 := by
  have hsize := h.size
  have hcrcs := h.pageCrcs
  unfold imageLength at hsize
  omega

theorem bitmapOff_serialized (h : WellFormed m) :
    bitmapOff (serialize m) = (header m ++ keySection m).length := by
  rw [bitmapOff, keyLen_serialized h, List.length_append, SidecarCodec.length_header,
    SidecarCodec.length_keySection]

theorem bitmapSize_serialized (h : WellFormed m) :
    bitmapSize (serialize m) = m.bitmap.bits.length := by
  have hlt := h.npages_lt
  rw [bitmapSize, imagePages_serialized, h.bitmapBits, add64, Nat.mod_eq_of_lt (by omega)]

theorem crcsOff_serialized (h : WellFormed m) :
    crcsOff (serialize m) = (header m ++ keySection m ++ m.bitmap.bits).length := by
  rw [crcsOff_eq, bitmapOff_serialized h, bitmapSize_serialized h, ← List.length_append]

/-- The sum of the sections is the length of the image. -/
theorem sections_serialized (h : WellFormed m) :
    crcsOff (serialize m) + imagePages (serialize m) * 4 = imageLength m := by
  rw [crcsOff_serialized h, imagePages_serialized, ← h.length_image, body, List.length_append,
    List.length_append, List.length_append, List.length_append, List.length_append,
    h.length_crcSection]
  omega

theorem whole_serialized (h : WellFormed m) : whole (serialize m) = true := by
  have hroom := crcField_le_image m
  obtain ⟨hmagic, hversion, hword, -, -, -, -, -, -, -, hzero⟩ :=
    SidecarCodec.slice_header m (body m)
  have hsize : get (serialize m) 8 4 = m.pageSize.toNat :=
    get_serialized (.inl (by decide)) hword (UInt32.toNat_lt _)
  have hmagic' : slice (serialize m) 0 4 = kMagic := by
    rw [serialize, slice_sealed hroom (.inl (by decide)), hmagic]
  have hversion' : get (serialize m) 4 4 = kFormatVersion :=
    get_serialized (.inl (by decide)) hversion (by decide)
  obtain ⟨k, hk⟩ := h.pageSize
  have hpow : 2 ^ k &&& (2 ^ k - 1) = 0 := by rw [Nat.and_two_pow_sub_one_eq_mod, Nat.mod_self]
  have hlen : (serialize m).length = total (serialize m) := by
    have hlt := h.size
    rw [h.length_serialize, total, sections_serialized h, Nat.mod_eq_of_lt (by omega)]
  refine (whole_iff _).2 ⟨?_, ?_, digest_sealed hroom hzero⟩
  · rw [serialize, length_sealed hroom]
    exact hroom
  · have hours : ours (serialize m) = true := by simp [ours, hmagic', hversion']
    have hpage : pageSizeOk (serialize m) = true := by
      rw [pageSizeOk, hsize, hk, hpow]
      simp
    have hkey := h.key
    simp only [hours, hpage, ← hlen, keyLen_serialized h, decide_true, Bool.and_true, Bool.true_and,
      decide_eq_true_eq]
    exact hkey

theorem countP_range_of_clean {f : Nat → Bool} {n k : Nat} (h : ∀ i, n ≤ i → f i = false) :
    (List.range (n + k)).countP f = (List.range n).countP f := by
  have hrest : ((List.range k).map (n + ·)).countP f = 0 := by
    rw [List.countP_eq_zero]
    intro x hx
    obtain ⟨i, -, rfl⟩ := List.mem_map.1 hx
    simp [h (n + i) (Nat.le_add_right _ _)]
  rw [List.range_add, List.countP_append, hrest, Nat.add_zero]

/-- The bits the loop over the pages finds are the bits that are set. -/
theorem WellFormed.count (h : WellFormed m) :
    (List.range m.npages).countP (PageBitmap.rawBit m.bitmap.bits) = bitCount m.bitmap.bits := by
  have hbits := h.bitmapBits
  have hlen : 8 * m.bitmap.bits.length = m.npages + (8 * m.bitmap.bits.length - m.npages) := by
    omega
  rw [bitCount, hlen, countP_range_of_clean h.clean]

theorem key_serialized (h : WellFormed m) :
    slice (serialize m) kHeaderSize (get (serialize m) 48 4) = m.key := by
  have himage : header m ++ body m = header m ++ (m.key ++
      (List.replicate (align8 (kHeaderSize + m.key.length) - (kHeaderSize + m.key.length)) 0 ++
        (m.bitmap.bits ++ crcSection m))) := by
    rw [body, keySection, List.append_assoc]
  rw [keyLen_serialized h, serialize, slice_sealed (crcField_le_image m) (.inr (by decide)), himage,
    slice_skip (Nat.le_of_eq (SidecarCodec.length_header m)), SidecarCodec.length_header,
    Nat.sub_self, slice_head rfl]

theorem bitmap_serialized (h : WellFormed m) :
    slice (serialize m) (bitmapOff (serialize m)) (bitmapSize (serialize m)) = m.bitmap.bits := by
  have himage : header m ++ body m =
      (header m ++ keySection m) ++ (m.bitmap.bits ++ crcSection m) := by
    rw [body, List.append_assoc]
  have hapart : kCrcFieldOff + 4 ≤ (header m ++ keySection m).length := by
    rw [List.length_append, SidecarCodec.length_header]
    exact Nat.le_add_right _ _
  rw [bitmapOff_serialized h, bitmapSize_serialized h, serialize,
    slice_sealed (crcField_le_image m) (.inr hapart), himage, slice_skip (Nat.le_refl _),
    Nat.sub_self, slice_head rfl]

theorem crcTable_serialized (h : WellFormed m) :
    crcTable (slice (serialize m) (crcsOff (serialize m)) (m.npages * 4)) m.npages =
      m.pageCrcs := by
  have himage : header m ++ body m =
      (header m ++ keySection m ++ m.bitmap.bits) ++ (crcSection m ++ []) := by
    rw [body, List.append_nil, List.append_assoc, List.append_assoc]
  have hapart : kCrcFieldOff + 4 ≤ (header m ++ keySection m ++ m.bitmap.bits).length := by
    rw [List.length_append, List.length_append, SidecarCodec.length_header]
    simp only [kCrcFieldOff, kHeaderSize]
    omega
  rw [crcTable, ← h.pageCrcs]
  apply map_range_eq
  intro i c hc
  have hlt : i < m.pageCrcs.length := (List.getElem?_eq_some_iff.1 hc).1
  rw [MetaFile.get, slice_slice (by omega), crcsOff_serialized h, serialize,
    slice_sealed (crcField_le_image m) (.inr (by omega)), himage, h.crcSection_eq,
    slice_section (fun _ => length_le 4 _) hc, ofLe_le,
    Nat.mod_eq_of_lt (show _ < 256 ^ 4 from UInt32.toNat_lt _), UInt32.ofNat_toNat]

/-- Every field of a stored value comes back. -/
theorem imageValue_serialized (h : WellFormed m) : imageValue (serialize m) =
    { m with bitmap := { m.bitmap with count := bitCount m.bitmap.bits } } := by
  simp only [imageValue, headerFields_serialized, key_serialized h, bitmap_serialized h,
    imagePages_serialized, crcTable_serialized h, h.count, h.bitmapPages]

theorem deserialize_serialized (h : WellFormed m) {room : Nat}
    (hroom : (serialize m).length ≤ room) : deserialize room (serialize m) =
      .ok { m with bitmap := { m.bitmap with count := bitCount m.bitmap.bits } } := by
  have hlen := h.length_serialize
  have hsize := h.size
  have hlt := h.npages_lt
  rw [← imageValue_serialized h]
  apply deserialize_fits (whole_serialized h) ⟨hroom, by omega⟩
  · rw [imagePages_serialized]
    omega
  · rw [sections_serialized h]
    omega

end Stored

/-! ### The summary -/

section Summary

variable {room : Nat} {p : Bytes} {m : RawMeta}

/-- An accepted image passed the checks, and its sections add up. -/
theorem deserialize_ok_inv (h : deserialize room p = .ok m) :
    whole p = true ∧ Allocable room p.length ∧ imagePages p + 7 < 2 ^ 64 ∧
      crcsOff p + imagePages p * 4 < 2 ^ 64 ∧ m = imageValue p := by
  have hwhole : whole p = true := by
    by_contra hnot
    rcases @deserialize_of_not_whole room p hnot with hstop | hstop <;>
      rw [hstop] at h <;> cases h
  have hroom : Allocable room p.length := by
    by_contra hnot
    rcases deserialize_of_not_allocable hnot with hstop | hstop <;> rw [hstop] at h <;> cases h
  obtain ⟨hlen, hkeyLen, -⟩ := sizes_of_whole hwhole
  have heq : deserialize room p = copySections room p (slice p 0 kHeaderSize) := by
    rw [deserialize_of_whole hwhole, alloc_of_allocable hroom]
    rfl
  have hbits : imagePages p + 7 < 2 ^ 64 := by
    by_contra hwrap
    rw [heq, copySections_wrapped (by omega) hlen hkeyLen hroom] at h
    cases h
  have hsum : crcsOff p + imagePages p * 4 < 2 ^ 64 := by
    by_contra hwrap
    rcases @copySections_wide room p hbits (by omega) hkeyLen with
      ⟨-, -, hstop⟩ | ⟨-, hstop⟩ <;>
      rw [heq, hstop] at h <;> cases h
  rw [deserialize_fits hwhole hroom hbits hsum] at h
  cases h
  exact ⟨hwhole, hroom, hbits, hsum, rfl⟩

/-- The one read of the summary holds the key and the bitmap of the image. -/
theorem summarySections_eq (hwhole : whole p = true) (hroom : Allocable room p.length)
    (hbits : imagePages p + 7 < 2 ^ 64) (hsum : crcsOff p + imagePages p * 4 < 2 ^ 64) :
    summarySections room p (slice p 0 kHeaderSize) = .ok { imageValue p with pageCrcs := [] } := by
  obtain ⟨hlen, -, -⟩ := sizes_of_whole hwhole
  have hoff := bitmapOff_bounds p
  have hsize := bitmapSize_of_lt hbits
  have hcrcs := crcsOff_eq p
  rw [total, Nat.mod_eq_of_lt hsum] at hlen
  obtain ⟨hle, hmax⟩ := hroom
  have halloc : ∀ n ≤ p.length, Allocable room n := fun n hn => ⟨by omega, by omega⟩
  have hbuf : (slice p kHeaderSize (crcsOff p - kHeaderSize)).length = crcsOff p - kHeaderSize := by
    rw [length_slice]
    omega
  have hkey : slice (slice p kHeaderSize (crcsOff p - kHeaderSize)) 0 (get p 48 4) =
      slice p kHeaderSize (get p 48 4) := by
    rw [slice_slice (by omega), Nat.add_zero]
  have hraw : slice (slice p kHeaderSize (crcsOff p - kHeaderSize)) (bitmapOff p - kHeaderSize)
      (bitmapSize p) = slice p (bitmapOff p) (bitmapSize p) := by
    rw [slice_slice (by omega), Nat.add_sub_cancel' (by omega)]
  have hcount : imagePages p ≤ 8 * (slice p (bitmapOff p) (bitmapSize p)).length := by
    rw [length_slice]
    omega
  rw [summarySections, crcsOff_head, get_head (by decide), bitmapOff_head, bitmapSize_head,
    imagePages_head, headerFields_head, alloc_of_allocable (halloc _ (by omega))]
  simp only [bind, Except.bind]
  rw [if_pos hbuf, alloc_of_allocable (halloc _ (by omega)), copyOut_of_within (.inr (by omega)),
    alloc_of_allocable (halloc _ (by omega)), copyOut_of_within (.inr (by omega)), hkey, hraw]
  simp only [RawBitmap.recount, if_pos hcount]
  rfl

theorem load_eq (hsize : 0 < p.length ∧ p.length ≤ 2 ^ 31) (hroom : Allocable room p.length) :
    load room p = deserialize room p := by
  rw [load, if_pos hsize, alloc_of_allocable hroom]
  rfl

theorem loadSummary_of_load (h : load room p = .ok m) :
    loadSummary room p = .ok { m with pageCrcs := [] } := by
  unfold load at h
  split at h
  · rename_i hsize
    by_cases hroom : Allocable room p.length
    · rw [alloc_of_allocable hroom] at h
      obtain ⟨hwhole, -, hbits, hsum, rfl⟩ := deserialize_ok_inv h
      obtain ⟨hlen, hok, -⟩ := (whole_iff p).1 hwhole
      simp only [Bool.and_eq_true, decide_eq_true_eq] at hok
      obtain ⟨⟨⟨hours, hpage⟩, htotal⟩, hkey⟩ := hok
      have hhead : (slice p 0 kHeaderSize).length = kHeaderSize := by
        rw [length_slice]
        omega
      simp only [loadSummary, ours_head, pageSizeOk_head, total_head,
        get_head (show 48 + 4 ≤ kHeaderSize by decide)]
      rw [if_pos ⟨hlen, hsize.2⟩, if_pos ⟨hhead, hours⟩, if_pos ⟨hpage, hkey⟩, if_pos htotal]
      exact summarySections_eq hwhole hroom hbits hsum
    · rw [alloc, if_neg hroom] at h
      cases h
  · cases h

end Summary

/-- **The sidecar codec**: a stored value comes back field by field with the count of its bits,
where the allocator has room for the image; and whatever file the full reader accepts, the summary
reader accepts as the same value without its checksums. -/
theorem sidecar_codec :
    (∀ (room : Nat) (m : RawMeta), WellFormed m → (serialize m).length ≤ room →
      deserialize room (serialize m) =
        .ok { m with bitmap := { m.bitmap with count := bitCount m.bitmap.bits } }) ∧
    ∀ (room : Nat) (content : Bytes) (m : RawMeta), load room content = .ok m →
      loadSummary room content = .ok { m with pageCrcs := [] } :=
  ⟨fun _ _ h hroom => deserialize_serialized h hroom, fun _ _ _ h => loadSummary_of_load h⟩

/-- A file of 9000 bytes with its first and its last page. -/
def threePages : RawMeta :=
  { pageSize := 4096, flags := 2, fileSize := 9000, atime := 7, originMtime := 0, cksumKind := 1
    originCksum := 11, key := [47, 97], bitmap := ⟨[5], 3, 2⟩, pageCrcs := [21, 0, 23] }

/-- The image of a sidecar of three pages comes back. -/
theorem sidecar_codec_three_pages :
    deserialize 100 (serialize threePages) = .ok threePages ∧
      loadSummary 100 (serialize threePages) = .ok { threePages with pageCrcs := [] } := by
  have hback : deserialize 100 (serialize threePages) = .ok threePages :=
    sidecar_codec.1 100 threePages
      { pageSize := ⟨12, by decide⟩
        key := by decide
        bitmapPages := by decide
        bitmapBits := by decide
        clean := by
          intro i hi
          by_cases hlt : i < 8
          · have hfirst : ∀ i < 8, threePages.npages ≤ i →
                PageBitmap.rawBit threePages.bitmap.bits i = false := by decide
            exact hfirst i hlt hi
          · have hnone : threePages.bitmap.bits.getD (i / 8) 0 = 0 :=
              List.getD_eq_default _ _ (by
                change 1 ≤ i / 8
                omega)
            rw [PageBitmap.rawBit, hnone]
            exact Nat.zero_testBit _
        pageCrcs := by decide
        size := by decide } (by decide +kernel)
  refine ⟨hback, sidecar_codec.2 100 _ threePages ?_⟩
  have hsize : 0 < (serialize threePages).length ∧ (serialize threePages).length ≤ 2 ^ 31 := by
    decide +kernel
  have hroom : Allocable 100 (serialize threePages).length := by decide +kernel
  rw [load_eq hsize hroom, hback]

end UCache.SidecarCodec
