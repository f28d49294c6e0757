/-
Module: UCache.Core.MetaFile
Purpose: The sidecar of one entry: the presence bitmap, the metadata value, what a store
  writes and what a load gives back, and the test that decides whether a sidecar belongs
  to the origin a handle was opened for.
Trusted boundary: none
Main exports: Bytes, crc32c, PageBitmap
-/
import Mathlib.Logic.Function.Basic
import Mathlib.Data.Nat.Bitwise

namespace UCache

/-- A C++ byte buffer or string. -/
abbrev Bytes := List UInt8

/-! ### CRC-32C

[SRC vendor/crc32c.cc:23-55] The software path, byte by byte.  Slice-by-8 and the hardware
instruction compute the same function. -/

/-- One entry of `table[0]`: eight rounds of the reflected Castagnoli polynomial. -/
def crcRounds : Nat → UInt32 → UInt32
  | 0, c => c
  | k + 1, c => crcRounds k (if c &&& 1 = 1 then (0x82F63B78 : UInt32) ^^^ (c >>> 1)
      else c >>> 1)

/-- `table[0][(crc ^ b) & 0xFF] ^ (crc >> 8)`. -/
def crcByte (crc : UInt32) (b : UInt8) : UInt32 :=
  crcRounds 8 ((crc ^^^ b.toUInt32) &&& 0xFF) ^^^ (crc >>> 8)

/-- The incremental form: state inverted on entry and on exit. -/
def crc32cFrom (crc : UInt32) (p : Bytes) : UInt32 :=
  ~~~(p.foldl crcByte (~~~crc))

/-- CRC-32C of a text. -/
def crc32c (p : Bytes) : UInt32 := crc32cFrom 0 p

/-- The published check value of CRC-32C, over the digits one to nine. -/
example : crc32c [49, 50, 51, 52, 53, 54, 55, 56, 57] = 0xE3069283 := by decide +kernel

/-! ### The presence bitmap -/

/-- [SRC PageBitmap.h] One bit per page with a running popcount.  Bit `i` of the model is bit
`i & 7` of `bits_[i >> 3]`. -/
structure PageBitmap where
  npages : Nat
  bit : Nat → Bool
  count : Nat

namespace PageBitmap

def reset (npages : Nat) : PageBitmap :=
  { npages := npages, bit := fun _ => false, count := 0 }

def get (b : PageBitmap) (i : Nat) : Bool := b.bit i

def set (b : PageBitmap) (i : Nat) : PageBitmap :=
  if b.bit i then b
  else { b with bit := Function.update b.bit i true, count := b.count + 1 }

def clear (b : PageBitmap) (i : Nat) : PageBitmap :=
  if b.bit i then { b with bit := Function.update b.bit i false, count := b.count - 1 }
  else b

def clearAll (b : PageBitmap) : PageBitmap :=
  { b with bit := fun _ => false, count := 0 }

/-- Recompute the popcount after the bits were loaded from outside. -/
def recount (b : PageBitmap) : PageBitmap :=
  { b with count := (List.range b.npages).countP b.bit }

@[simp] theorem get_reset (n i : Nat) : (reset n).get i = false := rfl

@[simp] theorem get_clearAll (b : PageBitmap) (i : Nat) : b.clearAll.get i = false := rfl

@[simp] theorem get_recount (b : PageBitmap) (i : Nat) : b.recount.get i = b.get i := rfl

@[simp] theorem get_set (b : PageBitmap) (i j : Nat) :
    (b.set i).get j = (decide (j = i) || b.get j) := by
  unfold set get
  by_cases hi : b.bit i
  · by_cases hj : j = i <;> simp [hi, hj]
  · by_cases hj : j = i
    · subst hj
      simp [hi]
    · simp [hi, hj]

@[simp] theorem get_clear (b : PageBitmap) (i j : Nat) :
    (b.clear i).get j = (!decide (j = i) && b.get j) := by
  unfold clear get
  by_cases hi : b.bit i
  · by_cases hj : j = i
    · subst hj
      simp [hi]
    · simp [hi, hj]
  · by_cases hj : j = i
    · subst hj
      simp [hi]
    · simp [hi, hj]

/-- A loop over the pages below `n` that sets, clears or leaves each bit. -/
def updateRange (b : PageBitmap) (n : Nat) (f : Nat → Option Bool) : PageBitmap :=
  (List.range n).foldl
    (fun b i =>
      match f i with
      | some true => b.set i
      | some false => b.clear i
      | none => b) b

theorem get_updateRange (b : PageBitmap) (n : Nat) (f : Nat → Option Bool) (i : Nat) :
    (b.updateRange n f).get i = if i < n then (f i).getD (b.get i) else b.get i := by
  induction n with
  | zero => simp [updateRange]
  | succ n ih =>
      have hstep : b.updateRange (n + 1) f =
          match f n with
          | some true => (b.updateRange n f).set n
          | some false => (b.updateRange n f).clear n
          | none => b.updateRange n f := by
        simp [updateRange, List.range_succ, List.foldl_append]
      rw [hstep]
      -- Page `n` is decided by this turn of the loop, every other page by the earlier ones.
      by_cases hin : i = n
      · subst hin
        cases hf : f i with
        | none => simp [ih]
        | some v => cases v <;> simp
      · have hlt : i < n + 1 ↔ i < n := by omega
        cases hf : f n with
        | none => simp only [ih, hlt]
        | some v => cases v <;> simp [ih, hin, hlt]

end PageBitmap

/-! ### The metadata value -/

/-- [SRC MetaFile.h:25-55] `flags` is kept as its two bits.  `pageCrcs` is the table of per-page
CRCs and `ncrcs` its length. -/
structure MetaData where
  pageSize : Nat
  pinned : Bool := false
  complete : Bool := false
  fileSize : Nat
  atime : Nat := 0
  originMtime : Nat := 0
  cksumKind : Nat := 0
  originCksum : Nat := 0
  key : Bytes
  bitmap : PageBitmap
  pageCrcs : Nat → UInt32
  ncrcs : Nat

namespace MetaData

def kCksumNone : Nat := 0

/-- Pages of a file of the given size. -/
def pagesOf (pageSize fileSize : Nat) : Nat :=
  if pageSize = 0 then 0 else (fileSize + pageSize - 1) / pageSize

def npages (m : MetaData) : Nat := pagesOf m.pageSize m.fileSize

/-- Bytes page `i` covers: the tail page may be short. -/
def pageBytes (m : MetaData) (i : Nat) : Nat :=
  min (i * m.pageSize + m.pageSize) m.fileSize - i * m.pageSize

/-- A fresh sidecar: every page absent. -/
def fresh (key : Bytes) (fileSize pageSize : Nat) (now : Nat) : MetaData :=
  { pageSize := pageSize
    fileSize := fileSize
    atime := now
    key := key
    bitmap := PageBitmap.reset (pagesOf pageSize fileSize)
    pageCrcs := fun _ => 0
    ncrcs := pagesOf pageSize fileSize }

/-- Presence and checksum of one page: what a sidecar says about it. -/
def page (m : MetaData) (i : Nat) : Bool × UInt32 := (m.bitmap.get i, m.pageCrcs i)

end MetaData

namespace MetaFile

def align8 (n : Nat) : Nat := (n + 7) / 8 * 8

/-- Length of the image `serialize` makes: header, key, bitmap, CRC table. -/
def imageSize (m : MetaData) : Nat :=
  align8 (56 + m.key.length) + (m.npages + 7) / 8 + m.npages * 4

/-- The guards a stored image must pass to be read back: the size cap of `load`, and the key
length and page size checks of `deserialize`. -/
def readable (m : MetaData) : Bool :=
  decide (imageSize m ≤ 2 ^ 31) && decide (m.key.length ≤ 64 * 1024) &&
    decide (m.pageSize ≠ 0) && decide (m.pageSize &&& (m.pageSize - 1) = 0)

/-- [SRC MetaFile.cc:184-199] What `load` gives for the sidecar on disk: nothing when there is
none or its image is refused, else the stored value with its popcount recomputed.  A rename is
atomic, so the sidecar is a whole image or none. -/
def load (sidecar : Option MetaData) : Option MetaData :=
  match sidecar with
  | none => none
  | some m =>
      if readable m then some { m with bitmap := m.bitmap.recount, ncrcs := m.npages } else none

/-- A loaded value says of every page what the stored one says, and keeps what identifies it. -/
theorem load_eq_some {sidecar : Option MetaData} {m : MetaData} (h : load sidecar = some m) :
    ∃ d, sidecar = some d ∧ readable d = true ∧
      m = { d with bitmap := d.bitmap.recount, ncrcs := d.npages } := by
  unfold load at h
  cases sidecar with
  | none => simp at h
  | some d =>
      by_cases hr : readable d = true
      · exact ⟨d, rfl, hr, by simpa [hr] using h.symm⟩
      · simp [hr] at h

end MetaFile

/-! ### Configuration and validation -/

inductive ValidateMode where
  | none | size | sizeMtime | cksum
deriving DecidableEq, Repr

inductive FsyncMode where
  | off | data | all
deriving DecidableEq, Repr

/-- The settings the entry consults. -/
structure Config where
  pageSize : Nat := 4096
  validate : ValidateMode := .size
  fsync : FsyncMode := .off
  fillBufferMb : Int := 48

/-- [SRC Config.h:256] -/
def Config.validPageSize (p : Nat) : Bool :=
  decide (4096 ≤ p) && decide (p ≤ 2 ^ 20) && decide (p &&& (p - 1) = 0)

/-- What a handle was opened for: the origin's size and validators. -/
structure Validators where
  originSize : Nat
  originMtime : Nat := 0
  cksumKind : Nat := 0
  originCksum : Nat := 0
deriving DecidableEq, Repr

/-- The validators a sidecar records. -/
def MetaData.validators (m : MetaData) : Validators :=
  { originSize := m.fileSize, originMtime := m.originMtime, cksumKind := m.cksumKind,
    originCksum := m.originCksum }

/-- [SRC FileEntry.cc:135-145] Would `open` adopt this sidecar for this origin? -/
def adoptable (m : MetaData) (cfg : Config) (key : Bytes) (v : Validators) : Bool :=
  decide (m.key = key) && decide (m.fileSize = v.originSize) &&
    Config.validPageSize m.pageSize && decide (m.npages = m.ncrcs) &&
    (decide (cfg.validate ≠ .sizeMtime) || decide (m.originMtime = v.originMtime)) &&
    (decide (cfg.validate ≠ .cksum) || decide (v.cksumKind = MetaData.kCksumNone) ||
      (decide (m.cksumKind = v.cksumKind) && decide (m.originCksum = v.originCksum)))

end UCache
