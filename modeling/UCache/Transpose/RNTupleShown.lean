/-
Module: UCache.Transpose.RNTupleShown
Purpose: A column-store file shown over its slots is one again: the anchor, the footer and the page
  list that were written for it lead to the same columns and clusters, with the moved pages at their
  slots.
Trusted boundary: none
Main exports: readAnchor_again
-/
import UCache.Transpose.ContainerShown
import UCache.Transpose.EnvelopeTrip

namespace UCache

open Lib

/-! ### The anchor -/

theorem slice_be {p : Bytes} {off n : Nat} (h : off + n ≤ p.length) :
    slice p off n = be n (beGet p off n) := by
  have hround := be_ofBe (slice p off n)
  rw [length_slice, Nat.min_eq_left (by omega)] at hround
  exact hround.symm

theorem beGet_be {p : Bytes} {off n v : Nat} (h : slice p off n = be n v) (hv : v < 256 ^ n) :
    beGet p off n = v := by
  rw [beGet, h, ofBe_be, Nat.mod_eq_of_lt hv]

theorem beGet_lt (p : Bytes) (off n : Nat) : beGet p off n < 256 ^ n := by
  have hlt := ofLe_lt (slice p off n).reverse
  rw [List.length_reverse, length_slice] at hlt
  exact hlt.trans_le (Nat.pow_le_pow_right (by omega) (Nat.min_le_left _ _))

/-- The front of the anchor's checksummed window: everything but its footer link. -/
def anchorFront (a : RNTupleAnchor) : Bytes :=
  be 2 a.versionEpoch ++ be 2 a.versionMajor ++ be 2 a.versionMinor ++ be 2 a.versionPatch ++
    be 8 a.seekHeader ++ be 8 a.nbytesHeader ++ be 8 a.lenHeader

theorem slice_anchorFront {k : KeyInfo} {ap : Bytes} (h : 78 ≤ ap.length) :
    slice ap 6 32 = anchorFront (readAnchor k ap) := by
  have hsplit : slice ap 6 32 = slice ap 6 2 ++ slice ap 8 2 ++ slice ap 10 2 ++ slice ap 12 2 ++
      slice ap 14 8 ++ slice ap 22 8 ++ slice ap 30 8 := by
    rw [slice_append_slice ap 6 2 2, slice_append_slice ap 6 4 2, slice_append_slice ap 6 6 2,
      slice_append_slice ap 6 8 8, slice_append_slice ap 6 16 8, slice_append_slice ap 6 24 8]
  rw [hsplit, @slice_be ap 6 2 (by omega), @slice_be ap 8 2 (by omega),
    @slice_be ap 10 2 (by omega), @slice_be ap 12 2 (by omega), @slice_be ap 14 8 (by omega),
    @slice_be ap 22 8 (by omega), @slice_be ap 30 8 (by omega)]
  rfl

/-- The anchor's link to a footer. -/
structure FooterAt where
  seek : Nat
  nbytes : Nat
  len : Nat

/-- An anchor with another footer link. -/
def RNTupleAnchor.link (a : RNTupleAnchor) (f : FooterAt) : RNTupleAnchor :=
  { a with seekFooter := f.seek, nbytesFooter := f.nbytes, lenFooter := f.len }

/-- An anchor's payload whose patch was applied: the anchor with the new link, and a checksum that
fits. -/
theorem readAnchor_again {hash : Bytes → UInt64} {k : KeyInfo} {ap ap' : Bytes} {f : FooterAt}
    {m : RNTupleMeta} (ha : m.anchor = readAnchor k ap) (h78 : 78 ≤ ap.length)
    (hlen : ap'.length = ap.length) (hsame : SameOn ap ap' 6 38)
    (hpatch : slice ap' 38 40 = (anchorPatch hash m f.seek f.nbytes f.len).bytes)
    (hseek : f.seek < 2 ^ 64) (hnbytes : f.nbytes < 2 ^ 64) (hflen : f.len < 2 ^ 64) :
    readAnchor k ap' = m.anchor.link f ∧ (hash (slice ap' 6 64)).toNat = beGet ap' 70 8 := by
  have hfield : ∀ off n, 6 ≤ off → off + n ≤ 38 → beGet ap' off n = beGet ap off n :=
    fun off n h1 h2 => beGet_congr fun i hi₁ hi₂ => hsame i (by omega) (by omega)
  -- the five numbers of the patch
  have hpiece : ∀ i, i + 8 ≤ 40 → slice ap' (38 + i) 8 =
      slice (anchorPatch hash m f.seek f.nbytes f.len).bytes i 8 := by
    intro i hi
    rw [← hpatch, slice_slice hi]
  have hbytes : (anchorPatch hash m f.seek f.nbytes f.len).bytes =
      [be 8 f.seek, be 8 f.nbytes, be 8 f.len, be 8 m.anchor.maxKeySize,
        be 8 (hash (anchorWindow m.anchor f.seek f.nbytes f.len)).toNat].flatten ++ [] := by
    simp [anchorPatch]
  rw [hbytes] at hpiece
  have h0 : slice ap' 38 8 = be 8 f.seek :=
    (hpiece 0 (by omega)).trans (@slice_piece _ _ _ 0 0 8 [] rfl rfl (length_be _ _))
  have h1 : slice ap' 46 8 = be 8 f.nbytes :=
    (hpiece 8 (by omega)).trans (@slice_piece _ _ _ 1 8 8 [] rfl (by simp) (length_be _ _))
  have h2 : slice ap' 54 8 = be 8 f.len :=
    (hpiece 16 (by omega)).trans (@slice_piece _ _ _ 2 16 8 [] rfl (by simp) (length_be _ _))
  have h3 : slice ap' 62 8 = be 8 m.anchor.maxKeySize :=
    (hpiece 24 (by omega)).trans (@slice_piece _ _ _ 3 24 8 [] rfl (by simp) (length_be _ _))
  have h4 : slice ap' 70 8 = be 8 (hash (anchorWindow m.anchor f.seek f.nbytes f.len)).toNat :=
    (hpiece 32 (by omega)).trans (@slice_piece _ _ _ 4 32 8 [] rfl (by simp) (length_be _ _))
  have hmax : m.anchor.maxKeySize < 256 ^ 8 := by
    rw [ha]
    exact beGet_lt ap 62 8
  have hread : readAnchor k ap' = m.anchor.link f := by
    rw [ha]
    simp only [readAnchor, RNTupleAnchor.link, hfield 6 2 (by omega) (by omega),
      hfield 8 2 (by omega) (by omega), hfield 10 2 (by omega) (by omega),
      hfield 12 2 (by omega) (by omega), hfield 14 8 (by omega) (by omega),
      hfield 22 8 (by omega) (by omega), hfield 30 8 (by omega) (by omega),
      beGet_be h0 (by omega), beGet_be h1 (by omega), beGet_be h2 (by omega), beGet_be h3 hmax,
      hlen, RNTupleAnchor.mk.injEq, true_and, and_true]
    rw [ha]
    rfl
  refine ⟨hread, ?_⟩
  have hwindow : slice ap' 6 64 = anchorWindow m.anchor f.seek f.nbytes f.len := by
    have hsplit : slice ap' 6 64 = slice ap' 6 32 ++ slice ap' 38 8 ++ slice ap' 46 8 ++
        slice ap' 54 8 ++ slice ap' 62 8 := by
      rw [slice_append_slice ap' 6 32 8, slice_append_slice ap' 6 40 8,
        slice_append_slice ap' 6 48 8, slice_append_slice ap' 6 56 8]
    rw [hsplit, @slice_anchorFront k ap' (by omega), hread, h0, h1, h2, h3]
    simp [anchorFront, RNTupleAnchor.link, anchorWindow]
  rw [hwindow, beGet_be h4]
  exact (hash _).toNat_lt

end UCache
