/-
Module: UCache.Transpose.Frames
Purpose: Compressed payloads: a sequence of frames, each naming its codec and its two lengths,
  over block codecs that are parameters.
Trusted boundary: none
Main exports: Decoders, Encoder, decompressFrames
-/
import UCache.Transpose.Key

namespace UCache

open Lib

/-- The block decoders of the compression libraries: a block into a stretch of so many bytes.
`none` is a decoder that reports an error. -/
structure Decoders where
  lzma : Bytes → Nat → Option Bytes
  zlib : Bytes → Nat → Option Bytes
  zstd : Bytes → Nat → Option Bytes
  lz4 : Bytes → Nat → Option Bytes

/-- Decoders that report an error for every block. -/
def noDecoders : Decoders where
  lzma := fun _ _ => none
  zlib := fun _ _ => none
  zstd := fun _ _ => none
  lz4 := fun _ _ => none

/-- The ZSTD encoder at a level; `none` when it reports an error. -/
abbrev Encoder : Type := Bytes → Nat → Option Bytes

/-- [SRC TreeMeta.cc:206-244] The first frame of a payload: what it decodes to, and the rest. -/
def decodeFrame (D : Decoders) (rest : Bytes) : Option (Bytes × Bytes) :=
  let csize := ofLe (slice rest 3 3)
  let usize := ofLe (slice rest 6 3)
  if rest.length < 9 ∨ rest.length < 9 + csize then none
  else
    let blob := slice rest 9 csize
    let magic := slice rest 0 2
    let out :=
      if magic = ascii "XZ" then D.lzma blob usize
      else if magic = ascii "ZL" then D.zlib blob usize
      else if magic = ascii "ZS" then D.zstd blob usize
      else if magic = ascii "L4" then if csize < 8 then none else D.lz4 (blob.drop 8) usize
      else none
    match out with
    | none => none
    | some b => if b.length = usize then some (b, rest.drop (9 + csize)) else none

/-- The loop over the frames.  A frame takes nine bytes of the payload or more, so as many turns
as the payload has bytes are enough: with none left there is no frame to read. -/
def decompressLoop (D : Decoders) (objlen : Nat) : Nat → Bytes → Bytes → Bytes
  | 0, _, out => if out.length = objlen then out else []
  | fuel + 1, rest, out =>
      if out.length < objlen then
        match decodeFrame D rest with
        | none => []
        | some (b, rest') => decompressLoop D objlen fuel rest' (out ++ b)
      else if out.length = objlen then out
      else []

/-- [SRC TreeMeta.cc:199-247] Exactly `objlen` bytes, or nothing. -/
def decompressFrames (D : Decoders) (payload : Bytes) (objlen : Nat) : Bytes :=
  decompressLoop D objlen payload.length payload []

/-- 16 MiB - 1, the most one frame holds. -/
def kMaxFrame : Nat := 0xFFFFFF

/-- [SRC Transposer.cc:35-60] The frames of `raw`; nothing when the encoder fails on one. -/
def zstdFrames (E : Encoder) (level : Nat) : Nat → Bytes → Option Bytes
  | 0, _ => some []
  | fuel + 1, raw =>
      if raw = [] then some []
      else do
        let chunk := raw.take kMaxFrame
        let got ← E chunk level
        let rest ← zstdFrames E level fuel (raw.drop kMaxFrame)
        -- Both lengths are three bytes wide in the frame header.
        some (ascii "ZS" ++ [1] ++ le 3 got.length ++ le 3 chunk.length ++ got ++ rest)

/-- [SRC Transposer.cc:510-512] -/
def encodeZstdFrames (E : Encoder) (raw : Bytes) (level : Nat) : Bytes :=
  (zstdFrames E level raw.length raw).getD []

/-- Compressed, or as it is when that does not shrink it. -/
def shrink (E : Encoder) (raw : Bytes) (level : Nat) : Bytes :=
  if encodeZstdFrames E raw level = [] ∨ raw.length ≤ (encodeZstdFrames E raw level).length then raw
  else encodeZstdFrames E raw level

/-- Decoding undoes this encoder on `raw`. -/
def Undoes (D : Decoders) (E : Encoder) (level : Nat) (raw : Bytes) : Prop :=
  encodeZstdFrames E raw level ≠ [] →
    decompressFrames D (encodeZstdFrames E raw level) raw.length = raw

theorem shrink_cases (E : Encoder) (raw : Bytes) (level : Nat) :
    shrink E raw level = raw ∨ (shrink E raw level = encodeZstdFrames E raw level ∧
      encodeZstdFrames E raw level ≠ [] ∧ (encodeZstdFrames E raw level).length < raw.length) := by
  unfold shrink
  split
  · exact Or.inl rfl
  · rename_i h
    simp only [not_or, Nat.not_le] at h
    exact Or.inr ⟨rfl, h⟩

theorem decompressLoop_length (D : Decoders) (objlen fuel : Nat) (rest out : Bytes) :
    decompressLoop D objlen fuel rest out = [] ∨
      (decompressLoop D objlen fuel rest out).length = objlen := by
  induction fuel generalizing rest out with
  | zero =>
      rw [decompressLoop]
      split
      · exact Or.inr ‹_›
      · exact Or.inl rfl
  | succ fuel ih =>
      rw [decompressLoop]
      split
      · split
        · exact Or.inl rfl
        · exact ih _ _
      · split
        · exact Or.inr ‹_›
        · exact Or.inl rfl

/-- A payload that decodes does so to the length it was asked for. -/
theorem decompressFrames_length {D : Decoders} {payload : Bytes} {objlen : Nat}
    (h : decompressFrames D payload objlen ≠ []) :
    (decompressFrames D payload objlen).length = objlen :=
  (decompressLoop_length D objlen payload.length payload []).resolve_left h

end UCache
