/-
Module: UCache.Transpose.FrameTrip
Purpose: When compressed frames decode to the bytes they were made from: exactly when every chunk
  compresses to a length that three bytes hold.
Trusted boundary: none
Main exports: ZstdUndoes, FramesFit, frames_come_back_iff
-/
import UCache.Transpose.Frames

namespace UCache

open Lib

variable {E : Encoder} {level : Nat}

/-- ZSTD decompression undoes compression at this level, for every chunk a frame may hold. -/
def ZstdUndoes (D : Decoders) (E : Encoder) (level : Nat) : Prop :=
  ∀ chunk got, chunk.length ≤ kMaxFrame → E chunk level = some got →
    D.zstd got chunk.length = some chunk

/-- The chunks `raw` is cut into compress to lengths that three bytes hold. -/
def FramesFit (E : Encoder) (raw : Bytes) (level : Nat) : Prop :=
  ∀ i, i * kMaxFrame < raw.length → ∀ got,
    E ((raw.drop (i * kMaxFrame)).take kMaxFrame) level = some got → got.length < 2 ^ 24

theorem framesFit_nil (E : Encoder) (level : Nat) : FramesFit E [] level := by
  intro i hi
  simp at hi

/-- The first chunk and the rest. -/
theorem framesFit_cons {raw : Bytes} (hne : raw ≠ []) :
    FramesFit E raw level ↔
      (∀ got, E (raw.take kMaxFrame) level = some got → got.length < 2 ^ 24) ∧
        FramesFit E (raw.drop kMaxFrame) level := by
  have hpos : 0 < raw.length := List.length_pos_iff.2 hne
  constructor
  · intro h
    constructor
    · have h0 := h 0 (by omega)
      simpa using h0
    · intro i hi
      have hnext := h (i + 1) (by rw [List.length_drop] at hi; rw [Nat.succ_mul]; omega)
      rw [List.drop_drop]
      rwa [Nat.succ_mul, Nat.add_comm] at hnext
  · rintro ⟨h0, hrest⟩ i hi
    cases i with
    | zero => simpa using h0
    | succ i =>
        rw [Nat.succ_mul] at hi ⊢
        have hnext := hrest i (by rw [List.length_drop]; omega)
        rwa [List.drop_drop, Nat.add_comm] at hnext

/-! ### One frame -/

theorem zstdFrames_nil (E : Encoder) (level fuel : Nat) : zstdFrames E level fuel [] = some [] := by
  cases fuel <;> rfl

/-- One step of the writer. -/
theorem zstdFrames_succ {fuel : Nat} {raw z : Bytes} (hne : raw ≠ [])
    (h : zstdFrames E level (fuel + 1) raw = some z) :
    ∃ got rest, E (raw.take kMaxFrame) level = some got ∧
      zstdFrames E level fuel (raw.drop kMaxFrame) = some rest ∧
        z = ascii "ZS" ++ [1] ++ le 3 got.length ++ le 3 (raw.take kMaxFrame).length ++
          (got ++ rest) := by
  rw [zstdFrames, if_neg hne] at h
  simp only [Option.bind_eq_bind, Option.bind_eq_some_iff, Option.some.injEq] at h
  obtain ⟨got, hgot, rest, hrest, rfl⟩ := h
  exact ⟨got, rest, hgot, hrest, by simp⟩

/-- Reading a frame whose header says `csize` and `usize`, each as far as three bytes go. -/
theorem decodeFrame_zstd (D : Decoders) (csize usize : Nat) (tail : Bytes) :
    decodeFrame D (ascii "ZS" ++ [1] ++ le 3 csize ++ le 3 usize ++ tail) =
      if tail.length < csize % 2 ^ 24 then none
      else
        match D.zstd (tail.take (csize % 2 ^ 24)) (usize % 2 ^ 24) with
        | none => none
        | some b =>
            if b.length = usize % 2 ^ 24 then some (b, tail.drop (csize % 2 ^ 24)) else none := by
  have hmagic : slice (ascii "ZS" ++ [1] ++ le 3 csize ++ le 3 usize ++ tail) 0 2 = ascii "ZS" := by
    simp only [List.append_assoc]
    exact slice_head rfl
  have hcsize : ofLe (slice (ascii "ZS" ++ [1] ++ le 3 csize ++ le 3 usize ++ tail) 3 3) =
      csize % 2 ^ 24 := by
    have hread : slice (ascii "ZS" ++ [1] ++ le 3 csize ++ le 3 usize ++ tail) 3 3 = le 3 csize := by
      simp only [List.append_assoc]
      exact slice_head (length_le 3 csize)
    rw [hread, ofLe_le]
    rfl
  have husize : ofLe (slice (ascii "ZS" ++ [1] ++ le 3 csize ++ le 3 usize ++ tail) 6 3) =
      usize % 2 ^ 24 := by
    have hread : slice (ascii "ZS" ++ [1] ++ le 3 csize ++ le 3 usize ++ tail) 6 3 = le 3 usize := by
      simp only [List.append_assoc]
      exact slice_head (length_le 3 usize)
    rw [hread, ofLe_le]
    rfl
  have hdrop : ∀ n, (ascii "ZS" ++ [1] ++ le 3 csize ++ le 3 usize ++ tail).drop (9 + n) =
      tail.drop n := by
    intro n
    rw [← List.drop_drop]
    rfl
  have hlen : (ascii "ZS" ++ [1] ++ le 3 csize ++ le 3 usize ++ tail).length = 9 + tail.length := by
    simp only [List.length_append, length_le]
    simp
  have hblob : ∀ n, slice (ascii "ZS" ++ [1] ++ le 3 csize ++ le 3 usize ++ tail) 9 n =
      tail.take n := by
    intro n
    rfl
  unfold decodeFrame
  simp only [hmagic, hcsize, husize, hdrop, hlen, hblob]
  have hxz : ascii "ZS" ≠ ascii "XZ" := by decide
  have hzl : ascii "ZS" ≠ ascii "ZL" := by decide
  rw [if_neg hxz, if_neg hzl, if_pos trivial]
  by_cases hshort : tail.length < csize % 2 ^ 24
  · rw [if_pos hshort, if_pos (by omega)]
  · rw [if_neg hshort]
    exact if_neg (by omega)

/-! ### All frames -/

variable {D : Decoders}

/-- Whatever is decoded is decoded behind what there is. -/
theorem decompressLoop_prefix (D : Decoders) (objlen fuel : Nat) (rest out : Bytes) :
    decompressLoop D objlen fuel rest out = [] ∨
      ∃ more, decompressLoop D objlen fuel rest out = out ++ more := by
  induction fuel generalizing rest out with
  | zero =>
      rw [decompressLoop]
      split
      · exact Or.inr ⟨[], by simp⟩
      · exact Or.inl rfl
  | succ fuel ih =>
      rw [decompressLoop]
      split
      · split
        · exact Or.inl rfl
        · rename_i b rest' _
          obtain hnil | ⟨more, hmore⟩ := ih rest' (out ++ b)
          · exact Or.inl hnil
          · exact Or.inr ⟨b ++ more, by rw [hmore, List.append_assoc]⟩
      · split
        · exact Or.inr ⟨[], by simp⟩
        · exact Or.inl rfl

/-- With nothing left to decode the loop gives what it holds. -/
theorem decompressLoop_done (D : Decoders) (fuel : Nat) (rest out : Bytes) :
    decompressLoop D out.length fuel rest out = out := by
  cases fuel <;> simp [decompressLoop]

/-- A frame behind `out` when more is wanted. -/
theorem decompressLoop_step {objlen fuel : Nat} {rest out : Bytes} (h : out.length < objlen) :
    decompressLoop D objlen (fuel + 1) rest out =
      match decodeFrame D rest with
      | none => []
      | some (b, rest') => decompressLoop D objlen fuel rest' (out ++ b) := by
  rw [decompressLoop]
  exact if_pos h

/-- A frame whose compressed length fits its field decodes to its chunk. -/
theorem decodeFrame_fits {raw got rest : Bytes} (hlib : ZstdUndoes D E level)
    (hgot : E (raw.take kMaxFrame) level = some got) (hfit : got.length < 2 ^ 24) :
    decodeFrame D (ascii "ZS" ++ [1] ++ le 3 got.length ++ le 3 (raw.take kMaxFrame).length ++
      (got ++ rest)) = some (raw.take kMaxFrame, rest) := by
  have hchunk : (raw.take kMaxFrame).length ≤ kMaxFrame := by simp
  have hdec := hlib _ _ hchunk hgot
  have husize : (raw.take kMaxFrame).length % 2 ^ 24 = (raw.take kMaxFrame).length :=
    Nat.mod_eq_of_lt (by unfold kMaxFrame at hchunk ⊢; omega)
  rw [decodeFrame_zstd, Nat.mod_eq_of_lt hfit, husize, List.take_left, List.drop_left, hdec]
  simp

/-- Frames that fit decode to the bytes they were made from, behind what there is. -/
theorem frames_undone (hlib : ZstdUndoes D E level) {fuel : Nat} {raw z : Bytes}
    (h : zstdFrames E level fuel raw = some z) (hfuel : raw.length ≤ fuel)
    (hfit : FramesFit E raw level) {fuel' : Nat} (hfuel' : z.length ≤ fuel') (out : Bytes) :
    decompressLoop D (out ++ raw).length fuel' z out = out ++ raw := by
  induction fuel generalizing raw z fuel' out with
  | zero =>
      have hnil : raw = [] := List.length_eq_zero_iff.1 (by omega)
      rw [hnil, List.append_nil]
      exact decompressLoop_done D fuel' z out
  | succ fuel ih =>
      by_cases hne : raw = []
      · rw [hne, List.append_nil]
        exact decompressLoop_done D fuel' z out
      obtain ⟨got, rest, hgot, hrest, rfl⟩ := zstdFrames_succ hne h
      obtain ⟨hhead, htail⟩ := (framesFit_cons hne).1 hfit
      have hpos : 0 < raw.length := List.length_pos_iff.2 hne
      obtain ⟨turns, rfl⟩ : ∃ turns, fuel' = turns + 1 := by
        apply Nat.exists_eq_succ_of_ne_zero
        rw [List.length_append, List.length_append, length_le] at hfuel'
        omega
      rw [decompressLoop_step (by rw [List.length_append]; omega),
        decodeFrame_fits hlib hgot (hhead got hgot)]
      have hturns : rest.length ≤ turns := by
        simp only [List.length_append, length_le] at hfuel'
        omega
      have hrest' := ih hrest (by rw [List.length_drop]; unfold kMaxFrame; omega) htail hturns
        (out ++ raw.take kMaxFrame)
      rwa [List.append_assoc, List.take_append_drop] at hrest'

theorem undone_of_fit (hlib : ZstdUndoes D E level) {raw : Bytes} (hfit : FramesFit E raw level) :
    Undoes D E level raw := by
  intro hframes
  cases hz : zstdFrames E level raw.length raw with
  | none =>
      rw [encodeZstdFrames, hz] at hframes
      exact absurd rfl hframes
  | some z =>
      rw [encodeZstdFrames, hz, Option.getD_some]
      exact frames_undone hlib hz (Nat.le_refl _) hfit (Nat.le_refl _) []

/-! ### A decoder that knows nothing but the encoder -/

open Classical in
/-- Decodes what the encoder makes at this level, and nothing else. -/
noncomputable def strictDecoders (E : Encoder) (level : Nat) : Decoders where
  lzma := fun _ _ => none
  zlib := fun _ _ => none
  lz4 := fun _ _ => none
  zstd := fun blob n =>
    if h : ∃ chunk : Bytes, chunk.length = n ∧ n ≤ kMaxFrame ∧ E chunk level = some blob then
      some h.choose
    else none

theorem strictDecoders_some {n : Nat} {blob b : Bytes}
    (h : (strictDecoders E level).zstd blob n = some b) : b.length = n ∧ E b level = some blob := by
  simp only [strictDecoders] at h
  split at h
  · rename_i hex
    cases h
    exact ⟨hex.choose_spec.1, hex.choose_spec.2.2⟩
  · cases h

/-- It undoes the encoder when any decoder does: no two chunks of a length compress to the same
bytes. -/
theorem strictDecoders_undoes (hlib : ZstdUndoes D E level) :
    ZstdUndoes (strictDecoders E level) E level := by
  intro chunk got hlen hgot
  have hex : ∃ c : Bytes, c.length = chunk.length ∧ chunk.length ≤ kMaxFrame ∧
      E c level = some got := ⟨chunk, rfl, hlen, hgot⟩
  simp only [strictDecoders]
  rw [dif_pos hex]
  obtain ⟨hc, -, hsame⟩ := hex.choose_spec
  have h1 := hlib _ _ (by omega) hsame
  rw [hc, hlib _ _ hlen hgot] at h1
  exact h1.symm

/-- A frame whose compressed length does not fit its field is not read back. -/
theorem decodeFrame_strict {raw got rest b rest' : Bytes}
    (hgot : E (raw.take kMaxFrame) level = some got) (hbad : 2 ^ 24 ≤ got.length)
    (h : decodeFrame (strictDecoders E level) (ascii "ZS" ++ [1] ++ le 3 got.length ++
      le 3 (raw.take kMaxFrame).length ++ (got ++ rest)) = some (b, rest')) :
    b.length = (raw.take kMaxFrame).length ∧ b ≠ raw.take kMaxFrame := by
  have husize : (raw.take kMaxFrame).length % 2 ^ 24 = (raw.take kMaxFrame).length := by
    apply Nat.mod_eq_of_lt
    rw [List.length_take]
    unfold kMaxFrame
    omega
  have hwrap : got.length % 2 ^ 24 < got.length :=
    Nat.lt_of_lt_of_le (Nat.mod_lt _ (by omega)) hbad
  rw [decodeFrame_zstd, husize] at h
  split at h
  · cases h
  split at h
  · cases h
  rename_i b' hdec
  split at h
  · cases h
    obtain ⟨hlen, hcode⟩ := strictDecoders_some hdec
    refine ⟨hlen, ?_⟩
    rintro rfl
    rw [hgot, Option.some.injEq] at hcode
    have hshort := congrArg List.length hcode
    rw [List.length_take, List.length_append] at hshort
    omega
  · cases h

/-- Frames that the strict decoder reads back all fit. -/
theorem frames_fit_of_undone (hlib : ZstdUndoes D E level) {fuel : Nat} {raw z : Bytes}
    (h : zstdFrames E level fuel raw = some z) (hfuel : raw.length ≤ fuel) {fuel' : Nat}
    {out : Bytes} (hback : decompressLoop (strictDecoders E level) (out ++ raw).length fuel' z out =
      out ++ raw) (hfuel' : z.length ≤ fuel') : FramesFit E raw level := by
  induction fuel generalizing raw z fuel' out with
  | zero =>
      have hnil : raw = [] := List.length_eq_zero_iff.1 (by omega)
      rw [hnil]
      exact framesFit_nil E level
  | succ fuel ih =>
      by_cases hne : raw = []
      · rw [hne]
        exact framesFit_nil E level
      obtain ⟨got, rest, hgot, hrest, rfl⟩ := zstdFrames_succ hne h
      have hpos : 0 < raw.length := List.length_pos_iff.2 hne
      obtain ⟨turns, rfl⟩ : ∃ turns, fuel' = turns + 1 := by
        apply Nat.exists_eq_succ_of_ne_zero
        rw [List.length_append, List.length_append, length_le] at hfuel'
        omega
      have hsome : out ++ raw ≠ [] := by simp [hne]
      rw [decompressLoop_step (by rw [List.length_append]; omega)] at hback
      by_cases hfit : got.length < 2 ^ 24
      · rw [decodeFrame_fits (strictDecoders_undoes hlib) hgot hfit] at hback
        refine (framesFit_cons hne).2 ⟨?_, ?_⟩
        · intro got' hgot'
          rw [hgot, Option.some.injEq] at hgot'
          rwa [← hgot']
        · have hsplit : out ++ raw = out ++ raw.take kMaxFrame ++ raw.drop kMaxFrame := by
            rw [List.append_assoc, List.take_append_drop]
          rw [hsplit] at hback
          apply ih hrest (by rw [List.length_drop]; unfold kMaxFrame; omega) hback
          simp only [List.length_append, length_le] at hfuel'
          omega
      · exfalso
        split at hback
        · exact hsome hback.symm
        · rename_i b rest' hdec
          obtain ⟨hlen, hdiff⟩ := decodeFrame_strict hgot (by omega) hdec
          obtain hnil | ⟨more, hmore⟩ := decompressLoop_prefix (strictDecoders E level)
            (out ++ raw).length turns rest' (out ++ b)
          · exact hsome (hback.symm.trans hnil)
          · rw [hback, List.append_assoc] at hmore
            have hraw : raw = b ++ more := List.append_cancel_left hmore
            have hb : raw.take b.length = b := by
              rw [hraw]
              exact List.take_left
            rw [hlen, List.length_take, ← List.take_take, List.take_length] at hb
            exact hdiff hb.symm

/-! ### Stored blocks -/

/-- The most a ZSTD block holds. -/
def kZstdBlock : Nat := 2 ^ 17

/-- The blocks of a ZSTD frame, each stored as it is. -/
def storedBlocks : Nat → Bytes → Bytes
  | 0, _ => []
  | fuel + 1, raw =>
      if raw.length ≤ kZstdBlock then le 3 (8 * raw.length + 1) ++ raw
      else le 3 (8 * kZstdBlock) ++ raw.take kZstdBlock ++ storedBlocks fuel (raw.drop kZstdBlock)

/-- Reading stored blocks up to the last one. -/
def readStored : Nat → Bytes → Option Bytes
  | 0, _ => none
  | fuel + 1, b =>
      let head := ofLe (slice b 0 3)
      let size := head / 8
      if b.length < 3 + size ∨ head / 2 % 4 ≠ 0 then none
      else if head % 2 = 1 then some (slice b 3 size)
      else (readStored fuel (b.drop (3 + size))).map fun rest => slice b 3 size ++ rest

/-- What ZSTD makes of bytes it cannot shrink: the magic number, a frame header with the content
size in four bytes, and the blocks stored. -/
def storedEncoder : Encoder := fun raw _ =>
  some ([0x28, 0xB5, 0x2F, 0xFD, 0xA0] ++ le 4 raw.length ++ storedBlocks (raw.length + 1) raw)

/-- ZSTD decompression of frames of stored blocks. -/
def storedDecoders : Decoders where
  lzma := fun _ _ => none
  zlib := fun _ _ => none
  lz4 := fun _ _ => none
  zstd := fun b n =>
    if slice b 0 5 = [0x28, 0xB5, 0x2F, 0xFD, 0xA0] ∧ ofLe (slice b 5 4) = n then
      readStored (n + 1) (b.drop 9)
    else none

/-- `ZSTD_compressBound`. -/
def zstdCompressBound (n : Nat) : Nat :=
  n + n / 256 + if n < 2 ^ 17 then (2 ^ 17 - n) / 2048 else 0

theorem length_storedBlocks {fuel : Nat} {raw : Bytes} (h : raw.length < fuel) :
    (storedBlocks fuel raw).length = raw.length + 3 * ((raw.length - 1) / kZstdBlock + 1) := by
  induction fuel generalizing raw with
  | zero => omega
  | succ fuel ih =>
      rw [storedBlocks]
      split
      · rename_i hlast
        have hone : (raw.length - 1) / kZstdBlock = 0 := by
          apply Nat.div_eq_of_lt
          unfold kZstdBlock at hlast ⊢
          omega
        rw [List.length_append, length_le, hone]
        omega
      · rename_i hmore
        have hrest := @ih (raw.drop kZstdBlock) (by
          rw [List.length_drop]
          unfold kZstdBlock at hmore ⊢
          omega)
        rw [List.length_append, List.length_append, length_le, List.length_take, hrest,
          List.length_drop]
        unfold kZstdBlock at hmore ⊢
        omega

/-- Stored blocks are read back. -/
theorem readStored_storedBlocks {fuel : Nat} {raw : Bytes} (h : raw.length < fuel) :
    readStored fuel (storedBlocks fuel raw) = some raw := by
  induction fuel generalizing raw with
  | zero => omega
  | succ fuel ih =>
      rw [storedBlocks, readStored]
      split
      · rename_i hlast
        have hhead : ofLe (slice (le 3 (8 * raw.length + 1) ++ raw) 0 3) = 8 * raw.length + 1 := by
          rw [slice_head (length_le 3 _), ofLe_le]
          apply Nat.mod_eq_of_lt
          unfold kZstdBlock at hlast
          omega
        have hpay : slice (le 3 (8 * raw.length + 1) ++ raw) 3 raw.length = raw := by
          have := @slice_skip UInt8 (le 3 (8 * raw.length + 1)) raw 3 raw.length (by simp)
          simpa using this
        have hsize : (8 * raw.length + 1) / 8 = raw.length := by omega
        simp only [hhead, hsize, hpay]
        rw [if_neg, if_pos (by omega)]
        rw [List.length_append, length_le]
        omega
      · rename_i hmore
        have htake : (raw.take kZstdBlock).length = kZstdBlock := by
          rw [List.length_take]
          omega
        have hrest := @ih (raw.drop kZstdBlock) (by
          rw [List.length_drop]
          unfold kZstdBlock at hmore ⊢
          omega)
        generalize storedBlocks fuel (raw.drop kZstdBlock) = more at hrest ⊢
        have hhead : ofLe (slice (le 3 (8 * kZstdBlock) ++ raw.take kZstdBlock ++ more) 0 3) =
            8 * kZstdBlock := by
          rw [List.append_assoc, slice_head (length_le 3 _), ofLe_le]
          apply Nat.mod_eq_of_lt
          unfold kZstdBlock
          omega
        have hpay : slice (le 3 (8 * kZstdBlock) ++ raw.take kZstdBlock ++ more) 3 kZstdBlock =
            raw.take kZstdBlock := by
          rw [List.append_assoc, slice_skip (by simp), length_le]
          exact slice_head htake
        have hdrop : (le 3 (8 * kZstdBlock) ++ raw.take kZstdBlock ++ more).drop (3 + kZstdBlock) =
            more := by
          apply List.drop_left'
          rw [List.length_append, length_le, htake]
        have hsize : 8 * kZstdBlock / 8 = kZstdBlock := by omega
        simp only [hhead, hsize, hpay, hdrop, hrest, Option.map_some, List.take_append_drop]
        rw [if_neg, if_neg (by omega)]
        rw [List.length_append, List.length_append, length_le, htake]
        omega

theorem storedDecoders_undoes (level : Nat) : ZstdUndoes storedDecoders storedEncoder level := by
  intro chunk got hlen hgot
  cases hgot
  have hsize : ofLe (le 4 chunk.length) = chunk.length := by
    rw [ofLe_le]
    apply Nat.mod_eq_of_lt
    unfold kMaxFrame at hlen
    omega
  have hmagic : slice ([0x28, 0xB5, 0x2F, 0xFD, 0xA0] ++ le 4 chunk.length ++
      storedBlocks (chunk.length + 1) chunk) 0 5 = [0x28, 0xB5, 0x2F, 0xFD, 0xA0] := rfl
  have hcontent : slice ([0x28, 0xB5, 0x2F, 0xFD, 0xA0] ++ le 4 chunk.length ++
      storedBlocks (chunk.length + 1) chunk) 5 4 = le 4 chunk.length := rfl
  have hdrop : ([0x28, 0xB5, 0x2F, 0xFD, 0xA0] ++ le 4 chunk.length ++
      storedBlocks (chunk.length + 1) chunk).drop 9 = storedBlocks (chunk.length + 1) chunk := rfl
  simp only [storedDecoders, hmagic, hcontent, hsize, hdrop, and_self, if_true]
  exact readStored_storedBlocks (Nat.lt_succ_self _)

/-- What ZSTD cannot shrink comes back when it is short enough for three bytes. -/
theorem stored_undone {raw : Bytes} (hlen : raw.length < 2 ^ 23) (level : Nat) :
    Undoes storedDecoders storedEncoder level raw := by
  refine undone_of_fit (storedDecoders_undoes level) fun i _ got hgot => ?_
  cases hgot
  rw [List.length_append, List.length_append, length_le,
    length_storedBlocks (Nat.lt_succ_self _), List.length_take, List.length_drop]
  simp only [List.length_cons, List.length_nil, kZstdBlock]
  omega

theorem storedEncoder_le_bound {chunk got : Bytes} (h : storedEncoder chunk level = some got) :
    got.length ≤ zstdCompressBound chunk.length := by
  cases h
  rw [List.length_append, List.length_append, length_le,
    length_storedBlocks (Nat.lt_succ_self _)]
  simp only [List.length_cons, List.length_nil, kZstdBlock, zstdCompressBound]
  split <;> omega

/-- Bytes without a pattern: a mixed counter. -/
def noise (n : Nat) : Bytes :=
  (List.range n).map fun i =>
    let h₀ := UInt32.ofNat i
    let h₁ := (h₀ ^^^ (h₀ >>> 16)) * 0x85EBCA6B
    let h₂ := (h₁ ^^^ (h₁ >>> 13)) * 0xC2B2AE35
    (h₂ ^^^ (h₂ >>> 16)).toUInt8

/-- A full chunk stored as it is: the frame says 392 bytes and holds 2^24 more. -/
theorem decodeFrame_full {raw got rest : Bytes} {level : Nat} (hlen : raw.length = kMaxFrame)
    (hgot : storedEncoder raw level = some got) :
    decodeFrame storedDecoders (ascii "ZS" ++ [1] ++ le 3 got.length ++ le 3 raw.length ++
      (got ++ rest)) = none := by
  cases hgot
  have hblocks : storedBlocks (raw.length + 1) raw = le 3 (8 * kZstdBlock) ++
      (raw.take kZstdBlock ++ storedBlocks raw.length (raw.drop kZstdBlock)) := by
    rw [storedBlocks, if_neg, List.append_assoc]
    rw [hlen]
    decide
  have hcsize : ([0x28, 0xB5, 0x2F, 0xFD, 0xA0] ++ le 4 raw.length ++
      storedBlocks (raw.length + 1) raw).length % 2 ^ 24 = 392 := by
    rw [List.length_append, List.length_append, length_le,
      length_storedBlocks (Nat.lt_succ_self _), hlen]
    rfl
  rw [decodeFrame_zstd, hcsize]
  split
  · rfl
  have htail : (([0x28, 0xB5, 0x2F, 0xFD, 0xA0] ++ le 4 raw.length ++
      storedBlocks (raw.length + 1) raw ++ rest).take 392).drop 9 =
        (storedBlocks (raw.length + 1) raw ++ rest).take 383 := by
    rw [List.drop_take]
    rfl
  have hhead : ofLe (slice ((storedBlocks (raw.length + 1) raw ++ rest).take 383) 0 3) =
      8 * kZstdBlock := by
    have hmin : min 3 383 = 3 := rfl
    rw [hblocks, slice, List.drop_zero, List.take_take, hmin, List.append_assoc,
      List.take_left' (length_le 3 _), ofLe_le]
    rfl
  have hnone : storedDecoders.zstd (([0x28, 0xB5, 0x2F, 0xFD, 0xA0] ++ le 4 raw.length ++
      storedBlocks (raw.length + 1) raw ++ rest).take 392) (raw.length % 2 ^ 24) = none := by
    simp only [storedDecoders, htail]
    split
    · rw [readStored]
      simp only [hhead]
      rw [if_pos]
      left
      rw [List.length_take]
      unfold kZstdBlock
      omega
    · rfl
  rw [hnone]

/-- Frames made of a full chunk that is stored as it is decode to nothing. -/
theorem full_chunk_lost {raw : Bytes} {level : Nat} (hlen : raw.length = kMaxFrame) :
    encodeZstdFrames storedEncoder raw level ≠ [] ∧
      decompressFrames storedDecoders (encodeZstdFrames storedEncoder raw level) raw.length = [] := by
  have hne : raw ≠ [] := by
    rintro rfl
    cases hlen
  have hwhole : raw.take kMaxFrame = raw := List.take_of_length_le (by omega)
  have hrest : raw.drop kMaxFrame = [] := List.drop_eq_nil_of_le (by omega)
  obtain ⟨got, hgot⟩ : ∃ got, storedEncoder raw level = some got := ⟨_, rfl⟩
  have hcode : encodeZstdFrames storedEncoder raw level =
      ascii "ZS" ++ [1] ++ le 3 got.length ++ le 3 raw.length ++ (got ++ []) := by
    obtain ⟨n, hn⟩ : ∃ n, raw.length = n + 1 :=
      Nat.exists_eq_succ_of_ne_zero (by rw [hlen]; decide)
    rw [encodeZstdFrames, hn, zstdFrames, if_neg hne, hwhole, hrest, zstdFrames_nil]
    simp [hgot, hn]
  have hlost := @decodeFrame_full raw got [] level hlen hgot
  rw [← hcode] at hlost
  constructor
  · rw [hcode]
    simp
  · have hpos : (0 : Nat) < raw.length := List.length_pos_iff.2 hne
    obtain ⟨turns, hturns⟩ : ∃ turns, (encodeZstdFrames storedEncoder raw level).length = turns + 1 :=
      Nat.exists_eq_succ_of_ne_zero (by rw [hcode]; simp)
    rw [decompressFrames, hturns, decompressLoop_step hpos, hlost]

/-- [SRC TreeMeta.cc:199-247] Compressed frames come back, under every decoder
that undoes the encoder, exactly when every chunk's compressed length fits three bytes. -/
theorem frames_come_back_iff {E : Encoder} {raw : Bytes} {level : Nat}
    (hlib : ∃ D, ZstdUndoes D E level) (hframes : encodeZstdFrames E raw level ≠ [] ∨ raw = []) :
    (∀ D, ZstdUndoes D E level →
      decompressFrames D (encodeZstdFrames E raw level) raw.length = raw) ↔
        FramesFit E raw level := by
  by_cases hne : raw = []
  · subst hne
    constructor
    · intro _
      exact framesFit_nil E level
    · intro _ D _
      exact decompressLoop_done D _ _ []
  obtain ⟨z, hz⟩ : ∃ z, zstdFrames E level raw.length raw = some z := by
    cases hres : zstdFrames E level raw.length raw with
    | none =>
        rw [encodeZstdFrames, hres] at hframes
        exact absurd (hframes.resolve_right hne) (by simp)
    | some z => exact ⟨z, rfl⟩
  have hcode : encodeZstdFrames E raw level = z := by rw [encodeZstdFrames, hz, Option.getD_some]
  rw [hcode]
  constructor
  · intro hback
    obtain ⟨D, hD⟩ := hlib
    have hstrict := hback _ (strictDecoders_undoes hD)
    have hloop : decompressLoop (strictDecoders E level) ([] ++ raw).length z.length z [] =
        [] ++ raw := hstrict
    exact frames_fit_of_undone hD hz (Nat.le_refl _) hloop (Nat.le_refl _)
  · intro hfit D hD
    have hundone := frames_undone hD hz (Nat.le_refl _) hfit (Nat.le_refl _) []
    simpa [decompressFrames] using hundone

/-- A full chunk of noise, as ZSTD stores it. -/
theorem noise_does_not_come_back :
    ZstdUndoes storedDecoders storedEncoder 1 ∧
      (∀ chunk got, storedEncoder chunk 1 = some got →
        got.length ≤ zstdCompressBound chunk.length) ∧
      encodeZstdFrames storedEncoder (noise kMaxFrame) 1 ≠ [] ∧
      decompressFrames storedDecoders (encodeZstdFrames storedEncoder (noise kMaxFrame) 1)
        (noise kMaxFrame).length ≠ noise kMaxFrame := by
  have hlen : (noise kMaxFrame).length = kMaxFrame := by simp [noise]
  obtain ⟨hsome, hlost⟩ := @full_chunk_lost (noise kMaxFrame) 1 hlen
  refine ⟨storedDecoders_undoes 1, fun _ _ h => storedEncoder_le_bound h, hsome, ?_⟩
  rw [hlost]
  intro hnil
  rw [← hnil] at hlen
  cases hlen

/-- Three bytes come back. -/
theorem three_bytes_come_back : decompressFrames storedDecoders
    (encodeZstdFrames storedEncoder [7, 7, 9] 1) 3 = [7, 7, 9] := by
  have hfit : FramesFit storedEncoder [7, 7, 9] 1 := by
    intro i _ got hgot
    cases hgot
    rw [List.length_append, List.length_append, length_le,
      length_storedBlocks (Nat.lt_succ_self _), List.length_take, List.length_drop]
    simp only [List.length_cons, List.length_nil, kZstdBlock]
    omega
  exact (frames_come_back_iff ⟨storedDecoders, storedDecoders_undoes 1⟩ (Or.inl (by decide))).2 hfit
    storedDecoders (storedDecoders_undoes 1)

end UCache
