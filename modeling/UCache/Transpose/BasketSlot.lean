/-
Module: UCache.Transpose.BasketSlot
Purpose: What a basket's slot holds: the converted record with the original's key and payload, the
  seek of the slot, and zeros behind it.
Trusted boundary: none
Main exports: placeInSlot, KeptBasket, convertBasket_kept
-/
import UCache.Transpose.FillLayout
import UCache.Transpose.FrameTrip

namespace UCache

open Lib

/-- [SRC FillLayout.cc:368-385] The bytes of a slot.  The seek is stored as a signed integer. -/
def placeInSlot (c : Except String ConvertedBasket) (slot : FillSlot) : Except String Bytes :=
  match c with
  | .error e => .error e
  | .ok c =>
      if c.record.length < 26 then .error "empty record"
      else if slot.vLen < c.record.length then .error "record longer than its slot"
      else
        match putKeySeek c.record 0 (beGet c.record 4 2) (signed 8 slot.vSeek) with
        | none => .error "32-bit basket key cannot address a slot past 2 GiB"
        | some r => .ok (r ++ List.replicate (slot.vLen - c.record.length) 0)

/-- A record at its place: its key says where it is, and nothing else of it changed. -/
structure MovedRecord (record : Bytes) (k : KeyInfo) (seek : Int) (out : Bytes) : Prop where
  key : parseKey out 0 = some { k with seekkey := seek }
  rest : ∀ i, i < record.length → (i < 18 ∨ seekEnd k.ver ≤ i) → out[i]? = record[i]?

/-- The bytes of a slot that a record was placed in. -/
structure PlacedBasket (record : Bytes) (k : KeyInfo) (slot : FillSlot) (out : Bytes) : Prop where
  length : out.length = slot.vLen
  moved : MovedRecord record k (signed 8 slot.vSeek) out
  zeros : ∀ i, record.length ≤ i → i < slot.vLen → out[i]? = some 0

/-- What a converted record keeps of the original, whose key is `k`. -/
structure KeptBasket (D : Decoders) (record : Bytes) (slotLen : Nat) (k : KeyInfo)
    (out : Bytes) : Prop where
  length : out.length ≤ slotLen
  key : parseKey out 0 = some { k with nbytes := out.length }
  header : ∀ i, 4 ≤ i → i < k.keylen → out[i]? = record[i]?
  payload : out = record ∨ ∃ p, decodeBasket D record = some p ∧ decodeBasket D out = some p

/-! ### Keys with bytes behind them -/

variable {k : KeyInfo}

theorem headerLen_le {p : Bytes} (h : parseKeyAt p = some k) : k.headerLen ≤ p.length := by
  unfold parseKeyAt at h
  split at h
  · cases h
  simp only [Option.bind_eq_bind, Option.bind_eq_some_iff] at h
  obtain ⟨⟨cls, q₁⟩, h1, ⟨name, q₂⟩, h2, ⟨title, q₃⟩, h3, h⟩ := h
  cases h
  obtain ⟨hq₁, -⟩ := keyString_inv h1
  obtain ⟨hq₂, -⟩ := keyString_inv h2
  obtain ⟨hq₃, hlen⟩ := keyString_inv h3
  simp only [KeyInfo.headerLen]
  omega

/-- What stands behind a key does not change it. -/
theorem parseKeyAt_append {p : Bytes} (h : parseKeyAt p = some k) (t : Bytes) :
    parseKeyAt (p ++ t) = some k := by
  have hk := parseKeyAt_inv h
  have h34 := hk.length
  have hhead := headerLen_le h
  have hsame : ∀ i, i < p.length → (p ++ t)[i]? = p[i]? := by
    intro i hi
    exact List.getElem?_append_left hi
  have hfield : ∀ off n, off + n ≤ p.length → beGetInt (p ++ t) off n = beGetInt p off n := by
    intro off n hlen
    rw [beGetInt, beGetInt, beGet_congr]
    intro i _ hi
    exact hsame i (by omega)
  have hlocal := @parseKeyAt_local p (p ++ t) k h (by rw [List.length_append]; omega) (by
    intro j hj
    exact hsame j (by omega))
  rw [hfield 0 4 (by omega), hfield 18 8 (by omega), hfield 18 4 (by omega), ← hk.nbytes,
    ← hk.seekkey] at hlocal
  exact hlocal

/-! ### Placing a record -/

theorem signed_bounds {v : Nat} (h : v < 2 ^ 64) : -2 ^ 63 ≤ signed 8 v ∧ signed 8 v < 2 ^ 63 := by
  unfold signed
  split <;> omega

theorem moved_of_put {record out : Bytes} {seek : Int} (hk : parseKey record 0 = some k)
    (hput : SeekPut record out 0 (beGet record 4 2) seek) : MovedRecord record k seek out := by
  have hver : beGet record 4 2 = k.ver := (parseKeyAt_inv hk).ver.symm
  constructor
  · rw [@parseKey_putSeek record out 0 seek hput, hk]
    rfl
  · intro i _ hi
    apply hput.apart
    rw [hver]
    omega

theorem putKeySeek_moved {record out : Bytes} {seek : Int} (hk : parseKey record 0 = some k)
    (hlo : -2 ^ 63 ≤ seek) (hhi : seek < 2 ^ 63)
    (h : putKeySeek record 0 (beGet record 4 2) seek = some out) :
    out.length = record.length ∧ MovedRecord record k seek out := by
  have h34 := (parseKeyAt_inv hk).length
  rw [List.drop_zero] at h34
  have hput := putKeySeek_spec h (by unfold seekEnd; split <;> omega) hlo hhi
  exact ⟨hput.length, moved_of_put hk hput⟩

/-- A record placed in a slot. -/
theorem placeInSlot_placed {c : ConvertedBasket} {slot : FillSlot} {out : Bytes}
    (hk : parseKey c.record 0 = some k) (hseek : slot.vSeek < 2 ^ 64)
    (h : placeInSlot (.ok c) slot = .ok out) : PlacedBasket c.record k slot out := by
  simp only [placeInSlot] at h
  split at h
  · cases h
  split at h
  · cases h
  rename_i hfit
  split at h
  · cases h
  · rename_i r hput
    cases h
    obtain ⟨hlo, hhi⟩ := signed_bounds hseek
    obtain ⟨hlen, hmoved⟩ := putKeySeek_moved hk hlo hhi hput
    refine ⟨?_, ⟨?_, ?_⟩, ?_⟩
    · rw [List.length_append, List.length_replicate]
      omega
    · have hkey := hmoved.key
      rw [parseKey, List.drop_zero] at hkey ⊢
      exact parseKeyAt_append hkey _
    · intro i hi hapart
      rw [List.getElem?_append_left (by omega)]
      exact hmoved.rest i hi hapart
    · intro i hi hend
      rw [List.getElem?_append_right (by omega), List.getElem?_replicate, if_pos (by omega)]

/-- A record whose seek was patched in place. -/
theorem patchKeySeek_moved {record out : Bytes} {seek : Nat} (hk : parseKey record 0 = some k)
    (h : patchKeySeek record seek = some out) :
    out.length = record.length ∧ MovedRecord record k seek out :=
  ⟨(patchKeySeek_spec h).length, moved_of_put hk (patchKeySeek_spec h)⟩

/-! ### Converting -/

theorem kept_original {D : Decoders} {record : Bytes} {slotLen : Nat}
    (hk : basketKey record = some k) (hfit : record.length ≤ slotLen) :
    KeptBasket D record slotLen k record := by
  obtain ⟨hkey, -, -, hn, -⟩ := basketKey_inv hk
  refine ⟨hfit, ?_, fun _ _ _ => rfl, Or.inl rfl⟩
  rw [hkey, ← hn]

/-- The original's key with a new payload. -/
theorem kept_rebuilt {D : Decoders} {E : Encoder} {record payload : Bytes} {slotLen : Nat}
    (hk : basketKey record = some k) (hcov : k.headerLen ≤ k.keylen)
    (hfit : k.keylen + payload.length ≤ slotLen) (h32 : k.keylen + payload.length < 2 ^ 31)
    (hundo : Undoes D E 1 (decompressFrames D (record.drop k.keylen) k.objlen.toNat))
    (hnew : NewPayload D E record k payload) :
    KeptBasket D record slotLen k (rebuildRecord record k.keylen payload) := by
  have h36 := covers_keylen hk hcov
  have hkl := (basketKey_inv hk).2.2.2.2
  have hlen := @length_rebuildRecord record payload k.keylen (by omega) hkl
  have hsame := sameBasket_newPayload hk hcov hfit h32 hundo hnew
  have hkey := @basketKey_rebuild record k hk hcov payload h32 (by omega)
  have hdec : decodeBasket D record =
      some (decompressFrames D (record.drop k.keylen) k.objlen.toNat) := by
    rw [decodeBasket, hk]
    simp only [hnew.encoded, if_neg hnew.decoded, Bool.false_eq_true, if_false]
  refine ⟨hsame.length, ?_, ?_, Or.inr ⟨_, hdec, by rw [hsame.decode, hdec]⟩⟩
  · rw [(basketKey_inv hkey).1, hlen]
  · intro i hi hhead
    unfold rebuildRecord
    rw [getElem?_bePut_apart (by rw [List.length_append, List.length_take]; omega) (by omega),
      List.getElem?_append_left (by rw [List.length_take]; omega), List.getElem?_take_of_lt hhead]

/-- A basket's key, as the conversion checks it. -/
theorem basketKey_of {record : Bytes} (hk : parseKey record 0 = some k)
    (hcls : k.cls = ascii "TBasket") (hn : k.nbytes = record.length)
    (hle : k.keylen ≤ record.length) : basketKey record = some k := by
  have h34 := (parseKeyAt_inv hk).length
  rw [List.drop_zero] at h34
  rw [basketKey, hk]
  simp only [Option.filter_some, hcls, hn, hle, decide_true, Bool.and_true, Bool.true_and,
    ite_eq_left_iff, decide_eq_true_eq]
  omega

/-- [SRC FillLayout.cc:311-385] A converted basket keeps its key and payload, and at its slot it
says where it is. -/
theorem convertBasket_kept {D : Decoders} {E : Encoder} {record : Bytes} {slotLen : Nat}
    {codecs : List String} {k : KeyInfo} {c : ConvertedBasket}
    (hk : parseKey record 0 = some k) (hcls : k.cls = ascii "TBasket")
    (hn : k.nbytes = record.length) (hcov : k.headerLen ≤ k.keylen)
    (hle : k.keylen ≤ record.length)
    (hundo : Undoes D E 1 (decompressFrames D (record.drop k.keylen) k.objlen.toNat))
    (h : convertBasket D E record slotLen codecs = .ok c) (h32 : c.record.length < 2 ^ 31) :
    KeptBasket D record slotLen k c.record ∧
      (∀ slot out, slot.vSeek < 2 ^ 64 → placeInSlot (.ok c) slot = .ok out →
        PlacedBasket c.record { k with nbytes := c.record.length } slot out) ∧
      (∀ seek out, patchKeySeek c.record seek = some out → out.length = c.record.length ∧
        MovedRecord c.record { k with nbytes := c.record.length } seek out) := by
  have hbasket := basketKey_of hk hcls hn hle
  have hkept : KeptBasket D record slotLen k c.record := by
    obtain ⟨k', hk', hfit, hcase⟩ := convertBasket_cases h
    rw [hbasket, Option.some.injEq] at hk'
    subst hk'
    obtain hsame | ⟨payload, hnew, hroom, hmade⟩ := hcase
    · rw [hsame]
      exact kept_original hbasket hfit
    · have h36 := covers_keylen hbasket hcov
      rw [hnew, length_rebuildRecord (by omega) hle] at h32
      rw [hnew]
      exact kept_rebuilt hbasket hcov hroom h32 hundo hmade
  refine ⟨hkept, ?_, ?_⟩
  · intro slot out hseek hplace
    exact placeInSlot_placed hkept.key hseek hplace
  · intro seek out hpatch
    exact patchKeySeek_moved hkept.key hpatch

/-! ### A record too long for its key -/

/-- An encoder that stores a chunk as it is. -/
def plainEncoder : Encoder := fun chunk _ => some chunk

/-- The decoder of plain chunks, and of one block that stands for a run of zeros. -/
def plainDecoders : Decoders where
  lzma := fun _ _ => none
  zlib := fun _ _ => none
  lz4 := fun _ _ => none
  zstd := fun blob n => if blob = [0] then some (List.replicate n 0) else some blob

theorem plainDecoders_undoes (level : Nat) : ZstdUndoes plainDecoders plainEncoder level := by
  intro chunk got _ hgot
  cases hgot
  simp only [plainDecoders]
  split
  · rename_i hzero
    rw [hzero]
    rfl
  · rfl

theorem plain_undone (raw : Bytes) (level : Nat) : Undoes plainDecoders plainEncoder level raw := by
  refine undone_of_fit (plainDecoders_undoes level) fun i _ got hgot => ?_
  cases hgot
  rw [List.length_take]
  unfold kMaxFrame
  omega

/-- Plain frames are no shorter than what they hold. -/
theorem length_plainFrames {level fuel : Nat} {raw z : Bytes} (hfuel : raw.length ≤ fuel)
    (h : zstdFrames plainEncoder level fuel raw = some z) : raw.length ≤ z.length := by
  induction fuel generalizing raw z with
  | zero => omega
  | succ fuel ih =>
      by_cases hne : raw = []
      · simp [hne]
      obtain ⟨got, rest, hgot, hrest, rfl⟩ := zstdFrames_succ hne h
      cases hgot
      have hpos : 0 < raw.length := List.length_pos_iff.2 hne
      have htail := ih (by rw [List.length_drop]; unfold kMaxFrame; omega) hrest
      rw [List.length_drop] at htail
      simp only [List.length_append, List.length_take]
      omega

/-- A frame of `n` zeros. -/
def zeroFrame (n : Nat) : Bytes := ascii "ZS" ++ [1] ++ le 3 1 ++ le 3 n ++ [0]

theorem decodeFrame_zero {n : Nat} (hn : n < 2 ^ 24) (rest : Bytes) :
    decodeFrame plainDecoders (zeroFrame n ++ rest) = some (List.replicate n 0, rest) := by
  have hone : 1 % 2 ^ 24 = 1 := rfl
  rw [zeroFrame, List.append_assoc, decodeFrame_zstd, hone, Nat.mod_eq_of_lt hn]
  simp [plainDecoders]

/-- So many frames of zeros, with more behind them. -/
theorem decompress_zeros {n objlen : Nat} (hpos : 0 < n) (hn : n < 2 ^ 24) (m fuel : Nat)
    (rest out : Bytes) (hmore : out.length + m * n ≤ objlen) :
    decompressLoop plainDecoders objlen (m + fuel)
        ((List.replicate m (zeroFrame n)).flatten ++ rest) out =
      decompressLoop plainDecoders objlen fuel rest (out ++ List.replicate (m * n) 0) := by
  induction m generalizing out with
  | zero => simp
  | succ m ih =>
      rw [Nat.succ_mul] at hmore
      have hturn : m + 1 + fuel = m + fuel + 1 := by omega
      rw [hturn, decompressLoop_step (by omega), List.replicate_succ, List.flatten_cons,
        List.append_assoc, decodeFrame_zero hn]
      have hrest := ih (out ++ List.replicate n 0) (by
        rw [List.length_append, List.length_replicate]
        omega)
      refine hrest.trans ?_
      rw [List.append_assoc, List.replicate_append_replicate, Nat.succ_mul, Nat.add_comm n]

/-- The payload of `m * n + k` zeros. -/
def zerosPayload (m n k : Nat) : Bytes := (List.replicate m (zeroFrame n)).flatten ++ zeroFrame k

theorem length_zerosPayload (m n k : Nat) : (zerosPayload m n k).length = m * 10 + 10 := by
  simp [zerosPayload, zeroFrame]

theorem zerosPayload_decodes {m n k : Nat} (hpos : 0 < n) (hn : n < 2 ^ 24) (hk : k < 2 ^ 24)
    (hk₀ : 0 < k) : decompressFrames plainDecoders (zerosPayload m n k) (m * n + k) =
      List.replicate (m * n + k) 0 := by
  have hturns : (zerosPayload m n k).length = m + (m * 9 + 9 + 1) := by
    rw [length_zerosPayload]
    omega
  have hlast := decodeFrame_zero hk []
  rw [List.append_nil] at hlast
  have hheld : (([] : Bytes) ++ List.replicate (m * n) 0).length = m * n := by
    rw [List.nil_append, List.length_replicate]
  rw [decompressFrames, hturns, zerosPayload,
    decompress_zeros hpos hn m _ _ _ (by rw [List.length_nil]; omega),
    decompressLoop_step (by omega), hlast]
  have hdone := decompressLoop_done plainDecoders (m * 9 + 9) [] (List.replicate (m * n + k) 0)
  rw [List.length_replicate] at hdone
  refine Eq.trans ?_ hdone
  rw [← @List.replicate_append_replicate (m * n) UInt8 0 k]
  rfl

/-- The most zeros a 36-byte key leaves a 32-bit length for, and one more. -/
def zerosLen : Nat := 128 * 0xFFFFFF + 92

/-- The record of a basket of these zeros, under a 32-bit key of 36 bytes. -/
def zerosRecord : Bytes :=
  beInt 4 1326 ++ beInt 2 4 ++ beInt 4 zerosLen ++ beInt 4 0 ++ beInt 2 36 ++ beInt 2 1 ++
    beInt 4 100 ++ beInt 4 100 ++ [7] ++ ascii "TBasket" ++ [0] ++ [0] ++
      zerosPayload 128 0xFFFFFF 92

def zerosKey : KeyInfo :=
  { nbytes := 1326
    ver := 4
    objlen := zerosLen
    keylen := 36
    cycle := 1
    seekkey := 100
    cls := ascii "TBasket" }

theorem zerosRecord_key : basketKey zerosRecord = some zerosKey := by decide +kernel

theorem zerosRecord_payload : zerosRecord.drop 36 = zerosPayload 128 0xFFFFFF 92 := rfl

/-- A slot that takes all of it takes it as zeros. -/
theorem zerosRecord_converts : ∃ c, convertBasket plainDecoders plainEncoder zerosRecord
    (2 ^ 31) ["zstd"] = .ok c ∧ c.record.length = 2 ^ 31 := by
  have hlen : zerosRecord.length = 1326 := by decide +kernel
  have hraw : zerosKey.storedRaw = false := by decide
  have hcodec : listed ["zstd"] (frameCodec (zerosRecord.drop 36)) = true := by decide +kernel
  have hdec : decompressFrames plainDecoders (zerosRecord.drop 36) zerosLen =
      List.replicate zerosLen 0 := by
    rw [zerosRecord_payload]
    exact zerosPayload_decodes (by decide) (by decide) (by decide) (by decide)
  have hlong : ¬(encodeZstdFrames plainEncoder (List.replicate zerosLen 0) 1 ≠ [] ∧
      (encodeZstdFrames plainEncoder (List.replicate zerosLen 0) 1).length <
        (List.replicate zerosLen (0 : UInt8)).length) := by
    rintro ⟨hne, hlt⟩
    cases hz : zstdFrames plainEncoder 1 (List.replicate zerosLen (0 : UInt8)).length
        (List.replicate zerosLen 0) with
    | none =>
        rw [encodeZstdFrames, hz] at hne
        exact hne rfl
    | some z =>
        rw [encodeZstdFrames, hz, Option.getD_some] at hlt
        have := length_plainFrames (Nat.le_refl _) hz
        omega
  have hsome : List.replicate zerosLen (0 : UInt8) ≠ [] := by
    intro hnil
    have hzero := congrArg List.length hnil
    rw [List.length_replicate] at hzero
    exact absurd hzero (by decide)
  have hfit : zerosKey.keylen + (List.replicate zerosLen (0 : UInt8)).length = 2 ^ 31 := by
    rw [List.length_replicate]
    rfl
  have hkeep : zerosKey.keylen = 36 := rfl
  have hobj : zerosKey.objlen.toNat = zerosLen := rfl
  refine ⟨⟨.raw, rebuildRecord zerosRecord 36 (List.replicate zerosLen 0),
    frameCodec (zerosRecord.drop 36)⟩, ?_, ?_⟩
  · unfold convertBasket
    simp only [zerosRecord_key]
    rw [if_neg (by rw [hlen]; decide), hraw, hkeep, hcodec, hobj, hdec, if_neg (by decide),
      if_neg (by decide), if_neg hsome, if_neg hlong, if_pos (by rw [← hfit, hkeep])]
  · rw [length_rebuildRecord (by omega) (by omega), ← hfit, hkeep]

/-- A basket that is stored as it is, under a 64-bit key. -/
def wideRecord : Bytes :=
  beInt 4 46 ++ beInt 2 1004 ++ beInt 4 2 ++ beInt 4 0 ++ beInt 2 44 ++ beInt 2 1 ++
    beInt 8 100 ++ beInt 8 100 ++ [7] ++ ascii "TBasket" ++ [0] ++ [0] ++ [1, 2]

/-- A slot of 2^31 bytes takes a record that a 32-bit length does not hold, and a slot from 2^63 on
reads back as a negative seek. -/
theorem long_record_and_far_slot :
    (∃ c, parseKey zerosRecord 0 = some zerosKey ∧ zerosKey.cls = ascii "TBasket" ∧
      zerosKey.nbytes = zerosRecord.length ∧ zerosKey.headerLen ≤ zerosKey.keylen ∧
      zerosKey.keylen ≤ zerosRecord.length ∧ (∀ raw, Undoes plainDecoders plainEncoder 1 raw) ∧
      convertBasket plainDecoders plainEncoder zerosRecord (2 ^ 31) ["zstd"] = .ok c ∧
      beGetInt c.record 0 4 ≠ c.record.length) ∧
    ∃ c out, convertBasket plainDecoders plainEncoder wideRecord 46 ["zstd"] = .ok c ∧
      placeInSlot (.ok c) { vSeek := 2 ^ 63, vLen := 46 } = .ok out ∧
      (parseKey out 0).map KeyInfo.seekkey = some (-2 ^ 63) := by
  constructor
  · obtain ⟨c, hc, hlen⟩ := zerosRecord_converts
    refine ⟨c, (basketKey_inv zerosRecord_key).1, by decide, by decide +kernel, by decide,
      by decide +kernel, fun raw => plain_undone raw 1, hc, ?_⟩
    have hread : beGet c.record 0 4 < 2 ^ 32 := by
      have hlt := ofLe_lt (slice c.record 0 4).reverse
      rwa [List.length_reverse, length_slice, hlen] at hlt
    rw [hlen, beGetInt, signed]
    split <;> omega
  · refine ⟨⟨.original, wideRecord, ""⟩, bePut wideRecord 18 8 (-2 ^ 63), ?_, ?_, ?_⟩ <;>
      decide +kernel

/-- A basket whose payload is a ZSTD frame of three bytes. -/
def smallRecord : Bytes :=
  beInt 4 60 ++ beInt 2 4 ++ beInt 4 3 ++ beInt 4 0 ++ beInt 2 36 ++ beInt 2 1 ++
    beInt 4 100 ++ beInt 4 100 ++ [7] ++ ascii "TBasket" ++ [0] ++ [0] ++
      encodeZstdFrames storedEncoder [7, 7, 9] 1

/-- It is kept uncompressed, and says its slot. -/
theorem smallRecord_kept : ∃ k c out, convertBasket storedDecoders storedEncoder smallRecord 64
    ["zstd"] = .ok c ∧ KeptBasket storedDecoders smallRecord 64 k c.record ∧
      placeInSlot (.ok c) { vSeek := 8192, vLen := 64 } = .ok out ∧
      PlacedBasket c.record { k with nbytes := c.record.length } { vSeek := 8192, vLen := 64 }
        out := by
  have hkey : parseKey smallRecord 0 = some
      { nbytes := 60
        ver := 4
        objlen := 3
        keylen := 36
        cycle := 1
        seekkey := 100
        cls := ascii "TBasket" } := by decide +kernel
  have hc : convertBasket storedDecoders storedEncoder smallRecord 64 ["zstd"] =
      .ok ⟨.raw, rebuildRecord smallRecord 36 [7, 7, 9], "zstd"⟩ := by decide +kernel
  have hundo : Undoes storedDecoders storedEncoder 1
      (decompressFrames storedDecoders (smallRecord.drop 36) (3 : Int).toNat) := by
    intro _
    decide +kernel
  obtain ⟨hkept, hplaced, -⟩ := convertBasket_kept hkey rfl (by decide +kernel) (by decide)
    (by decide +kernel) hundo hc (by decide +kernel)
  have hput : placeInSlot (.ok ⟨.raw, rebuildRecord smallRecord 36 [7, 7, 9], "zstd"⟩)
      { vSeek := 8192, vLen := 64 } =
        .ok (bePut (rebuildRecord smallRecord 36 [7, 7, 9]) 18 4 8192 ++ List.replicate 25 0) := by
    decide +kernel
  exact ⟨_, _, _, hc, hkept, hput, hplaced _ _ (by decide) hput⟩

end UCache
