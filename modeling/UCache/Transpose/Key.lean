/-
Module: UCache.Transpose.Key
Purpose: Key headers of the container format: reading one, and writing the two fields that a
  relocated record changes.
Trusted boundary: none
Main exports: ascii, beGet, beGetInt
-/
import UCache.Core.MetaFile
import UCache.Lib.Bytes
import UCache.Lib.Endian

namespace UCache

open Lib

/-! ### Big-endian fields -/

/-- The bytes of a text. -/
def ascii (s : String) : Bytes := s.toUTF8.data.toList

@[simp] theorem length_root : (ascii "root").length = 4 := rfl

@[simp] theorem length_zs : (ascii "ZS").length = 2 := rfl

/-- [SRC TreeMeta.cc:29-38] An unsigned integer of `n` bytes at `off`. -/
def beGet (p : Bytes) (off n : Nat) : Nat := ofBe (slice p off n)

/-- A signed integer of `n` bytes at `off`. -/
def beGetInt (p : Bytes) (off n : Nat) : Int := signed n (beGet p off n)

/-- [SRC FillLayout.cc:20-28] Overwrite `n` bytes at `off` with an integer. -/
def bePut (p : Bytes) (off n : Nat) (v : Int) : Bytes := patch p off (beInt n v)

theorem length_bePut {p : Bytes} {off n : Nat} {v : Int} (h : off + n ≤ p.length) :
    (bePut p off n v).length = p.length := by
  apply length_patch
  simpa using h

theorem getElem?_bePut_apart {p : Bytes} {off n : Nat} {v : Int} (h : off + n ≤ p.length) {i : Nat}
    (hi : i < off ∨ off + n ≤ i) : (bePut p off n v)[i]? = p[i]? := by
  rw [bePut, getElem?_patch (by simpa using h), if_neg]
  simp only [length_beInt]
  omega

/-- Reading back the field just written, when the value fits the width. -/
theorem beGetInt_bePut {p : Bytes} {off n : Nat} {v : Int} (h : off + n ≤ p.length)
    (hlo : -(256 ^ n : Int) ≤ 2 * v) (hhi : 2 * v < 256 ^ n) :
    beGetInt (bePut p off n v) off n = v := by
  have hread : slice (bePut p off n v) off n = beInt n v := by
    have hsame := @slice_patch_same UInt8 p off (beInt n v) (by simpa using h)
    simpa [bePut] using hsame
  rw [beGetInt, beGet, hread, signed_beInt hlo hhi]

/-! ### Key headers -/

/-- [SRC TreeMeta.h:35-43] -/
structure KeyInfo where
  nbytes : Int := 0
  ver : Nat := 0
  objlen : Int := 0
  keylen : Nat := 0
  cycle : Nat := 0
  seekkey : Int := 0
  cls : Bytes := []
  name : Bytes := []
  title : Bytes := []
deriving DecidableEq, Repr

/-- A length byte and as many characters, from position `q`: the text and the position after
it. -/
def keyString (k : Bytes) (q : Nat) : Option (Bytes × Nat) :=
  match k[q]? with
  | none => none
  | some len =>
      if k.length < q + 1 + len.toNat then none
      else some (slice k (q + 1) len.toNat, q + 1 + len.toNat)

/-- Seeks are 64-bit in a key of a version above 1000. -/
def keyWide (ver : Nat) : Bool := decide (1000 < ver)

/-- Where the three texts of a key start. -/
def keyTexts (ver : Nat) : Nat := if keyWide ver then 34 else 26

/-- The key header that the bytes start with. -/
def parseKeyAt (k : Bytes) : Option KeyInfo :=
  if k.length < 34 then none
  else
    let ver := beGet k 4 2
    do
      let (cls, q₁) ← keyString k (keyTexts ver)
      let (name, q₂) ← keyString k q₁
      let (title, _) ← keyString k q₂
      some
        { nbytes := beGetInt k 0 4
          ver := ver
          objlen := beGetInt k 6 4
          keylen := beGet k 14 2
          cycle := beGet k 16 2
          seekkey := if keyWide ver then beGetInt k 18 8 else beGetInt k 18 4
          cls := cls
          name := name
          title := title }

/-- [SRC TreeMeta.cc:166-197] The key header at `off`. -/
def parseKey (p : Bytes) (off : Nat) : Option KeyInfo := parseKeyAt (p.drop off)

/-- [SRC FillLayout.cc:39-50] `fSeekKey` of the key header at `off`, at the key's own width;
nothing when a 32-bit key cannot hold it. -/
def putKeySeek (p : Bytes) (off ver : Nat) (seek : Int) : Option Bytes :=
  if keyWide ver then some (bePut p (off + 18) 8 seek)
  else if seek < 0 ∨ 2 ^ 31 ≤ seek then none
  else some (bePut p (off + 18) 4 seek)

/-- [SRC FillLayout.cc:359-366] -/
def patchKeySeek (record : Bytes) (seek : Nat) : Option Bytes :=
  if record.length < 26 ∨ 2 ^ 63 ≤ seek then none
  else
    let ver := beGet record 4 2
    if keyWide ver ∧ record.length < 34 then none
    else putKeySeek record 0 ver seek

/-! ### Keys after a field is written -/

/-- A text depends only on the bytes from its length byte on. -/
theorem keyString_congr {k k' : Bytes} {q : Nat} (hlen : k'.length = k.length)
    (hbytes : ∀ i, q ≤ i → k'[i]? = k[i]?) : keyString k' q = keyString k q := by
  have hslice : ∀ len, slice k' (q + 1) len = slice k (q + 1) len := by
    intro len
    apply List.ext_getElem?
    intro i
    rw [getElem?_slice, getElem?_slice, hbytes _ (by omega)]
  rw [keyString, keyString, hbytes q (Nat.le_refl q), hlen]
  cases k[q]? with
  | none => rfl
  | some len => simp only [hslice]

/-- The position after a text is past its start. -/
theorem keyString_le {k s : Bytes} {q q' : Nat} (h : keyString k q = some (s, q')) : q < q' := by
  unfold keyString at h
  split at h
  · cases h
  · split at h
    · cases h
    · cases h
      omega

/-- Two headers that agree on every byte but those of `fNbytes` and of the seeks differ at most
in these fields. -/
theorem parseKeyAt_congr {k k' : Bytes} (hlen : k'.length = k.length)
    (hfix : ∀ i, (4 ≤ i ∧ i < 18) ∨ keyTexts (beGet k 4 2) ≤ i → k'[i]? = k[i]?) :
    parseKeyAt k' = (parseKeyAt k).map fun i =>
      { i with
        nbytes := beGetInt k' 0 4
        seekkey := if keyWide i.ver then beGetInt k' 18 8 else beGetInt k' 18 4 } := by
  have hslice : ∀ off len, 4 ≤ off → off + len ≤ 18 → slice k' off len = slice k off len := by
    intro off len h1 h2
    apply List.ext_getElem?
    intro i
    rw [getElem?_slice, getElem?_slice]
    by_cases hi : i < len
    · rw [if_pos hi, if_pos hi, hfix _ (Or.inl ⟨by omega, by omega⟩)]
    · rw [if_neg hi, if_neg hi]
  have hget : ∀ off len, 4 ≤ off → off + len ≤ 18 → beGet k' off len = beGet k off len := by
    intro off len h1 h2
    rw [beGet, beGet, hslice off len h1 h2]
  have hver : beGet k' 4 2 = beGet k 4 2 := hget 4 2 (by omega) (by omega)
  unfold parseKeyAt
  rw [hlen, hver]
  by_cases hshort : k.length < 34
  · rw [if_pos hshort, if_pos hshort]
    rfl
  rw [if_neg hshort, if_neg hshort]
  simp only [beGetInt, hget 6 4 (by omega) (by omega), hget 14 2 (by omega) (by omega),
    hget 16 2 (by omega) (by omega)]
  have htext : ∀ q, keyTexts (beGet k 4 2) ≤ q → keyString k' q = keyString k q := by
    intro q hq
    apply keyString_congr hlen
    intro i hi
    exact hfix i (Or.inr (by omega))
  rw [htext _ (Nat.le_refl _)]
  cases h1 : keyString k (keyTexts (beGet k 4 2)) with
  | none => rfl
  | some r₁ =>
      obtain ⟨cls, q₁⟩ := r₁
      have hq₁ := keyString_le h1
      simp only [Option.bind_eq_bind, Option.bind_some]
      rw [htext q₁ (by omega)]
      cases h2 : keyString k q₁ with
      | none => rfl
      | some r₂ =>
          obtain ⟨name, q₂⟩ := r₂
          have hq₂ := keyString_le h2
          simp only [Option.bind_some]
          rw [htext q₂ (by omega)]
          cases keyString k q₂ with
          | none => rfl
          | some r₃ => rfl

/-- One past `fSeekKey`. -/
def seekEnd (ver : Nat) : Nat := if keyWide ver then 26 else 22

theorem seekEnd_le_texts (ver : Nat) : seekEnd ver + 4 ≤ keyTexts ver := by
  unfold seekEnd keyTexts
  split <;> omega

/-- What writing `fSeekKey` changes. -/
structure SeekPut (p p' : Bytes) (off ver : Nat) (seek : Int) : Prop where
  length : p'.length = p.length
  apart : ∀ i, i < off + 18 ∨ off + seekEnd ver ≤ i → p'[i]? = p[i]?
  seek : (if keyWide ver then beGetInt p' (off + 18) 8 else beGetInt p' (off + 18) 4) = seek

theorem putKeySeek_spec {p p' : Bytes} {off ver : Nat} {seek : Int}
    (h : putKeySeek p off ver seek = some p') (hlen : off + seekEnd ver ≤ p.length)
    (hlo : -2 ^ 63 ≤ seek) (hhi : seek < 2 ^ 63) : SeekPut p p' off ver seek := by
  unfold putKeySeek at h
  by_cases hwide : keyWide ver = true
  · rw [if_pos hwide] at h
    cases h
    have hend : seekEnd ver = 26 := by rw [seekEnd, if_pos hwide]
    rw [hend] at hlen
    refine ⟨length_bePut (by omega), ?_, ?_⟩
    · intro i hi
      exact getElem?_bePut_apart (by omega) (by omega)
    · rw [if_pos hwide]
      exact beGetInt_bePut (by omega) (by omega) (by omega)
  · rw [if_neg hwide] at h
    split at h
    · cases h
    · cases h
      have hend : seekEnd ver = 22 := by rw [seekEnd, if_neg hwide]
      rw [hend] at hlen
      refine ⟨length_bePut (by omega), ?_, ?_⟩
      · intro i hi
        exact getElem?_bePut_apart (by omega) (by omega)
      · rw [if_neg hwide]
        exact beGetInt_bePut (by omega) (by omega) (by omega)

theorem beGet_drop (p : Bytes) (off pos n : Nat) :
    beGet (p.drop off) pos n = beGet p (off + pos) n := by
  rw [beGet, beGet, slice, slice, List.drop_drop]

theorem beGetInt_drop (p : Bytes) (off pos n : Nat) :
    beGetInt (p.drop off) pos n = beGetInt p (off + pos) n := by
  rw [beGetInt, beGetInt, beGet_drop]

/-- Two fields whose bytes agree. -/
theorem beGet_congr {p p' : Bytes} {off n : Nat} (h : ∀ i, off ≤ i → i < off + n → p'[i]? = p[i]?) :
    beGet p' off n = beGet p off n := by
  have hslice : slice p' off n = slice p off n := by
    apply List.ext_getElem?
    intro i
    rw [getElem?_slice, getElem?_slice]
    by_cases hi : i < n
    · rw [if_pos hi, if_pos hi, h _ (by omega) (by omega)]
    · rw [if_neg hi, if_neg hi]
  rw [beGet, beGet, hslice]

/-- The numbers of a key that was read. -/
structure KeyAt (k : Bytes) (i : KeyInfo) : Prop where
  length : 34 ≤ k.length
  nbytes : i.nbytes = beGetInt k 0 4
  ver : i.ver = beGet k 4 2
  objlen : i.objlen = beGetInt k 6 4
  keylen : i.keylen = beGet k 14 2
  seekkey : i.seekkey = if keyWide i.ver then beGetInt k 18 8 else beGetInt k 18 4

theorem parseKeyAt_inv {k : Bytes} {i : KeyInfo} (h : parseKeyAt k = some i) : KeyAt k i := by
  unfold parseKeyAt at h
  split at h
  · cases h
  · simp only [Option.bind_eq_bind, Option.bind_eq_some_iff] at h
    obtain ⟨r₁, -, r₂, -, r₃, -, h⟩ := h
    cases h
    exact ⟨by omega, rfl, rfl, rfl, rfl, rfl⟩

/-- A key whose `fSeekKey` was written is the same key at its new place. -/
theorem parseKey_putSeek {p p' : Bytes} {off : Nat} {seek : Int}
    (h : SeekPut p p' off (beGet p (off + 4) 2) seek) :
    parseKey p' off = (parseKey p off).map fun i => { i with seekkey := seek } := by
  have hver : beGet (p.drop off) 4 2 = beGet p (off + 4) 2 := beGet_drop p off 4 2
  have hcongr := @parseKeyAt_congr (p.drop off) (p'.drop off) (by simp [h.length]) (by
    intro i hi
    have htexts := seekEnd_le_texts (beGet p (off + 4) 2)
    rw [hver] at hi
    rw [List.getElem?_drop, List.getElem?_drop]
    apply h.apart
    omega)
  rw [parseKey, parseKey, hcongr]
  cases hk : parseKeyAt (p.drop off) with
  | none => rfl
  | some i =>
      have hnb : beGet (p'.drop off) 0 4 = beGet (p.drop off) 0 4 := by
        apply beGet_congr
        intro j _ hj
        rw [List.getElem?_drop, List.getElem?_drop]
        apply h.apart
        omega
      have hi := parseKeyAt_inv hk
      have hseek := h.seek
      rw [← hver, ← hi.ver] at hseek
      have hnbytes := hi.nbytes
      simp only [Option.map_some, beGetInt_drop] at hnbytes ⊢
      rw [hseek, hnbytes]
      simp only [beGetInt, ← beGet_drop, hnb]

/-! ### Keys depend on their header alone -/

/-- One past the header of a key: its fixed part and its three texts. -/
def KeyInfo.headerLen (i : KeyInfo) : Nat :=
  keyTexts i.ver + (1 + i.cls.length) + (1 + i.name.length) + (1 + i.title.length)

/-- A text that was read, and the bytes it took. -/
theorem keyString_inv {k s : Bytes} {q q' : Nat} (h : keyString k q = some (s, q')) :
    q' = q + 1 + s.length ∧ q' ≤ k.length := by
  unfold keyString at h
  split at h
  · cases h
  · rename_i len _
    split at h
    · cases h
    · rename_i hlen
      cases h
      rw [length_slice]
      omega

/-- A text reads the same wherever its own bytes are the same. -/
theorem keyString_local {k k' s : Bytes} {q q' : Nat} (h : keyString k q = some (s, q'))
    (hsame : ∀ j, q ≤ j → j < q' → k'[j]? = k[j]?) : keyString k' q = some (s, q') := by
  obtain ⟨hq', hlen⟩ := keyString_inv h
  have hlen' : q' ≤ k'.length := by
    have hlast := hsame (q' - 1) (by omega) (by omega)
    rw [List.getElem?_eq_getElem (show q' - 1 < k.length by omega)] at hlast
    have := (List.getElem?_eq_some_iff.1 hlast).1
    omega
  unfold keyString at h ⊢
  rw [hsame q (Nat.le_refl q) (by omega)]
  split at h
  · cases h
  · rename_i len hq
    split at h
    · cases h
    · cases h
      rw [if_neg (by omega)]
      congr 2
      apply List.ext_getElem?
      intro j
      rw [getElem?_slice, getElem?_slice]
      by_cases hj : j < len.toNat
      · rw [if_pos hj, if_pos hj, hsame _ (by omega) (by omega)]
      · rw [if_neg hj, if_neg hj]

/-- A key is read from its header: from bytes that agree with it there, but for `fNbytes` and the
seeks, the same key is read, with the numbers found at these two places. -/
theorem parseKeyAt_local {k k' : Bytes} {i : KeyInfo} (h : parseKeyAt k = some i)
    (hlen : 34 ≤ k'.length)
    (hsame : ∀ j, (4 ≤ j ∧ j < 18) ∨ (keyTexts i.ver ≤ j ∧ j < i.headerLen) → k'[j]? = k[j]?) :
    parseKeyAt k' = some
      { i with
        nbytes := beGetInt k' 0 4
        seekkey := if keyWide i.ver then beGetInt k' 18 8 else beGetInt k' 18 4 } := by
  have hget : ∀ off n, 4 ≤ off → off + n ≤ 18 → beGet k' off n = beGet k off n := by
    intro off n h1 h2
    apply beGet_congr
    intro j hj₁ hj₂
    exact hsame j (Or.inl ⟨by omega, by omega⟩)
  have hver : beGet k' 4 2 = beGet k 4 2 := hget 4 2 (by omega) (by omega)
  unfold parseKeyAt at h ⊢
  rw [hver, if_neg (by omega)]
  split at h
  · cases h
  simp only [Option.bind_eq_bind, Option.bind_eq_some_iff] at h
  obtain ⟨⟨cls, q₁⟩, h1, ⟨name, q₂⟩, h2, ⟨title, q₃⟩, h3, h⟩ := h
  cases h
  obtain ⟨hq₁, -⟩ := keyString_inv h1
  obtain ⟨hq₂, -⟩ := keyString_inv h2
  obtain ⟨hq₃, -⟩ := keyString_inv h3
  have htext : ∀ {s : Bytes} {q q' : Nat}, keyString k q = some (s, q') →
      keyTexts (beGet k 4 2) ≤ q → q' ≤ q₃ → keyString k' q = some (s, q') := by
    intro s q q' hs hq hle
    apply keyString_local hs
    intro j hj₁ hj₂
    apply hsame
    simp only [KeyInfo.headerLen]
    omega
  simp only [Option.bind_eq_bind, htext h1 (Nat.le_refl _) (by omega), Option.bind_some,
    htext h2 (by omega) (by omega), htext h3 (by omega) (Nat.le_refl _), beGetInt,
    hget 6 4 (by omega) (by omega), hget 14 2 (by omega) (by omega),
    hget 16 2 (by omega) (by omega)]

end UCache
