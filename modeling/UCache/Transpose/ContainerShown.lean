/-
Module: UCache.Transpose.ContainerShown
Purpose: The container of a file that was changed in some places and made longer: it has the same
  keys as long as nothing was changed that leads to them.
Trusted boundary: none
Main exports: ByteSource.ofBytes, containerSpans, parseKeyAt_same
-/
import UCache.Lib.Faults
import UCache.Transpose.WalkForward

namespace UCache

open Lib

/-! ### A whole file -/

/-- [SRC RNTupleMeta.cc:105-113] A plain file as a source: every byte is present. -/
def ByteSource.ofBytes (b : Bytes) : ByteSource where
  size := b.length
  has off n := decide (off + n ≤ b.length)
  read off n := if off + n ≤ b.length then some (slice b off n) else none
  has_le off n h := by simpa using h
  read_length off n r h := by
    split at h
    · cases h
      rw [length_slice]
      omega
    · cases h

theorem ByteSource.get_ofBytes (b : Bytes) (off n : Nat) :
    (ByteSource.ofBytes b).get off n = if off + n ≤ b.length then some (slice b off n) else none := by
  unfold ByteSource.get ByteSource.ofBytes
  by_cases h : off + n ≤ b.length <;> simp [h]

theorem get_again {b b' : Bytes} (hlen : b.length ≤ b'.length) {off n : Nat} {r : Bytes}
    (h : (ByteSource.ofBytes b).get off n = some r) (hsame : SameOn b b' off (off + n)) :
    (ByteSource.ofBytes b').get off n = some r := by
  rw [ByteSource.get_ofBytes] at h ⊢
  split at h
  · cases h
    rw [if_pos (by omega), hsame.slice]
  · cases h

/-! ### Keys and texts again -/

theorem parseKeyAt_headerLen {k : Bytes} {i : KeyInfo} (h : parseKeyAt k = some i) :
    i.headerLen ≤ k.length := by
  unfold parseKeyAt at h
  split at h
  · cases h
  · simp only [Option.bind_eq_bind, Option.bind_eq_some_iff] at h
    obtain ⟨⟨cls, q₁⟩, h1, ⟨name, q₂⟩, h2, ⟨title, q₃⟩, h3, h⟩ := h
    cases h
    obtain ⟨hq₁, -⟩ := keyString_inv h1
    obtain ⟨hq₂, -⟩ := keyString_inv h2
    obtain ⟨hq₃, hlen⟩ := keyString_inv h3
    simp only [KeyInfo.headerLen]
    omega

/-- A key whose header is the same is the same key. -/
theorem parseKeyAt_same {k k' : Bytes} {i : KeyInfo} (h : parseKeyAt k = some i)
    (hlen : k.length ≤ k'.length) (hsame : ∀ j, j < i.headerLen → k'[j]? = k[j]?) :
    parseKeyAt k' = some i := by
  have hat := parseKeyAt_inv h
  have hfixed : seekEnd i.ver + 4 ≤ i.headerLen := by
    have := seekEnd_le_texts i.ver
    simp only [KeyInfo.headerLen]
    omega
  have hseekEnd : seekEnd i.ver = if keyWide i.ver then 26 else 22 := rfl
  have hlocal := parseKeyAt_local h (hat.length.trans hlen) fun j hj => hsame j (by
    simp only [KeyInfo.headerLen] at hj ⊢
    have := seekEnd_le_texts i.ver
    rcases hj with hj | hj
    · split at hseekEnd <;> omega
    · omega)
  have hnbytes : beGetInt k' 0 4 = i.nbytes := by
    rw [hat.nbytes, beGetInt, beGetInt, beGet_congr fun j _ hj => hsame j (by
      split at hseekEnd <;> omega)]
  have hseek : (if keyWide i.ver then beGetInt k' 18 8 else beGetInt k' 18 4) = i.seekkey := by
    rw [hat.seekkey]
    split at hseekEnd
    · rename_i hwide
      rw [if_pos hwide, if_pos hwide, beGetInt, beGetInt, beGet_congr fun j _ hj => hsame j (by
        omega)]
    · rename_i hwide
      rw [if_neg hwide, if_neg hwide, beGetInt, beGetInt, beGet_congr fun j _ hj => hsame j (by
        omega)]
  rw [hlocal, hnbytes, hseek]

theorem skipString_again {head head' : Bytes} {pos q : Nat} (h : skipString head pos = some q)
    (hlen : head.length ≤ head'.length) (hsame : SameOn head head' pos q) :
    skipString head' pos = some q ∧ pos < q ∧ q ≤ head.length := by
  unfold skipString at h
  split at h
  · cases h
  · rename_i b hb
    have hpos : pos < head.length := (List.getElem?_eq_some_iff.1 hb).1
    split at h
    · rename_i hlong
      split at h
      · cases h
      · rename_i h1
        simp only at h
        split at h
        · cases h
        · rename_i h2
          cases h
          have hb' : head'[pos]? = some b := (hsame pos (by omega) (by omega)).trans hb
          have hget : beGet head' (pos + 1) 4 = beGet head (pos + 1) 4 :=
            beGet_congr fun j hj₁ hj₂ => hsame j (by omega) (by omega)
          refine ⟨?_, by omega, by omega⟩
          rw [skipString, hb']
          simp only [hlong, if_true]
          rw [if_neg (by omega), hget, if_neg (by omega)]
    · rename_i hshort
      split at h
      · cases h
      · rename_i h1
        cases h
        have hb' : head'[pos]? = some b := (hsame pos (by omega) (by omega)).trans hb
        refine ⟨?_, by omega, by omega⟩
        rw [skipString, hb']
        simp only [hshort, if_false]
        rw [if_neg (by omega)]

theorem dirSeekKeys_again {head head' : Bytes} {keylen q width : Nat}
    (h : dirSeekKeys head keylen = some (q, width)) (hlen : head.length ≤ head'.length)
    (hsame : SameOn head head' (100 + keylen) (q + width)) :
    dirSeekKeys head' keylen = some (q, width) ∧ 100 + keylen < q ∧ q + width ≤ head.length := by
  unfold dirSeekKeys at h ⊢
  simp only [Option.bind_eq_bind, Option.bind_eq_some_iff] at h
  obtain ⟨q₁, h1, q₂, h2, h⟩ := h
  split at h
  · cases h
  · rename_i hroom
    generalize hwidth : (if 1000 < beGet head q₂ 2 then 8 else 4) = w at h
    split at h
    · cases h
    · rename_i hend
      cases h
      have hq₁ := skipString_again h1 (Nat.le_refl _) fun _ _ _ => rfl
      have hq₂ := skipString_again h2 (Nat.le_refl _) fun _ _ _ => rfl
      have h₁' := (skipString_again h1 hlen (hsame.mono (by omega) (by omega))).1
      have h₂' := (skipString_again h2 hlen (hsame.mono (by omega) (by omega))).1
      have hver : beGet head' q₂ 2 = beGet head q₂ 2 :=
        beGet_congr fun j hj₁ hj₂ => hsame j (by omega) (by omega)
      refine ⟨?_, by omega, by omega⟩
      simp only [h₁', h₂', Option.bind_eq_bind, Option.bind_some, hver, hwidth]
      rw [if_neg (by omega), if_neg (by omega)]

/-! ### What leads to the keys -/

/-- What of a file a container's parse reads behind the file header: the root directory's key and its
record up to the seek of the keys list, the key of the keys list, and the list. -/
def containerSpans (b : Bytes) : List (Nat × Nat) :=
  let head := b.take 512
  match parseKey head 100 with
  | none => []
  | some dirKey =>
      match dirSeekKeys head dirKey.keylen with
      | none => []
      | some (q, width) =>
          let seek := (beGetInt head q width).toNat
          match parseKey (slice b seek 4096) 0 with
          | none => []
          | some kl =>
              [(100, 100 + dirKey.headerLen), (100 + dirKey.keylen, q + width),
                (seek, seek + kl.headerLen), (seek, seek + kl.nbytes.toNat)]

/-- The keys list of a longer file that is the same where the list is. -/
theorem readKeysList_again {b b' : Bytes} (hlen : b.length ≤ b'.length) {seek : Int}
    {keys : List KeyInfo} (h : readKeysList (.ofBytes b) b.length seek = .ok keys) :
    ∃ kl, parseKey (slice b seek.toNat 4096) 0 = some kl ∧
      seek.toNat + kl.headerLen ≤ b.length ∧ seek.toNat + kl.nbytes.toNat ≤ b.length ∧
      (SameOn b b' seek.toNat (seek.toNat + kl.headerLen) →
        SameOn b b' seek.toNat (seek.toNat + kl.nbytes.toNat) →
        readKeysList (.ofBytes b') b'.length seek = .ok keys) := by
  unfold readKeysList at h
  simp only at h
  split at h
  · cases h
  · rename_i kl hkl
    split at h
    · cases h
    · rename_i hgeometry
      split at h
      · cases h
      · rename_i buf hbuf
        split at hkl
        · cases hkl
        · rename_i hseek
          split at hkl
          · cases hkl
          · rename_i hn
            obtain ⟨front, hfront, hkl⟩ := Option.bind_eq_some_iff.1 hkl
            have hfrontEq := hfront
            rw [ByteSource.get_ofBytes] at hfrontEq
            split at hfrontEq
            · rename_i hroom
              cases hfrontEq
              have hwhole : slice b seek.toNat 4096 =
                  slice b seek.toNat (min 4096 ((b.length : Int) - seek).toNat) := by
                apply List.ext_getElem?
                intro i
                rw [getElem?_slice, getElem?_slice]
                by_cases hi : i < min 4096 ((b.length : Int) - seek).toNat
                · rw [if_pos hi, if_pos (by omega)]
                · rw [if_neg hi]
                  split
                  · exact List.getElem?_eq_none (by omega)
                  · rfl
              have hfits := parseKeyAt_headerLen hkl
              simp only [List.drop_zero, length_slice] at hfits
              refine ⟨kl, by rw [hwhole]; exact hkl, by omega, by omega, fun hhead hbody => ?_⟩
              have hkey : parseKey (slice b' seek.toNat
                  (min 4096 ((b'.length : Int) - seek).toNat)) 0 = some kl := by
                refine parseKeyAt_same hkl ?_ fun j hj => ?_
                · simp only [List.drop_zero, length_slice]
                  omega
                · simp only [List.drop_zero]
                  rw [getElem?_slice, getElem?_slice, if_pos (by omega), if_pos (by omega),
                    hhead _ (by omega) (by omega)]
              unfold readKeysList
              simp only
              rw [if_neg (by omega), if_neg (by omega), ByteSource.get_ofBytes,
                if_pos (by omega)]
              simp only [Option.bind_some, hkey]
              rw [if_neg (by omega), get_again hlen hbuf hbody]
              exact h
            · cases hfrontEq

/-- The head of a file, as the parse reads it. -/
theorem readHead_eq (b : Bytes) :
    (if min (b.length : Int).toNat 512 < 20 then none
      else (ByteSource.ofBytes b).get 0 (min (b.length : Int).toNat 512)) =
    if (b.take 512).length < 20 then none else some (b.take 512) := by
  have hlength : (b.take 512).length = min (b.length : Int).toNat 512 := by
    rw [List.length_take]
    omega
  rw [hlength, ByteSource.get_ofBytes]
  split
  · rfl
  · rw [if_pos (by omega)]
    congr 1
    rw [slice, List.drop_zero, List.take_eq_take_iff]
    omega

/-- A file whose container parses, changed elsewhere and made longer: the same keys. -/
theorem parseContainer_again {b b' : Bytes} (hlen : b.length ≤ b'.length)
    (hmagic : slice b' 0 4 = ascii "root")
    (hsame : ∀ s ∈ containerSpans b, SameOn b b' s.1 (min s.2 b.length)) {cm : ContainerMeta}
    (h : parseContainer (.ofBytes b) b.length = .ok cm) :
    ∃ cm', parseContainer (.ofBytes b') b'.length = .ok cm' ∧ cm'.keys = cm.keys ∧
      cm'.fileSize = b'.length := by
  have hhead : ∀ i, i < (b.take 512).length → (b'.take 512)[i]? = b'[i]? := by
    intro i hi
    rw [List.length_take] at hi
    rw [List.getElem?_take, if_pos (by omega)]
  have hheadOld : ∀ i, i < (b.take 512).length → (b.take 512)[i]? = b[i]? := by
    intro i hi
    rw [List.length_take] at hi
    rw [List.getElem?_take, if_pos (by omega)]
  have hheadLen : (b.take 512).length ≤ (b'.take 512).length := by
    rw [List.length_take, List.length_take]
    omega
  have hsameHead : ∀ {a c : Nat}, c ≤ (b.take 512).length → SameOn b b' a c →
      SameOn (b.take 512) (b'.take 512) a c := by
    intro a c hc hs i hi₁ hi₂
    rw [hhead i (by omega), hheadOld i (by omega), hs i hi₁ hi₂]
  unfold parseContainer at h ⊢
  simp only [readHead_eq] at h ⊢
  split at h
  · cases h
  · rename_i head hsome
    split at hsome
    · cases hsome
    · rename_i hroom
      obtain rfl : b.take 512 = head := by simpa using hsome
      split at h
      · cases h
      · split at h
        · cases h
        · rename_i dirKey hdir
          split at h
          · cases h
          · rename_i q width hq
            obtain ⟨keys, hkeys, h⟩ := bind_eq_ok h
            cases h
            obtain ⟨kl, hkl, hinHead, hinBody, hlist⟩ := readKeysList_again hlen hkeys
            have hspans : containerSpans b =
                [(100, 100 + dirKey.headerLen), (100 + dirKey.keylen, q + width),
                  ((beGetInt (b.take 512) q width).toNat,
                    (beGetInt (b.take 512) q width).toNat + kl.headerLen),
                  ((beGetInt (b.take 512) q width).toNat,
                    (beGetInt (b.take 512) q width).toNat + kl.nbytes.toNat)] := by
              unfold containerSpans
              simp only [hdir, hq, hkl]
            rw [hspans] at hsame
            simp only [List.mem_cons, List.not_mem_nil, or_false, forall_eq_or_imp, forall_eq]
              at hsame
            obtain ⟨hdirKey, hrecord, hlistKey, hlistBody⟩ := hsame
            have hfits := parseKeyAt_headerLen hdir
            rw [List.length_drop] at hfits
            have hbound : (b.take 512).length ≤ b.length := by
              rw [List.length_take]
              omega
            have hqEnd := (dirSeekKeys_again hq (Nat.le_refl _) fun _ _ _ => rfl).2
            rw [Nat.min_eq_left (by omega)] at hdirKey hrecord
            rw [Nat.min_eq_left hinHead] at hlistKey
            rw [Nat.min_eq_left hinBody] at hlistBody
            have hdir' : parseKey (b'.take 512) 100 = some dirKey := by
              refine parseKeyAt_same hdir (by simp only [List.length_drop]; omega) fun j hj => ?_
              rw [List.getElem?_drop, List.getElem?_drop]
              exact hsameHead (by omega) hdirKey _ (by omega) (by omega)
            have hq' := (dirSeekKeys_again hq hheadLen
              (hsameHead hqEnd.2 hrecord)).1
            have hseek : beGetInt (b'.take 512) q width = beGetInt (b.take 512) q width := by
              rw [beGetInt, beGetInt, beGet_congr fun j hj₁ hj₂ =>
                hsameHead hqEnd.2 hrecord j (by omega) (by omega)]
            have hroot : slice (b'.take 512) 0 4 = ascii "root" := by
              rw [← hmagic, slice, slice, List.drop_zero, List.drop_zero, List.take_take]
              rfl
            rw [if_neg (by omega)]
            simp only [hroot, ne_eq, not_true, if_false, hdir', hq', hseek,
              hlist hlistKey hlistBody]
            exact ⟨_, rfl, rfl, rfl⟩

/-- A file whose container parses starts with the name of its format. -/
theorem parseContainer_magic {b : Bytes} {cm : ContainerMeta}
    (h : parseContainer (.ofBytes b) b.length = .ok cm) :
    slice b 0 4 = ascii "root" ∧ 20 ≤ b.length := by
  unfold parseContainer at h
  simp only [readHead_eq] at h
  split at h
  · cases h
  · rename_i head hsome
    split at hsome
    · cases hsome
    · rename_i hroom
      obtain rfl : b.take 512 = head := by simpa using hsome
      rw [List.length_take] at hroom
      split at h
      · cases h
      · rename_i hmagic
        have hslice : slice (b.take 512) 0 4 = slice b 0 4 := by
          rw [slice, slice, List.drop_zero, List.drop_zero, List.take_take]
          rfl
        rw [← hslice]
        exact ⟨by simpa using hmagic, by omega⟩

end UCache
