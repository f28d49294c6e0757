/-
Module: UCache.Core.SlotBlock
Purpose: A block reads back as it was written: its header passes the check and says its length, its
  table gives its entries, and each entry names its record's bytes.
Trusted boundary: none
Main exports: Sized, BlockOf, decodeEntry_encodeEntry
-/
import UCache.Core.SlotStore
import UCache.Core.Reading

namespace UCache

open Lib

namespace SlotStore

/-! ### Entries -/

theorem ofCode_code (k : SlotKind) : SlotKind.ofCode k.code = some k := by
  cases k <;> rfl

@[simp] theorem length_encodeEntry (e : SlotEntry) : (encodeEntry e).length = kEntry := by
  simp [encodeEntry, kEntry]

/-- The field of `n` bytes that follows `a`. -/
theorem get_field {p : Bytes} (a c : Bytes) {off n v : Nat}
    (hp : p = a ++ (le n v ++ c)) (hoff : a.length = off) : get p off n = v % 256 ^ n := by
  have hslice : slice p (a.length + 0) (le n v).length = le n v := by
    rw [hp, slice_append_right, slice_append_left c (by omega), slice_self]
  rw [Nat.add_zero, hoff, length_le] at hslice
  rw [get, hslice, ofLe_le]

/-- An entry whose offset and length fit their fields reads back. -/
theorem decodeEntry_encodeEntry {e : SlotEntry} (hoff : e.off < 2 ^ 64) (hlen : e.len < 2 ^ 32) :
    decodeEntry (encodeEntry e) = some e := by
  have hkind : (encodeEntry e).getD 4 0 = e.kind.code := by
    simp [encodeEntry, le]
  have hslot : get (encodeEntry e) 0 4 = e.slot.toNat := by
    have h : get (encodeEntry e) 0 4 = e.slot.toNat % 256 ^ 4 :=
      get_field [] ([e.kind.code, 0, 0, 0] ++ le 8 e.off ++ le 4 e.len ++ le 4 e.crc.toNat)
        (by simp [encodeEntry]) rfl
    rw [h]
    exact Nat.mod_eq_of_lt e.slot.toNat_lt
  have hoff' : get (encodeEntry e) 8 8 = e.off := by
    rw [get_field (le 4 e.slot.toNat ++ [e.kind.code, 0, 0, 0]) (le 4 e.len ++ le 4 e.crc.toNat)
      (v := e.off) (by simp [encodeEntry]) (by simp)]
    exact Nat.mod_eq_of_lt hoff
  have hlen' : get (encodeEntry e) 16 4 = e.len := by
    rw [get_field (le 4 e.slot.toNat ++ [e.kind.code, 0, 0, 0] ++ le 8 e.off) (le 4 e.crc.toNat)
      (v := e.len) (by simp [encodeEntry]) (by simp)]
    exact Nat.mod_eq_of_lt hlen
  have hcrc : get (encodeEntry e) 20 4 = e.crc.toNat := by
    rw [get_field (le 4 e.slot.toNat ++ [e.kind.code, 0, 0, 0] ++ le 8 e.off ++ le 4 e.len) []
      (v := e.crc.toNat) (by simp [encodeEntry]) (by simp)]
    exact Nat.mod_eq_of_lt e.crc.toNat_lt
  rw [decodeEntry, hkind, ofCode_code, hslot, hoff', hlen', hcrc]
  simp

/-! ### The block -/

/-- Records that a block can hold: their count and lengths fit 32 bits, and the block stays below
the length readers take a claim from. -/
structure Sized (recs : List SlotRecord) : Prop where
  count : recs.length < 2 ^ 32
  each : ∀ r ∈ recs, r.bytes.length < 2 ^ 32
  total : kBlockHeader + recs.length * kEntry + (recs.map fun r => r.bytes.length).sum < 2 ^ 40

theorem length_recordBytes (recs : List SlotRecord) :
    (recordBytes recs).length ≤ (recs.map fun r => r.bytes.length).sum := by
  induction recs with
  | nil => simp [recordBytes]
  | cons r recs ih =>
      simp only [recordBytes, List.map_cons, List.flatten_cons, List.length_append,
        List.sum_cons] at ih ⊢
      split
      · simp only [List.length_nil]
        omega
      · omega

theorem length_makeEntries (storeId : UInt64) (base at_ : Nat) (recs : List SlotRecord) :
    (makeEntries storeId base at_ recs).length = recs.length := by
  induction recs generalizing at_ with
  | nil => rfl
  | cons r recs ih =>
      unfold makeEntries
      split <;> simp [ih]

/-- What an entry of a block says of its record. -/
structure EntryOf (storeId : UInt64) (r : SlotRecord) (e : SlotEntry) : Prop where
  slot : e.slot = r.slot
  kind : e.kind = r.kind
  kept : r.kind = .kept → e.off = 0 ∧ e.len = 0
  len : r.kind ≠ .kept → e.len = r.bytes.length
  crc : r.kind ≠ .kept → e.crc = recordCrc storeId r.slot r.bytes

/-- Each entry describes its record and, unless kept, names where its bytes lie. -/
theorem makeEntries_spec (storeId : UInt64) (base : Nat) (recs : List SlotRecord)
    (heach : ∀ r ∈ recs, r.bytes.length < 2 ^ 32) (at_ : Nat) {i : Nat} {r : SlotRecord}
    {e : SlotEntry} (hr : recs[i]? = some r)
    (he : (makeEntries storeId base at_ recs)[i]? = some e) :
    EntryOf storeId r e ∧ (r.kind ≠ .kept → ∃ k, e.off = base + at_ + k ∧
      k + r.bytes.length ≤ (recordBytes recs).length ∧
      slice (recordBytes recs) k r.bytes.length = r.bytes) := by
  induction recs generalizing at_ i with
  | nil => simp at hr
  | cons r₀ recs ih =>
      have heach' : ∀ r ∈ recs, r.bytes.length < 2 ^ 32 := fun r hr => heach r (by simp [hr])
      cases i with
      | zero =>
          cases hr
          unfold makeEntries at he
          split at he
          · rename_i hk
            cases he
            exact ⟨⟨rfl, rfl, fun _ => ⟨rfl, rfl⟩, fun h => absurd hk h, fun h => absurd hk h⟩,
              fun h => absurd hk h⟩
          · rename_i hk
            cases he
            have hlt := heach r (by simp)
            refine ⟨⟨rfl, rfl, fun h => absurd h hk, fun _ => Nat.mod_eq_of_lt hlt, fun _ => rfl⟩,
              fun _ => ⟨0, rfl, ?_, ?_⟩⟩
            · simp only [recordBytes, List.map_cons, if_neg hk, List.flatten_cons,
                List.length_append]
              omega
            · simp only [recordBytes, List.map_cons, if_neg hk, List.flatten_cons]
              rw [slice_append_left _ (by omega), slice_self]
      | succ i =>
          rw [List.getElem?_cons_succ] at hr
          unfold makeEntries at he
          split at he
          · rename_i hk
            rw [List.getElem?_cons_succ] at he
            obtain ⟨hof, hbytes⟩ := ih heach' at_ hr he
            have hsame : recordBytes (r₀ :: recs) = recordBytes recs := by
              simp [recordBytes, hk]
            rw [hsame]
            exact ⟨hof, hbytes⟩
          · rename_i hk
            rw [List.getElem?_cons_succ] at he
            obtain ⟨hof, hbytes⟩ := ih heach' (at_ + r₀.bytes.length) hr he
            have hcons : recordBytes (r₀ :: recs) = r₀.bytes ++ recordBytes recs := by
              simp [recordBytes, hk]
            refine ⟨hof, fun hne => ?_⟩
            obtain ⟨k, hoff, hfit, hslice⟩ := hbytes hne
            refine ⟨r₀.bytes.length + k, by omega, ?_, ?_⟩
            · rw [hcons, List.length_append]
              omega
            · rw [hcons, slice_append_right, hslice]

/-! ### Reading a block back -/

@[simp] theorem length_headerBytes (storeId : UInt64) (blockLen n : Nat) (crc : UInt32) :
    (headerBytes storeId blockLen n crc).length = kBlockHeader := by
  simp [headerBytes, kBlockMagic, kBlockHeader]

/-- A header on disk passes the check and says what was written. -/
theorem readHeader_of_block {f : DataFile} {storeId : UInt64} {pos blockLen n : Nat}
    {crc : UInt32} (hread : f.read pos kBlockHeader = headerBytes storeId blockLen n crc)
    (hlen : blockLen < 2 ^ 64) (hn : n < 2 ^ 32) :
    readHeader f storeId pos = some { blockLen := blockLen, n := n, entsCrc := crc.toNat } := by
  -- The header is its first 60 bytes and their CRC.
  obtain ⟨head, hhead⟩ : ∃ head, head = kBlockMagic ++ le 8 storeId.toNat ++ le 8 blockLen ++
      le 4 n ++ le 4 crc.toNat ++ List.replicate 28 0 := ⟨_, rfl⟩
  have hh : headerBytes storeId blockLen n crc = head ++ le 4 (crc32c head).toNat := by
    rw [headerBytes, ← hhead]
  have hheadLen : head.length = 60 := by simp [hhead, kBlockMagic]
  have hmagic : slice (headerBytes storeId blockLen n crc) 0 8 = kBlockMagic := by
    simp [hh, hhead, slice, kBlockMagic]
  have hid : get (headerBytes storeId blockLen n crc) 8 8 = storeId.toNat := by
    rw [get_field kBlockMagic (le 8 blockLen ++ le 4 n ++ le 4 crc.toNat ++
      List.replicate 28 0 ++ le 4 (crc32c head).toNat) (v := storeId.toNat)
      (by rw [hh, hhead]; simp) (by simp [kBlockMagic])]
    exact Nat.mod_eq_of_lt storeId.toNat_lt
  have hblockLen : get (headerBytes storeId blockLen n crc) 16 8 = blockLen := by
    rw [get_field (kBlockMagic ++ le 8 storeId.toNat) (le 4 n ++ le 4 crc.toNat ++
      List.replicate 28 0 ++ le 4 (crc32c head).toNat) (v := blockLen)
      (by rw [hh, hhead]; simp) (by simp [kBlockMagic])]
    exact Nat.mod_eq_of_lt hlen
  have hcount : get (headerBytes storeId blockLen n crc) 24 4 = n := by
    rw [get_field (kBlockMagic ++ le 8 storeId.toNat ++ le 8 blockLen) (le 4 crc.toNat ++
      List.replicate 28 0 ++ le 4 (crc32c head).toNat) (v := n)
      (by rw [hh, hhead]; simp) (by simp [kBlockMagic])]
    exact Nat.mod_eq_of_lt hn
  have hcrc : get (headerBytes storeId blockLen n crc) 28 4 = crc.toNat := by
    rw [get_field (kBlockMagic ++ le 8 storeId.toNat ++ le 8 blockLen ++ le 4 n)
      (List.replicate 28 0 ++ le 4 (crc32c head).toNat) (v := crc.toNat)
      (by rw [hh, hhead]; simp) (by simp [kBlockMagic])]
    exact Nat.mod_eq_of_lt crc.toNat_lt
  have hcheck : get (headerBytes storeId blockLen n crc) 60 4 = (crc32c head).toNat := by
    rw [get_field head [] (v := (crc32c head).toNat) (by rw [hh, List.append_nil]) hheadLen]
    exact Nat.mod_eq_of_lt (crc32c head).toNat_lt
  have htake : (headerBytes storeId blockLen n crc).take 60 = head := by
    rw [hh, ← hheadLen, List.take_left]
  unfold readHeader
  simp only [hread, length_headerBytes, hmagic, hid, hcheck, htake, hblockLen, hcount, hcrc,
    and_self, if_true]

/-- The table of a block's entries. -/
def tableBytes (entries : List SlotEntry) : Bytes := (entries.map encodeEntry).flatten

theorem length_tableBytes (entries : List SlotEntry) :
    (tableBytes entries).length = entries.length * kEntry := by
  induction entries with
  | nil => simp [tableBytes]
  | cons e entries ih =>
      simp only [tableBytes, List.map_cons, List.flatten_cons, List.length_append,
        length_encodeEntry, List.length_cons] at ih ⊢
      rw [ih, Nat.add_mul]
      omega

theorem filterMap_range_getElem? {α : Type} (l : List α) :
    (List.range l.length).filterMap (fun i => l[i]?) = l := by
  induction l with
  | nil => rfl
  | cons a l ih =>
      rw [List.length_cons, List.range_succ_eq_map, List.filterMap_cons]
      simp [List.filterMap_map, ih]

/-- A table on disk gives the entries it was made of. -/
theorem filterMap_entryAt {entries : List SlotEntry} {pos blockLen : Nat}
    (hfit : ∀ e ∈ entries, e.off < 2 ^ 64 ∧ e.len < 2 ^ 32)
    (hin : ∀ e ∈ entries, e.kind = .kept ∨ (pos ≤ e.off ∧ e.off + e.len ≤ pos + blockLen)) :
    (List.range entries.length).filterMap (entryAt (tableBytes entries) pos blockLen) =
      entries := by
  have hat : ∀ i ∈ List.range entries.length,
      entryAt (tableBytes entries) pos blockLen i = entries[i]? := by
    intro i hi
    rw [List.mem_range] at hi
    obtain ⟨e, he⟩ : ∃ e, entries[i]? = some e := ⟨entries[i], List.getElem?_eq_getElem hi⟩
    have hmem : e ∈ entries := List.mem_of_getElem? he
    have hchunk : slice (tableBytes entries) (i * kEntry) kEntry = encodeEntry e := by
      rw [tableBytes, slice_flatten (by simp), List.getElem?_map, he]
      rfl
    rw [entryAt, hchunk, decodeEntry_encodeEntry (hfit e hmem).1 (hfit e hmem).2, he]
    have hin' := hin e hmem
    simp only [Option.filter_some]
    rw [if_pos]
    simpa using hin'
  rw [List.filterMap_congr hat, filterMap_range_getElem?]

/-- What a block is made of. -/
structure BlockOf (storeId : UInt64) (base : Nat) (recs : List SlotRecord) (block : Bytes)
    (entries : List SlotEntry) : Prop where
  entries_eq : entries = makeEntries storeId base (kBlockHeader + recs.length * kEntry) recs
  length : block.length =
    kBlockHeader + recs.length * kEntry + (recs.map fun r => r.bytes.length).sum
  header : block.take kBlockHeader =
    headerBytes storeId block.length recs.length (crc32c (tableBytes entries))
  table : slice block kBlockHeader (recs.length * kEntry) = tableBytes entries
  data : slice block (kBlockHeader + recs.length * kEntry) (recordBytes recs).length =
    recordBytes recs

theorem blockBytes_spec {storeId : UInt64} {base : Nat} {recs : List SlotRecord}
    (hs : Sized recs) :
    BlockOf storeId base recs (blockBytes storeId base recs).1
      (blockBytes storeId base recs).2 := by
  have hn : recs.length % 2 ^ 32 = recs.length := Nat.mod_eq_of_lt hs.count
  obtain ⟨entries, hentries⟩ : ∃ es,
      es = makeEntries storeId base (kBlockHeader + recs.length * kEntry) recs := ⟨_, rfl⟩
  obtain ⟨hdr, hhdr⟩ : ∃ h, h = headerBytes storeId (kBlockHeader + recs.length * kEntry +
      (recs.map fun r => r.bytes.length).sum) recs.length (crc32c (tableBytes entries)) := ⟨_, rfl⟩
  have hblk : blockBytes storeId base recs = (hdr ++ tableBytes entries ++ recordBytes recs ++
      List.replicate ((recs.map fun r => r.bytes.length).sum - (recordBytes recs).length) 0,
      entries) := by
    simp only [blockBytes, hn, List.take_length, ← hentries, hhdr, tableBytes]
  have hhdrLen : hdr.length = kBlockHeader := by rw [hhdr, length_headerBytes]
  have htableLen : (tableBytes entries).length = recs.length * kEntry := by
    rw [length_tableBytes, hentries, length_makeEntries]
  have hdata := length_recordBytes recs
  have hlen : (blockBytes storeId base recs).1.length =
      kBlockHeader + recs.length * kEntry + (recs.map fun r => r.bytes.length).sum := by
    rw [hblk]
    simp only [List.length_append, List.length_replicate, hhdrLen, htableLen]
    omega
  refine ⟨by rw [hblk, hentries], hlen, ?_, ?_, ?_⟩
  · rw [hlen, hblk, ← hhdr]
    simp only [List.append_assoc]
    rw [List.take_append_of_le_length (by omega), ← hhdrLen, List.take_length]
  · rw [hblk]
    simp only [List.append_assoc]
    have h := slice_append_right hdr (tableBytes entries ++ (recordBytes recs ++ List.replicate
      ((recs.map fun r => r.bytes.length).sum - (recordBytes recs).length) 0)) 0
      (recs.length * kEntry)
    rw [Nat.add_zero, hhdrLen] at h
    rw [h, slice_append_left _ (by omega), ← htableLen, slice_self]
  · rw [hblk]
    have h := slice_append_right (hdr ++ tableBytes entries) (recordBytes recs ++ List.replicate
      ((recs.map fun r => r.bytes.length).sum - (recordBytes recs).length) 0) 0
      (recordBytes recs).length
    rw [Nat.add_zero, List.length_append, hhdrLen, htableLen] at h
    simp only [List.append_assoc] at h ⊢
    rw [h, slice_append_left _ (by omega), slice_self]

/-- Every entry of a block fits its fields and its record lies in the block. -/
theorem BlockOf.entry {storeId : UInt64} {base : Nat} {recs : List SlotRecord} {block : Bytes}
    {entries : List SlotEntry} (h : BlockOf storeId base recs block entries) (hs : Sized recs)
    {i : Nat} {e : SlotEntry} (he : entries[i]? = some e) :
    ∃ r, recs[i]? = some r ∧ EntryOf storeId r e ∧ (r.kind ≠ .kept → base ≤ e.off ∧
      e.off + e.len ≤ base + block.length ∧ slice block (e.off - base) e.len = r.bytes) := by
  rw [h.entries_eq] at he
  have hi : i < recs.length := by
    have := (List.getElem?_eq_some_iff.1 he).1
    rwa [length_makeEntries] at this
  obtain ⟨r, hr⟩ : ∃ r, recs[i]? = some r := ⟨recs[i], List.getElem?_eq_getElem hi⟩
  obtain ⟨hof, hbytes⟩ := makeEntries_spec storeId base recs hs.each _ hr he
  refine ⟨r, hr, hof, fun hne => ?_⟩
  obtain ⟨k, hoff, hfit, hslice⟩ := hbytes hne
  have hdata := length_recordBytes recs
  have hlen := h.length
  rw [hof.len hne]
  refine ⟨by omega, by omega, ?_⟩
  -- The record is a slice of the records' bytes, which are a slice of the block.
  have hrec : slice (slice block (kBlockHeader + recs.length * kEntry) (recordBytes recs).length)
      k r.bytes.length = r.bytes := by rw [h.data, hslice]
  have hoff' : e.off - base = kBlockHeader + recs.length * kEntry + k := by omega
  rw [hoff', ← slice_slice hfit, hrec]

theorem BlockOf.fits {storeId : UInt64} {base : Nat} {recs : List SlotRecord} {block : Bytes}
    {entries : List SlotEntry} (h : BlockOf storeId base recs block entries) (hs : Sized recs)
    (hend : base + block.length < 2 ^ 63) {e : SlotEntry} (he : e ∈ entries) :
    (e.off < 2 ^ 64 ∧ e.len < 2 ^ 32) ∧
      (e.kind = .kept ∨ (base ≤ e.off ∧ e.off + e.len ≤ base + block.length)) := by
  obtain ⟨i, hi⟩ := List.mem_iff_getElem?.1 he
  obtain ⟨r, hr, hof, hin⟩ := h.entry hs hi
  by_cases hk : r.kind = .kept
  · obtain ⟨h0, h1⟩ := hof.kept hk
    rw [h0, h1]
    exact ⟨by decide, Or.inl (hof.kind.trans hk)⟩
  · obtain ⟨hlo, hhi, -⟩ := hin hk
    have hlen : e.len < 2 ^ 32 := by
      rw [hof.len hk]
      exact hs.each r (List.mem_of_getElem? hr)
    exact ⟨⟨by omega, hlen⟩, Or.inr ⟨hlo, hhi⟩⟩

end SlotStore

end UCache
