/-
Module: UCache.Core.SlotStore
Purpose: The commit log of a slot store: block headers, entries and records as bytes of one file,
  the scan that reads new blocks, and the processes that read and commit under the file's lock.
Trusted boundary: none
Main exports: SlotKind, SlotEntry, SlotRecord
-/
import UCache.Core.EntryMachine
import UCache.Lib.Endian

namespace UCache

open Lib

/-! ### Entries and records -/

/-- [SRC SlotStore.h:66] What a slot holds: a recompressed record, a record as it was, or nothing
here because the original is kept in the byte cache. -/
inductive SlotKind where
  | zstd
  | raw
  | kept
deriving DecidableEq, Repr

def SlotKind.code : SlotKind → UInt8
  | .zstd => 1
  | .raw => 2
  | .kept => 3

def SlotKind.ofCode (b : UInt8) : Option SlotKind :=
  if b = 1 then some .zstd else if b = 2 then some .raw else if b = 3 then some .kept else none

/-- A slot of the log: its kind, and where its record lies. -/
structure SlotEntry where
  slot : UInt32
  kind : SlotKind
  off : Nat := 0
  len : Nat := 0
  crc : UInt32 := 0
deriving DecidableEq, Repr

/-- A record as `commit` is handed it. -/
structure SlotRecord where
  slot : UInt32
  kind : SlotKind
  bytes : Bytes
deriving DecidableEq, Repr

namespace SlotStore

/-- `USBLOCK1`. -/
def kBlockMagic : Bytes := [85, 83, 66, 76, 79, 67, 75, 49]

def kBlockHeader : Nat := 64

def kEntry : Nat := 24

def kHeaderBytes : Nat := 4096

def kAlign : Nat := 4096

def alignUp (v : Nat) : Nat := (v + kAlign - 1) / kAlign * kAlign

/-- The little-endian integer of `n` bytes at `off`. -/
def get (p : Bytes) (off n : Nat) : Nat := ofLe (slice p off n)

/-- [SRC SlotStore.cc:48-55] -/
def encodeEntry (e : SlotEntry) : Bytes :=
  le 4 e.slot.toNat ++ [e.kind.code, 0, 0, 0] ++ le 8 e.off ++ le 4 e.len ++ le 4 e.crc.toNat

/-- [SRC SlotStore.cc:57-64] Nothing when the kind is not a known one. -/
def decodeEntry (p : Bytes) : Option SlotEntry :=
  (SlotKind.ofCode (p.getD 4 0)).map fun kind =>
    { slot := UInt32.ofNat (get p 0 4)
      kind := kind
      off := get p 8 8
      len := get p 16 4
      crc := UInt32.ofNat (get p 20 4) }

/-- [SRC SlotStore.cc:120-126] The CRC of a record, seeded with the store, the slot and the
length. -/
def recordCrc (storeId : UInt64) (slot : UInt32) (p : Bytes) : UInt32 :=
  crc32cFrom (crc32c (le 8 storeId.toNat ++ le 4 slot.toNat ++ le 4 p.length)) p

/-! ### Reading blocks -/

/-- What a well-formed block header says. -/
structure BlockHeader where
  blockLen : Nat
  n : Nat
  entsCrc : Nat

/-- The header check of `readBlocks`: magic, store and CRC. -/
def readHeader (f : DataFile) (storeId : UInt64) (pos : Nat) : Option BlockHeader :=
  let h := f.read pos kBlockHeader
  if h.length = kBlockHeader ∧ slice h 0 8 = kBlockMagic ∧ get h 8 8 = storeId.toNat ∧
      get h 60 4 = (crc32c (h.take 60)).toNat then
    some { blockLen := get h 16 8, n := get h 24 4, entsCrc := get h 28 4 }
  else none

/-- Entry `i` of a block's table, when its kind is known and its record lies in the block. -/
def entryAt (ents : Bytes) (pos blockLen i : Nat) : Option SlotEntry :=
  (decodeEntry (slice ents (i * kEntry) kEntry)).filter fun e =>
    decide (e.kind = .kept) || (decide (pos ≤ e.off) && decide (e.off + e.len ≤ pos + blockLen))

/-- The entries of a block; nothing when the table cannot be read or fails its CRC. -/
def blockEntries (f : DataFile) (pos : Nat) (h : BlockHeader) : Option (List SlotEntry) :=
  let ents := f.read (pos + kBlockHeader) (h.n * kEntry)
  if h.n ≠ 0 ∧ (ents.length ≠ h.n * kEntry ∨ (crc32c ents).toNat ≠ h.entsCrc) then none
  else some ((List.range h.n).filterMap (entryAt ents pos h.blockLen))

/-- State of the scan: where it stands, the furthest end a header claims, what it has found. -/
structure Scan where
  pos : Nat
  claimedEnd : Nat
  out : List SlotEntry := []

/-- One turn of the loop. -/
def scanStep (f : DataFile) (storeId : UInt64) (stop : Nat) (s : Scan) : Scan :=
  match readHeader f storeId s.pos with
  | none => { s with pos := s.pos + kAlign }
  | some h =>
      let claimedEnd :=
        if kBlockHeader ≤ h.blockLen ∧ h.blockLen < 2 ^ 40 then
          max s.claimedEnd (s.pos + h.blockLen)
        else s.claimedEnd
      if h.blockLen < kBlockHeader + h.n * kEntry ∨ stop < s.pos + h.blockLen then
        -- A block cut short: the next one starts on a later boundary.
        { s with claimedEnd := claimedEnd, pos := s.pos + kAlign }
      else
        match blockEntries f s.pos h with
        | none => { s with claimedEnd := claimedEnd, pos := s.pos + kAlign }
        | some es =>
            { claimedEnd := claimedEnd
              pos := alignUp (s.pos + h.blockLen)
              out := s.out ++ es }

/-- The loop.  Every turn moves on, so `stop` turns are enough. -/
def scan (f : DataFile) (storeId : UInt64) (stop : Nat) : Nat → Scan → Scan
  | 0, s => s
  | fuel + 1, s =>
      if s.pos + kBlockHeader ≤ stop then scan f storeId stop fuel (scanStep f storeId stop s)
      else s

end SlotStore

/-- [SRC SlotStore.h:174-179] What one open store remembers: the next boundary not yet read and the
furthest end a header claims. -/
structure SlotStore where
  readOff : Nat
  claimedEnd : Nat := 0

namespace SlotStore

/-- [SRC SlotStore.cc:337-375] -/
def readBlocks (st : SlotStore) (f : DataFile) (storeId : UInt64) (stop : Nat) :
    SlotStore × List SlotEntry :=
  let s := scan f storeId stop stop { pos := st.readOff, claimedEnd := st.claimedEnd }
  ({ readOff := max st.readOff s.pos, claimedEnd := s.claimedEnd }, s.out)

/-- [SRC SlotStore.cc:377-395] With the lock taken; `busy` when it could not be. -/
def refresh (st : SlotStore) (f : DataFile) (storeId : UInt64) (busy : Bool) :
    SlotStore × List SlotEntry :=
  if busy ∨ f.size < st.readOff + kBlockHeader then (st, [])
  else st.readBlocks f storeId f.size

/-! ### Writing a block -/

/-- The entries of a block at `base`: the records follow one another from `at_` on. -/
def makeEntries (storeId : UInt64) (base : Nat) : Nat → List SlotRecord → List SlotEntry
  | _, [] => []
  | at_, r :: rs =>
      if r.kind = .kept then
        { slot := r.slot, kind := r.kind } :: makeEntries storeId base at_ rs
      else
        { slot := r.slot
          kind := r.kind
          off := base + at_
          len := r.bytes.length % 2 ^ 32
          crc := recordCrc storeId r.slot r.bytes } ::
          makeEntries storeId base (at_ + r.bytes.length) rs

/-- The records as they lie in the block; a kept one leaves nothing. -/
def recordBytes (recs : List SlotRecord) : Bytes :=
  (recs.map fun r => if r.kind = .kept then [] else r.bytes).flatten

def headerBytes (storeId : UInt64) (blockLen n : Nat) (entsCrc : UInt32) : Bytes :=
  let head := kBlockMagic ++ le 8 storeId.toNat ++ le 8 blockLen ++ le 4 n ++
    le 4 entsCrc.toNat ++ List.replicate 28 0
  head ++ le 4 (crc32c head).toNat

/-- [SRC SlotStore.cc:423-462] The block of the given records at `base`, with its entries.  The
count is kept in 32 bits. -/
def blockBytes (storeId : UInt64) (base : Nat) (write : List SlotRecord) :
    Bytes × List SlotEntry :=
  let n := write.length % 2 ^ 32
  let dataLen := (write.map fun r => r.bytes.length).sum
  let blockLen := kBlockHeader + n * kEntry + dataLen
  let entries := makeEntries storeId base (kBlockHeader + n * kEntry) (write.take n)
  let table := (entries.map encodeEntry).flatten
  let data := recordBytes (write.take n)
  (headerBytes storeId blockLen n (crc32c table) ++ table ++ data ++
      List.replicate (dataLen - data.length) 0,
    entries)

/-- [SRC SlotStore.cc:475-482] The bytes of a committed record, when their CRC is right. -/
def readRecord (f : DataFile) (storeId : UInt64) (e : SlotEntry) : Option Bytes :=
  if e.kind = .kept then none
  else
    let out := f.read e.off e.len
    if out.length = e.len ∧ recordCrc storeId e.slot out = e.crc then some out else none

end SlotStore

/-! ### Processes on one store -/

/-- What a write that did not get through leaves: of the block's bytes those `keep` names, below the
size the file has now. -/
def DataFile.tear (d : DataFile) (base : Nat) (blk : Bytes) (keep : Nat → Bool) (size : Nat) :
    DataFile :=
  { d with
    size := size
    byte := fun k =>
      if base ≤ k ∧ k < base + blk.length ∧ k < size ∧ keep k = true then blk.getD (k - base) 0
      else if k < d.size then d.byte k else 0 }

/-- A block some commit has tried to write.  `ok`: written whole; `left`: its header is on disk. -/
structure CommitRec where
  base : Nat
  block : Bytes
  entries : List SlotEntry
  recs : List SlotRecord
  ok : Bool
  left : Bool
deriving DecidableEq

/-- The end of the extent the block's header claims. -/
def CommitRec.extent (c : CommitRec) : Nat := c.base + c.block.length

/-- An open store.  `delivered` and `own` are ghosts: the entries its reads have given so far, and
the blocks it has committed itself. -/
structure SlotReader where
  st : SlotStore
  delivered : List SlotEntry := []
  own : List CommitRec := []

/-- How a commit's `pwrite` ends: through, or cut short with some of the bytes on disk and the
process alive or dead. -/
inductive CommitEnd where
  | through
  | cut (keep : Nat → Bool) (size : Nat) (alive : Bool)

/-- One store file and the processes that have it open.  `log` is a ghost: every block there was an
attempt to write, oldest first. -/
structure SlotWorld where
  storeId : UInt64
  blobLen : Nat
  declined : Bool := false
  file : DataFile
  linked : Bool := true
  readers : Nat → Option SlotReader := fun _ => none
  log : List CommitRec := []

/-- The locks make a commit and a read of the file one step each. -/
inductive SlotAct where
  | openStore (h : Nat)
  | refresh (h : Nat) (busy : Bool)
  | commit (h : Nat) (recs : List SlotRecord) (taken : UInt32 → Bool) (outcome : CommitEnd)
  | close (h : Nat)
  | dropStore

namespace SlotWorld

open SlotStore

/-- Offset of the first block. -/
def firstBlock (w : SlotWorld) : Nat := alignUp (kHeaderBytes + w.blobLen)

def setReader (w : SlotWorld) (h : Nat) (r : Option SlotReader) : SlotWorld :=
  { w with readers := Function.update w.readers h r }

/-- The block of `write` goes to disk at `base`, or as much of it as the outcome says. -/
def writeBlock (w : SlotWorld) (h : Nat) (r : SlotReader) (base : Nat) (write : List SlotRecord)
    (outcome : CommitEnd) : Option SlotWorld :=
  let (blk, entries) := blockBytes w.storeId base write
  -- No file reaches past the largest offset.
  if 2 ^ 63 ≤ base + blk.length then some (w.setReader h (some r))
  else
    match outcome with
    | .through =>
        let c : CommitRec :=
          { base := base, block := blk, entries := entries, recs := write, ok := true, left := true }
        let st : SlotStore :=
          { readOff := alignUp (base + blk.length)
            claimedEnd := max r.st.claimedEnd (base + blk.length) }
        some { w.setReader h (some { r with st := st, own := c :: r.own }) with
          file := w.file.write base blk
          log := w.log ++ [c] }
    | .cut keep size alive =>
        if w.file.size ≤ size ∧ size ≤ max w.file.size (base + blk.length) then
          let file := w.file.tear base blk keep size
          let c : CommitRec :=
            { base := base
              block := blk
              entries := entries
              recs := write
              ok := false
              left := decide (file.read base kBlockHeader = blk.take kBlockHeader) }
          some { w.setReader h (if alive then some r else none) with
            file := file
            log := w.log ++ [c] }
        else none

/-- [SRC SlotStore.cc:397-473] -/
def commit (w : SlotWorld) (h : Nat) (r : SlotReader) (recs : List SlotRecord)
    (taken : UInt32 → Bool) (outcome : CommitEnd) : Option SlotWorld :=
  if w.declined || !w.linked then some w
  else
    let (st, others) := r.st.readBlocks w.file w.storeId w.file.size
    let r : SlotReader := { r with st := st, delivered := r.delivered ++ others }
    let write := recs.filter fun rec => !taken rec.slot
    if write.isEmpty then some (w.setReader h (some r))
    else
      let base := alignUp (max w.file.size (max st.readOff st.claimedEnd))
      w.writeBlock h r base write outcome

def step (w : SlotWorld) : SlotAct → Option SlotWorld
  | .openStore h =>
      match w.readers h with
      | none => some (w.setReader h (some { st := { readOff := w.firstBlock } }))
      | some _ => none
  | .refresh h busy =>
      (w.readers h).map fun r =>
        let (st, out) := r.st.refresh w.file w.storeId busy
        w.setReader h (some { r with st := st, delivered := r.delivered ++ out })
  | .commit h recs taken outcome =>
      (w.readers h).bind fun r => w.commit h r recs taken outcome
  | .close h => some (w.setReader h none)
  | .dropStore => some { w with linked := false }

theorem refresh_inv {w w' : SlotWorld} {h : Nat} {busy : Bool}
    (hs : w.step (.refresh h busy) = some w') :
    ∃ r, w.readers h = some r ∧ w' = w.setReader h (some { r with
      st := (r.st.refresh w.file w.storeId busy).1
      delivered := r.delivered ++ (r.st.refresh w.file w.storeId busy).2 }) := by
  simp only [step, Option.map_eq_some_iff] at hs
  obtain ⟨r, hr, hw⟩ := hs
  exact ⟨r, hr, hw.symm⟩

end SlotWorld

end UCache
