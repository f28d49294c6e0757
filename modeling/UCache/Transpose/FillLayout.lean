/-
Module: UCache.Transpose.FillLayout
Purpose: The address space a tree file is shown in while its replica is made: the layout computed
  from the file's metadata, and a basket's record prepared for its slot.
Trusted boundary: none
Main exports: BranchInfo, FileMeta, FillSlot
-/
import UCache.Lib.Faults
import UCache.Transpose.Frames

namespace UCache

open Lib

/-! ### What a parse yields -/

/-- [SRC TreeMeta.h:81-111] -/
structure BranchInfo where
  name : Bytes := []
  writeBasket : Int := 0
  maxBaskets : Nat := 0
  entries : Int := 0
  basketSeek : List Int := []
  basketBytes : List Int := []
  basketEntry : List Int := []
  leafClass : Bytes := []
  leafTitle : Bytes := []
  leafCount : Bytes := []
  seekArrayOff : Nat := 0
  bytesArrayOff : Nat := 0
  compress : Int := 0
  zipBytes : Int := 0
  zipBytesOff : Nat := 0
  externalFile : Bool := false
deriving DecidableEq, Repr

/-- [SRC TreeMeta.h:113-142] What a parse that succeeds yields. -/
structure FileMeta where
  large : Bool := false
  fend : Int := 0
  keyslistSeek : Int := 0
  dirSeekKeysOff : Nat := 0
  headerSeekWidth : Nat := 8
  dirSeekWidth : Nat := 8
  treeKey : KeyInfo := {}
  treeBlob : Bytes := []
  entries : Int := 0
  autoFlush : Int := 0
  autoFlushOff : Nat := 0
  zipBytes : Int := 0
  zipBytesOff : Nat := 0
  clusterRangeEnd : List Int := []
  clusterSize : List Int := []
  branches : List BranchInfo := []
deriving DecidableEq, Repr

/-! ### The layout -/

/-- [SRC FillLayout.h:50-57] One relocated basket: where it is in the origin, and its slot. -/
structure FillSlot where
  origSeek : Nat := 0
  origLen : Nat := 0
  vSeek : Nat := 0
  vLen : Nat := 0
  branch : Nat := 0
  basket : Nat := 0
deriving DecidableEq, Repr

/-- A range of the origin that reads differently, in place. -/
structure Window where
  off : Nat
  bytes : Bytes
deriving DecidableEq, Repr

def Window.stop (w : Window) : Nat := w.off + w.bytes.length

/-- [SRC FillLayout.h:59-77] -/
structure FillLayout where
  originSize : Nat := 0
  virtualSize : Nat := 0
  windows : List Window := []
  metaSeek : Nat := 0
  metaRecord : Bytes := []
  slotsBegin : Nat := 0
  slots : List FillSlot := []
  relocated : List Nat := []
deriving DecidableEq, Repr

def FillLayout.metaEnd (L : FillLayout) : Nat := L.metaSeek + L.metaRecord.length

/-! ### The file header -/

/-- [SRC FillLayout.cc:69-76] -/
structure Header where
  version : Int
  begin : Int
  stop : Int
  seekFree : Int
  seekInfo : Int
  nbytesFree : Int
  nfree : Int
  nbytesName : Int
  compress : Int
  nbytesInfo : Int
  uuid : Bytes
  large : Bool
deriving DecidableEq, Repr

/-- [SRC FillLayout.cc:78-108] -/
def parseHeader (h : Bytes) : Option Header :=
  if h.length < 75 ∨ slice h 0 4 ≠ ascii "root" then none
  else
    let version := beGetInt h 4 4
    let begin := beGetInt h 8 4
    let out : Header :=
      if 1000000 ≤ version then
        { version := version
          begin := begin
          stop := beGetInt h 12 8
          seekFree := beGetInt h 20 8
          nbytesFree := beGetInt h 28 4
          nfree := beGetInt h 32 4
          nbytesName := beGetInt h 36 4
          compress := beGetInt h 41 4
          seekInfo := beGetInt h 45 8
          nbytesInfo := beGetInt h 53 4
          uuid := slice h 57 18
          large := true }
      else
        { version := version
          begin := begin
          stop := beGetInt h 12 4
          seekFree := beGetInt h 16 4
          nbytesFree := beGetInt h 20 4
          nfree := beGetInt h 24 4
          nbytesName := beGetInt h 28 4
          compress := beGetInt h 33 4
          seekInfo := beGetInt h 37 4
          nbytesInfo := beGetInt h 41 4
          uuid := slice h 45 18
          large := false }
    if 75 ≤ begin then some out else none

/-- [SRC FillLayout.cc:110-129] The 64-bit header layout, 75 bytes. -/
def largeHeader (h : Header) (newEnd : Nat) : Bytes :=
  ascii "root" ++ beInt 4 (if h.large then h.version else h.version + 1000000) ++
    beInt 4 h.begin ++ beInt 8 newEnd ++ beInt 8 h.seekFree ++ beInt 4 h.nbytesFree ++
    beInt 4 h.nfree ++ beInt 4 h.nbytesName ++ [8] ++ beInt 4 h.compress ++
    beInt 8 h.seekInfo ++ beInt 4 h.nbytesInfo ++ h.uuid

/-- [SRC FillLayout.cc:133-153] The window that makes the header say `fEND = newEnd`. -/
def headerWindowForEnd (header : Bytes) (newEnd : Nat) : Except String Window :=
  match parseHeader header with
  | none => .error "file header unreadable or fBEGIN below 75"
  | some H =>
      if H.large then .ok { off := 12, bytes := beInt 8 newEnd }
      else if newEnd < 2 ^ 31 then .ok { off := 12, bytes := beInt 4 newEnd }
      else .ok { off := 0, bytes := largeHeader H newEnd }

/-! ### Codecs -/

/-- [SRC FillLayout.cc:155-167] -/
def codecOfSetting (compress fileCompress : Int) : String :=
  let c := if compress < 0 then fileCompress else compress
  if c ≤ 0 ∨ c % 100 = 0 then ""
  else if c / 100 = 1 then "zlib"
  else if c / 100 = 2 then "lzma"
  else if c / 100 = 4 then "lz4"
  else if c / 100 = 5 then "zstd"
  else ""

/-- [SRC FillLayout.cc:54-62] The frame header names the codec a payload was written with. -/
def frameCodec (p : Bytes) : String :=
  if p.length < 9 then ""
  else if slice p 0 2 = ascii "XZ" then "lzma"
  else if slice p 0 2 = ascii "ZL" then "zlib"
  else if slice p 0 2 = ascii "ZS" then "zstd"
  else if slice p 0 2 = ascii "L4" then "lz4"
  else ""

/-- [SRC FillLayout.cc:64-66] -/
def listed (codecs : List String) (c : String) : Bool := c != "" && codecs.contains c

/-! ### Computing the layout -/

def kAlign : Nat := 4096

/-- `INT32_MAX`. -/
def kInt32Max : Nat := 2 ^ 31 - 1

/-- Every basket of the branch lies inside the file; the bounds are compared as 64-bit unsigned
integers. -/
def BranchInfo.inside (br : BranchInfo) (fend : Int) : Bool :=
  (List.range br.writeBasket.toNat).all fun i =>
    decide (0 < br.basketSeek.getD i 0) && decide (0 < br.basketBytes.getD i 0) &&
      decide (br.basketSeek.getD i 0 + br.basketBytes.getD i 0 ≤ fend % 2 ^ 64)

/-- [SRC FillLayout.cc:198-211] The branches that move. -/
def relocatedBranches (fm : FileMeta) (H : Header) (codecs : List String) : List Nat :=
  (List.range fm.branches.length).filter fun b =>
    let br := fm.branches.getD b {}
    decide (0 < br.writeBasket) && !br.externalFile && decide (br.zipBytesOff ≠ 0) &&
      listed codecs (codecOfSetting br.compress H.compress) && br.inside fm.fend

/-- Where the walk over the moved baskets stands. -/
structure Placing where
  pos : Nat
  blob : Bytes
  slots : List FillSlot := []

/-- [SRC FillLayout.cc:233-244] Basket `i` of branch `b` gets the next slot, and its seek and
length in the tree record point there. -/
def placeSlot (fm : FileMeta) (slotFactor100 : Nat) (st : Placing) (bi : Nat × Nat) : Placing :=
  let br := fm.branches.getD bi.1 {}
  let origLen := (br.basketBytes.getD bi.2 0).toNat
  let vLen := min (origLen * slotFactor100 / 100) kInt32Max
  { pos := st.pos + vLen
    blob :=
      bePut (bePut st.blob (br.seekArrayOff + 8 * bi.2) 8 st.pos) (br.bytesArrayOff + 4 * bi.2) 4
        vLen
    slots := st.slots ++
      [{ origSeek := (br.basketSeek.getD bi.2 0).toNat
         origLen := origLen
         vSeek := st.pos
         vLen := vLen
         branch := bi.1
         basket := bi.2 }] }

/-- The baskets that move, branch by branch. -/
def movedBaskets (fm : FileMeta) (relocated : List Nat) : List (Nat × Nat) :=
  relocated.flatMap fun b =>
    (List.range (fm.branches.getD b {}).writeBasket.toNat).map fun i => (b, i)

/-- [SRC FillLayout.cc:259-261] The tree record compressed, or as it is when that does not shrink
it. -/
def metaPayload (E : Encoder) (blob : Bytes) : Bytes := shrink E blob 1

/-- [SRC FillLayout.cc:262-268] The relocated metadata key. -/
def metaRecordFor (E : Encoder) (fm : FileMeta) (treeKeyHeader blob : Bytes)
    (reserve metaSeek : Nat) : Except String Bytes :=
  let rec₀ := treeKeyHeader ++ metaPayload E blob
  if reserve < rec₀.length then .error "metadata key outgrew its reservation"
  else
    match putKeySeek (bePut rec₀ 0 4 rec₀.length) 0 fm.treeKey.ver metaSeek with
    | none => .error "tree key is 32-bit and the extension starts past 2 GiB"
    | some r => .ok r

/-- [SRC FillLayout.cc:283-294] The loop over the entries of the keys list. -/
def patchEntries (fm : FileMeta) (metaLen metaSeek : Nat) :
    Nat → Bytes → Nat → Bool → Except String (Bytes × Bool)
  | 0, klist, _, patched => .ok (klist, patched)
  | n + 1, klist, pos, patched =>
      match parseKey klist pos with
      | none => .error "keys-list entry malformed"
      | some e =>
          if e.cls = ascii "TTree" ∧ e.name = fm.treeKey.name ∧ e.seekkey = fm.treeKey.seekkey then
            match putKeySeek (bePut klist pos 4 metaLen) pos e.ver metaSeek with
            | none => .error "keys-list entry is 32-bit and the metadata key lies past 2 GiB"
            | some klist' => patchEntries fm metaLen metaSeek n klist' (pos + e.keylen) true
          else patchEntries fm metaLen metaSeek n klist (pos + e.keylen) patched

/-- [SRC FillLayout.cc:270-296] The keys list with the live tree entry pointing at the relocated
metadata key. -/
def patchKeysList (fm : FileMeta) (keysList : Bytes) (originSize metaLen metaSeek : Nat) :
    Except String Bytes :=
  match parseKey keysList 0 with
  | none => .error "keys-list record malformed"
  | some kl =>
      if kl.nbytes ≤ 0 ∨ kl.nbytes ≠ keysList.length ∨ keysList.length < kl.keylen + 4 then
        .error "keys-list record malformed"
      else if fm.keyslistSeek < 100 ∨ (originSize : Int) < fm.keyslistSeek + keysList.length then
        .error "keys-list record does not lie inside the original file"
      else
        match patchEntries fm metaLen metaSeek (beGetInt keysList kl.keylen 4).toNat keysList
            (kl.keylen + 4) false with
        | .error e => .error e
        | .ok (klist, patched) =>
            if patched then .ok klist else .error "live tree entry not found in the keys list"

/-- [SRC FillLayout.cc:169-309] -/
def layoutForFill (E : Encoder) (fm : FileMeta) (fileSize : Nat)
    (header treeKeyHeader keysList : Bytes) (codecs : List String) (slotFactor100 : Nat) :
    Except String FillLayout :=
  if slotFactor100 < 100 then .error "slot factor must be at least 1"
  else
    match parseHeader header with
    | none => .error "file header unreadable or fBEGIN below 75"
    | some H =>
        if H.stop ≠ fm.fend then .error "file header disagrees with the parse on fEND"
        else if treeKeyHeader.length ≠ fm.treeKey.keylen ∨ fm.treeKey.keylen < 26 then
          .error "tree key header missing"
        else if fm.zipBytesOff = 0 ∨ fm.autoFlushOff = 0 ∨ fm.zipBytes ≤ 0 then
          .error "tree record fields not located"
        else
          let relocated := relocatedBranches fm H codecs
          if relocated = [] then .error "no relocatable branch"
          else if (fileSize : Int) ≠ fm.fend % 2 ^ 64 then
            .error ("file size " ++ toString fileSize ++ " differs from fEND " ++
              toString fm.fend)
          else
            let metaSeek := (fileSize + kAlign - 1) / kAlign * kAlign
            let reserve := fm.treeKey.keylen + fm.treeBlob.length
            let slotsBegin := metaSeek + reserve
            let placed := (movedBaskets fm relocated).foldl (placeSlot fm slotFactor100)
              { pos := slotsBegin, blob := fm.treeBlob }
            do
              let metaRecord ← metaRecordFor E fm treeKeyHeader placed.blob reserve metaSeek
              let klist ← patchKeysList fm keysList fileSize metaRecord.length metaSeek
              let hw ← headerWindowForEnd header placed.pos
              .ok
                { originSize := fileSize
                  virtualSize := placed.pos
                  windows := [hw, { off := fm.keyslistSeek.toNat, bytes := klist }]
                  metaSeek := metaSeek
                  metaRecord := metaRecord
                  slotsBegin := slotsBegin
                  slots := placed.slots
                  relocated := relocated }

/-! ### Preparing a basket for its slot -/

/-- [SRC FillLayout.h:105] -/
inductive BasketKind where
  | zstd
  | raw
  | original
deriving DecidableEq, Repr

/-- [SRC FillLayout.h:104-113] -/
structure ConvertedBasket where
  kind : BasketKind
  record : Bytes
  codec : String
deriving DecidableEq, Repr

/-- The key header with a new payload and `fNbytes` set to the record's length. -/
def rebuildRecord (record : Bytes) (keylen : Nat) (payload : Bytes) : Bytes :=
  bePut (record.take keylen ++ payload) 0 4 (record.take keylen ++ payload).length

/-- A record whose key is that of a basket of its length. -/
def basketKey (record : Bytes) : Option KeyInfo :=
  (parseKey record 0).filter fun k =>
    decide (k.cls = ascii "TBasket") && decide (0 < k.nbytes) &&
      decide (k.nbytes = record.length) && decide (k.keylen ≤ record.length)

/-- The payload is stored as it is. -/
def KeyInfo.storedRaw (k : KeyInfo) : Bool := decide (k.objlen = k.nbytes - k.keylen)

/-- [SRC FillLayout.cc:311-357] ZSTD when the basket's codec is listed and the result fits; else
uncompressed when that fits; else the original. -/
def convertBasket (D : Decoders) (E : Encoder) (record : Bytes) (slotLen : Nat)
    (codecs : List String) : Except String ConvertedBasket :=
  match basketKey record with
  | none => .error "not a basket record"
  | some k =>
      if slotLen < record.length then .error "record longer than its slot"
      else
        let pay := record.drop k.keylen
        let codec := frameCodec pay
        if k.storedRaw then .ok { kind := .original, record := record, codec := "" }
        else if !listed codecs codec || decide (k.objlen ≤ 0) then
          .ok { kind := .original, record := record, codec := codec }
        else
          let raw := decompressFrames D pay k.objlen.toNat
          let z := encodeZstdFrames E raw 1
          if raw = [] then .ok { kind := .original, record := record, codec := codec }
          else if z ≠ [] ∧ z.length < raw.length then
            if k.keylen + z.length ≤ slotLen then
              .ok { kind := .zstd, record := rebuildRecord record k.keylen z, codec := codec }
            else .ok { kind := .original, record := record, codec := codec }
          -- ZSTD cannot shrink it.
          else if k.keylen + raw.length ≤ slotLen then
            .ok { kind := .raw, record := rebuildRecord record k.keylen raw, codec := codec }
          else .ok { kind := .original, record := record, codec := codec }

/-- What a reader gets from a basket's record: the payload as stored, or decoded. -/
def decodeBasket (D : Decoders) (record : Bytes) : Option Bytes :=
  match basketKey record with
  | none => none
  | some k =>
      let pay := record.drop k.keylen
      if k.storedRaw then some pay
      else
        let raw := decompressFrames D pay k.objlen.toNat
        if raw = [] then none else some raw

/-! ### Well-formed layouts -/

variable {E : Encoder} {fm : FileMeta} {codecs : List String}

/-- The slots follow one another from `a` to `b`. -/
def SlotsFrom : Nat → List FillSlot → Nat → Prop
  | a, [], b => a = b
  | a, s :: rest, b => s.vSeek = a ∧ SlotsFrom (a + s.vLen) rest b

theorem SlotsFrom.snoc {a b : Nat} {slots : List FillSlot} (h : SlotsFrom a slots b)
    {s : FillSlot} (hs : s.vSeek = b) : SlotsFrom a (slots ++ [s]) (b + s.vLen) := by
  induction slots generalizing a with
  | nil =>
      cases h
      exact ⟨hs, rfl⟩
  | cons t rest ih => exact ⟨h.1, ih h.2⟩

theorem SlotsFrom.le {a b : Nat} {slots : List FillSlot} (h : SlotsFrom a slots b) : a ≤ b := by
  induction slots generalizing a with
  | nil => exact Nat.le_of_eq h
  | cons s rest ih =>
      have := ih h.2
      omega

theorem SlotsFrom.end_le {a b : Nat} {slots : List FillSlot} (h : SlotsFrom a slots b)
    {s : FillSlot} (hs : s ∈ slots) : s.vSeek + s.vLen ≤ b := by
  induction slots generalizing a with
  | nil => cases hs
  | cons t rest ih =>
      rcases List.mem_cons.1 hs with rfl | hmem
      · rw [h.1]
        exact h.2.le
      · exact ih h.2 hmem

/-- What serving relies on. -/
structure LayoutOk (L : FillLayout) : Prop where
  windows : L.windows.Pairwise fun a b => a.stop ≤ b.off
  inside : ∀ w ∈ L.windows, w.stop ≤ L.originSize
  metaSeek : L.originSize ≤ L.metaSeek
  metaEnd : L.metaEnd ≤ L.slotsBegin
  slots : SlotsFrom L.slotsBegin L.slots L.virtualSize
  nonempty : ∀ s ∈ L.slots, 0 < s.vLen

theorem le_kAlign_mul (n : Nat) : n ≤ (n + kAlign - 1) / kAlign * kAlign := by
  unfold kAlign
  omega

/-- The slots placed so far. -/
structure PlacedOk (start size : Nat) (st : Placing) : Prop where
  slots : SlotsFrom start st.slots st.pos
  each : ∀ s ∈ st.slots,
    0 < s.vLen ∧ s.origLen ≤ s.vLen ∧ s.vLen < 2 ^ 31 ∧ s.origSeek + s.origLen ≤ size

/-- A basket of a branch that moves lies inside the file and has a length. -/
def BasketIn (fm : FileMeta) (size : Nat) (bi : Nat × Nat) : Prop :=
  let br := fm.branches.getD bi.1 {}
  0 < br.basketSeek.getD bi.2 0 ∧ 0 < br.basketBytes.getD bi.2 0 ∧
    br.basketBytes.getD bi.2 0 < 2 ^ 31 ∧
      br.basketSeek.getD bi.2 0 + br.basketBytes.getD bi.2 0 ≤ size

theorem placeSlot_ok {k100 start size : Nat} {st : Placing} {bi : Nat × Nat} (hk : 100 ≤ k100)
    (h : PlacedOk start size st) (hin : BasketIn fm size bi) :
    PlacedOk start size (placeSlot fm k100 st bi) := by
  obtain ⟨hseek, hbytes, hsmall, hend⟩ := hin
  have hgrow : (((fm.branches.getD bi.1 {}).basketBytes.getD bi.2 0).toNat) ≤
      ((fm.branches.getD bi.1 {}).basketBytes.getD bi.2 0).toNat * k100 / 100 := by
    rw [Nat.le_div_iff_mul_le (by omega)]
    exact Nat.mul_le_mul_left _ hk
  constructor
  · exact h.slots.snoc rfl
  · intro s hs
    simp only [placeSlot, List.mem_append, List.mem_singleton] at hs
    obtain hs | rfl := hs
    · exact h.each s hs
    · simp only [kInt32Max]
      omega

theorem placeSlots_ok {k100 start size : Nat} (hk : 100 ≤ k100) {moved : List (Nat × Nat)}
    (hin : ∀ bi ∈ moved, BasketIn fm size bi) {st : Placing} (h : PlacedOk start size st) :
    PlacedOk start size (moved.foldl (placeSlot fm k100) st) := by
  induction moved generalizing st with
  | nil => exact h
  | cons bi rest ih =>
      exact ih (fun x hx => hin x (by simp [hx])) (placeSlot_ok hk h (hin bi (by simp)))

/-- The lengths of the baskets are 32-bit signed integers. -/
def FileMeta.Lengths32 (fm : FileMeta) : Prop :=
  ∀ br ∈ fm.branches, ∀ v ∈ br.basketBytes, v < 2 ^ 31

theorem getD_lt_of_forall {l : List Int} {n : Int} (hn : 0 < n) (h : ∀ v ∈ l, v < n) (i : Nat) :
    l.getD i 0 < n := by
  by_cases hi : i < l.length
  · rw [List.getD_eq_getElem _ _ hi]
    exact h _ (List.getElem_mem hi)
  · rw [List.getD_eq_default _ _ (by omega)]
    exact hn

theorem movedBaskets_in {fm : FileMeta} {H : Header} {codecs : List String} {size : Nat}
    (h32 : fm.Lengths32) (hsize : (size : Int) = fm.fend % 2 ^ 64) :
    ∀ bi ∈ movedBaskets fm (relocatedBranches fm H codecs), BasketIn fm size bi := by
  intro bi hbi
  simp only [movedBaskets, List.mem_flatMap, List.mem_map, List.mem_range] at hbi
  obtain ⟨b, hb, i, hi, rfl⟩ := hbi
  simp only [relocatedBranches, List.mem_filter, List.mem_range, Bool.and_eq_true] at hb
  obtain ⟨hlt, -, hinside⟩ := hb
  have hall := List.all_eq_true.1 hinside i (List.mem_range.2 hi)
  simp only [Bool.and_eq_true, decide_eq_true_eq] at hall
  refine ⟨hall.1.1, hall.1.2, ?_, by rw [hsize]; exact hall.2⟩
  apply getD_lt_of_forall (by omega)
  apply h32
  rw [List.getD_eq_getElem _ _ hlt]
  exact List.getElem_mem hlt

/-- What a layout that was computed went through. -/
structure FillOf (E : Encoder) (fm : FileMeta) (fileSize : Nat)
    (header treeKeyHeader keysList : Bytes) (codecs : List String) (k100 : Nat)
    (L : FillLayout) : Prop where
  factor : 100 ≤ k100
  parsed : ∃ H, parseHeader header = some H ∧ H.stop = fm.fend ∧
    L.relocated = relocatedBranches fm H codecs
  treeKey : treeKeyHeader.length = fm.treeKey.keylen ∧ 26 ≤ fm.treeKey.keylen
  size : (fileSize : Int) = fm.fend % 2 ^ 64
  originSize : L.originSize = fileSize
  metaSeek : L.metaSeek = (fileSize + kAlign - 1) / kAlign * kAlign
  slotsBegin : L.slotsBegin = L.metaSeek + (fm.treeKey.keylen + fm.treeBlob.length)
  placed : ∃ st, st = (movedBaskets fm L.relocated).foldl (placeSlot fm k100)
    { pos := L.slotsBegin, blob := fm.treeBlob } ∧ L.virtualSize = st.pos ∧ L.slots = st.slots ∧
      metaRecordFor E fm treeKeyHeader st.blob (fm.treeKey.keylen + fm.treeBlob.length)
        L.metaSeek = .ok L.metaRecord
  windows : ∃ hw klist, L.windows = [hw, { off := fm.keyslistSeek.toNat, bytes := klist }] ∧
    headerWindowForEnd header L.virtualSize = .ok hw ∧
      patchKeysList fm keysList fileSize L.metaRecord.length L.metaSeek = .ok klist

theorem layoutForFill_inv {fileSize : Nat} {header treeKeyHeader keysList : Bytes} {k100 : Nat}
    {L : FillLayout}
    (h : layoutForFill E fm fileSize header treeKeyHeader keysList codecs k100 = .ok L) :
    FillOf E fm fileSize header treeKeyHeader keysList codecs k100 L := by
  unfold layoutForFill at h
  split at h
  · cases h
  rename_i hk
  split at h
  · cases h
  rename_i H hH
  split at h
  · cases h
  rename_i hstop
  split at h
  · cases h
  rename_i htk
  split at h
  · cases h
  simp only at h
  split at h
  · cases h
  split at h
  · cases h
  rename_i hsize
  obtain ⟨metaRecord, hmeta, h⟩ := bind_eq_ok h
  obtain ⟨klist, hkl, h⟩ := bind_eq_ok h
  obtain ⟨hw, hhw, h⟩ := bind_eq_ok h
  cases h
  exact
    { factor := by omega
      parsed := ⟨H, hH, by simpa using hstop, rfl⟩
      treeKey := by omega
      size := by simpa using hsize
      originSize := rfl
      metaSeek := rfl
      slotsBegin := rfl
      placed := ⟨_, rfl, rfl, rfl, hmeta⟩
      windows := ⟨hw, klist, rfl, hhw, hkl⟩ }

theorem putKeySeek_length {p p' : Bytes} {off ver : Nat} {seek : Int}
    (h : putKeySeek p off ver seek = some p') (hlen : off + 26 ≤ p.length) :
    p'.length = p.length := by
  unfold putKeySeek at h
  split at h
  · cases h
    exact length_bePut (by omega)
  · split at h
    · cases h
    · cases h
      exact length_bePut (by omega)

theorem metaRecordFor_length {treeKeyHeader blob r : Bytes} {reserve metaSeek : Nat}
    (h26 : 26 ≤ treeKeyHeader.length)
    (h : metaRecordFor E fm treeKeyHeader blob reserve metaSeek = .ok r) : r.length ≤ reserve := by
  unfold metaRecordFor at h
  simp only at h
  split at h
  · cases h
  rename_i hres
  split at h
  · cases h
  · rename_i r' hput
    cases h
    have hlen : 26 ≤ (treeKeyHeader ++ metaPayload E blob).length := by
      rw [List.length_append]
      omega
    have hput₀ : (bePut (treeKeyHeader ++ metaPayload E blob) 0 4
        ((treeKeyHeader ++ metaPayload E blob).length : Nat)).length =
          (treeKeyHeader ++ metaPayload E blob).length := length_bePut (by omega)
    rw [putKeySeek_length hput (by omega), hput₀]
    omega

theorem parseKey_length {p : Bytes} {off : Nat} {i : KeyInfo} (h : parseKey p off = some i) :
    off + 34 ≤ p.length := by
  have := (parseKeyAt_inv h).length
  rw [List.length_drop] at this
  omega

theorem patchEntries_length {metaLen metaSeek : Nat} {n : Nat} {klist klist' : Bytes} {pos : Nat}
    {patched patched' : Bool}
    (h : patchEntries fm metaLen metaSeek n klist pos patched = .ok (klist', patched')) :
    klist'.length = klist.length := by
  induction n generalizing klist pos patched with
  | zero =>
      cases h
      rfl
  | succ n ih =>
      unfold patchEntries at h
      split at h
      · cases h
      · rename_i e he
        have hlen := parseKey_length he
        split at h
        · split at h
          · cases h
          · rename_i k₁ hput
            have h₀ : (bePut klist pos 4 metaLen).length = klist.length := length_bePut (by omega)
            rw [ih h, putKeySeek_length hput (by omega), h₀]
        · exact ih h

theorem patchKeysList_ok {keysList klist : Bytes} {size metaLen metaSeek : Nat}
    (h : patchKeysList fm keysList size metaLen metaSeek = .ok klist) :
    klist.length = keysList.length ∧ 100 ≤ fm.keyslistSeek ∧
      fm.keyslistSeek + keysList.length ≤ size := by
  unfold patchKeysList at h
  split at h
  · cases h
  split at h
  · cases h
  split at h
  · cases h
  rename_i hinside
  split at h
  · cases h
  · rename_i k p hloop
    split at h
    · cases h
      exact ⟨patchEntries_length hloop, by omega, by omega⟩
    · cases h

theorem parseHeader_uuid {h : Bytes} {H : Header} (hp : parseHeader h = some H) :
    H.uuid.length = 18 := by
  unfold parseHeader at hp
  split at hp
  · cases hp
  simp only at hp
  split at hp
  · cases hp
    split <;> simp only [length_slice] <;> omega
  · cases hp

theorem headerWindow_stop {header : Bytes} {newEnd : Nat} {w : Window}
    (h : headerWindowForEnd header newEnd = .ok w) : w.stop ≤ 75 := by
  unfold headerWindowForEnd at h
  split at h
  · cases h
  rename_i H hH
  split at h
  · cases h
    simp [Window.stop]
  · split at h
    · cases h
      simp [Window.stop]
    · cases h
      have := parseHeader_uuid hH
      simp [Window.stop, largeHeader]
      omega

/-- A computed layout is well formed, and every original lies in the file and fits its slot. -/
theorem FillOf.ok {fileSize : Nat} {header treeKeyHeader keysList : Bytes} {k100 : Nat}
    {L : FillLayout} (h : FillOf E fm fileSize header treeKeyHeader keysList codecs k100 L)
    (h32 : fm.Lengths32) : LayoutOk L ∧ ∀ s ∈ L.slots, s.origLen ≤ s.vLen ∧
      s.vLen < 2 ^ 31 ∧ s.origSeek + s.origLen ≤ L.originSize := by
  obtain ⟨H, -, -, hrel⟩ := h.parsed
  obtain ⟨st, hst, hvirt, hslots, hmeta⟩ := h.placed
  obtain ⟨hw, klist, hwindows, hhw, hkl⟩ := h.windows
  have hin := @movedBaskets_in fm H codecs fileSize h32 h.size
  rw [← hrel] at hin
  have hplaced : PlacedOk L.slotsBegin fileSize st := by
    rw [hst]
    exact placeSlots_ok h.factor hin ⟨rfl, by simp⟩
  obtain ⟨hklen, hlo, hhi⟩ := patchKeysList_ok hkl
  have hstop := headerWindow_stop hhw
  refine ⟨?_, fun s hs => by rw [h.originSize]; exact (hplaced.each s (hslots ▸ hs)).2⟩
  constructor
  · rw [hwindows]
    simp only [List.pairwise_cons, List.mem_singleton, forall_eq, List.not_mem_nil,
      false_implies, implies_true, List.Pairwise.nil, and_true]
    omega
  · intro w hmem
    rw [hwindows] at hmem
    simp only [List.mem_cons, List.not_mem_nil, or_false] at hmem
    rw [h.originSize]
    obtain rfl | rfl := hmem
    · omega
    · simp only [Window.stop, hklen]
      omega
  · rw [h.originSize, h.metaSeek]
    exact le_kAlign_mul fileSize
  · have := metaRecordFor_length (by rw [h.treeKey.1]; exact h.treeKey.2) hmeta
    rw [FillLayout.metaEnd, h.slotsBegin]
    omega
  · rw [hslots, hvirt]
    exact hplaced.slots
  · intro s hs
    exact (hplaced.each s (hslots ▸ hs)).1

/-! ### A converted basket decodes to the same payload -/

variable {D : Decoders}

/-- `fSeekKey` of a record, at its key's width. -/
def keySeek (record : Bytes) : Int :=
  if keyWide (beGet record 4 2) then beGetInt record 18 8 else beGetInt record 18 4

/-- The key of a basket says a length that covers its own header. -/
def Covers (record : Bytes) : Prop :=
  ∀ k, basketKey record = some k → k.headerLen ≤ k.keylen

theorem basketKey_inv {record : Bytes} {k : KeyInfo} (h : basketKey record = some k) :
    parseKey record 0 = some k ∧ k.cls = ascii "TBasket" ∧ 0 < k.nbytes ∧
      k.nbytes = record.length ∧ k.keylen ≤ record.length := by
  simp only [basketKey, Option.filter_eq_some_iff, Bool.and_eq_true, decide_eq_true_eq] at h
  exact ⟨h.1, h.2.1.1.1, h.2.1.1.2, h.2.1.2, h.2.2⟩

theorem patchKeySeek_spec {record record' : Bytes} {seek : Nat}
    (h : patchKeySeek record seek = some record') :
    SeekPut record record' 0 (beGet record 4 2) seek := by
  unfold patchKeySeek at h
  split at h
  · cases h
  rename_i hlen
  simp only at h
  split at h
  · cases h
  rename_i hwide
  apply putKeySeek_spec h
  · unfold seekEnd
    split
    · rename_i hw
      simp only [hw, true_and] at hwide
      omega
    · omega
  · omega
  · omega

theorem SeekPut.keySeek {p p' : Bytes} {ver : Nat} {seek : Int} (hver : ver = beGet p 4 2)
    (h : SeekPut p p' 0 ver seek) : keySeek p' = seek := by
  have hsame : beGet p' 4 2 = beGet p 4 2 := by
    apply beGet_congr
    intro i _ hi
    apply h.apart
    omega
  have hseek := h.seek
  rw [hver] at hseek
  simpa [UCache.keySeek, hsame] using hseek

/-- A record moved to another place decodes to the same payload. -/
theorem decodeBasket_patchKeySeek {record record' : Bytes} {seek : Nat}
    (h : patchKeySeek record seek = some record') (hcover : Covers record) :
    decodeBasket D record' = decodeBasket D record := by
  have hput := patchKeySeek_spec h
  have hkey : parseKey record' 0 = (parseKey record 0).map fun i => { i with seekkey := seek } := by
    apply parseKey_putSeek
    simpa using hput
  have hbasket : basketKey record' =
      (basketKey record).map fun i => { i with seekkey := (seek : Int) } := by
    rw [basketKey, basketKey, hkey, hput.length]
    cases parseKey record 0 with
    | none => rfl
    | some i =>
        simp only [Option.map_some, Option.filter]
        split <;> rfl
  unfold decodeBasket
  rw [hbasket]
  cases hk : basketKey record with
  | none => rfl
  | some k =>
      have hcov := hcover k hk
      have hver : k.ver = beGet record 4 2 := by
        have := (parseKeyAt_inv (basketKey_inv hk).1).ver
        simpa using this
      have hpay : record'.drop k.keylen = record.drop k.keylen := by
        apply List.ext_getElem?
        intro j
        rw [List.getElem?_drop, List.getElem?_drop]
        apply hput.apart
        have := seekEnd_le_texts k.ver
        simp only [KeyInfo.headerLen] at hcov
        rw [← hver]
        omega
      simp [KeyInfo.storedRaw, hpay]

/-- The key of a record whose payload was replaced. -/
theorem basketKey_rebuild {record : Bytes} {k : KeyInfo} (hk : basketKey record = some k)
    (hcov : k.headerLen ≤ k.keylen) {payload : Bytes}
    (hlen : k.keylen + payload.length < 2 ^ 31) (h34 : 34 ≤ k.keylen + payload.length) :
    basketKey (rebuildRecord record k.keylen payload) =
      some { k with nbytes := (k.keylen + payload.length : Nat) } := by
  obtain ⟨hparse, hcls, -, -, hkl⟩ := basketKey_inv hk
  have hr : (record.take k.keylen ++ payload).length = k.keylen + payload.length := by
    rw [List.length_append, List.length_take]
    omega
  have hlen' : (rebuildRecord record k.keylen payload).length = k.keylen + payload.length := by
    unfold rebuildRecord
    rw [length_bePut (by omega), hr]
  have hbytes : ∀ j, 4 ≤ j → j < k.keylen →
      (rebuildRecord record k.keylen payload)[j]? = record[j]? := by
    intro j hj₁ hj₂
    unfold rebuildRecord
    rw [getElem?_bePut_apart (by omega) (by omega),
      List.getElem?_append_left (by rw [List.length_take]; omega), List.getElem?_take_of_lt hj₂]
  have htexts : 26 ≤ keyTexts k.ver := by
    unfold keyTexts
    split <;> omega
  have hnb : beGetInt (rebuildRecord record k.keylen payload) 0 4 =
      (k.keylen + payload.length : Nat) := by
    unfold rebuildRecord
    rw [hr]
    apply beGetInt_bePut <;> omega
  have hseek : (if keyWide k.ver then beGetInt (rebuildRecord record k.keylen payload) 18 8
      else beGetInt (rebuildRecord record k.keylen payload) 18 4) = k.seekkey := by
    have hi := parseKeyAt_inv hparse
    have hsk : k.seekkey = if keyWide k.ver then beGetInt record 18 8 else beGetInt record 18 4 := by
      simpa using hi.seekkey
    have hend : seekEnd k.ver ≤ k.keylen := by
      have := seekEnd_le_texts k.ver
      unfold KeyInfo.headerLen at hcov
      omega
    have hfield : ∀ n, 18 + n ≤ k.keylen →
        beGetInt (rebuildRecord record k.keylen payload) 18 n = beGetInt record 18 n := by
      intro n hn
      rw [beGetInt, beGetInt]
      congr 1
      apply beGet_congr
      intro j hj₁ hj₂
      exact hbytes j (by omega) (by omega)
    rw [hsk]
    unfold seekEnd at hend
    split at hend
    · rename_i hw
      rw [if_pos hw, if_pos hw, hfield 8 (by omega)]
    · rename_i hw
      rw [if_neg hw, if_neg hw, hfield 4 (by omega)]
  have hlocal := parseKeyAt_local hparse (by rw [hlen']; exact h34) (by
    intro j hj
    rw [List.drop_zero]
    apply hbytes
    · omega
    · unfold KeyInfo.headerLen at hcov hj
      omega)
  rw [hnb, hseek] at hlocal
  rw [basketKey, parseKey, List.drop_zero, hlocal, hlen']
  simp only [Option.filter, hcls, decide_true, Bool.true_and]
  rw [if_pos]
  simp only [Bool.and_eq_true, decide_eq_true_eq, and_true]
  omega

theorem length_rebuildRecord {record payload : Bytes} {keylen : Nat} (h4 : 4 ≤ keylen)
    (hle : keylen ≤ record.length) :
    (rebuildRecord record keylen payload).length = keylen + payload.length := by
  have hr : (record.take keylen ++ payload).length = keylen + payload.length := by
    rw [List.length_append, List.length_take]
    omega
  unfold rebuildRecord
  rw [length_bePut (by omega), hr]

theorem drop_rebuildRecord {record payload : Bytes} {keylen : Nat} (h4 : 4 ≤ keylen)
    (hle : keylen ≤ record.length) : (rebuildRecord record keylen payload).drop keylen = payload := by
  have hr : (record.take keylen ++ payload).length = keylen + payload.length := by
    rw [List.length_append, List.length_take]
    omega
  apply List.ext_getElem?
  intro j
  unfold rebuildRecord
  rw [List.getElem?_drop, getElem?_bePut_apart (by omega) (by omega),
    List.getElem?_append_right (by rw [List.length_take]; omega), List.length_take]
  congr 1
  omega

/-- What a record prepared for a slot keeps of the original. -/
structure SameBasket (D : Decoders) (record : Bytes) (slotLen : Nat) (out : Bytes) : Prop where
  length : out.length ≤ slotLen
  decode : decodeBasket D out = decodeBasket D record
  covers : Covers out

/-- A key that covers its header leaves room for everything the conversion touches. -/
theorem covers_keylen {record : Bytes} {k : KeyInfo} (hk : basketKey record = some k)
    (hcov : k.headerLen ≤ k.keylen) : 36 ≤ k.keylen := by
  have hcls := (basketKey_inv hk).2.1
  have htexts : 26 ≤ keyTexts k.ver := by
    unfold keyTexts
    split <;> omega
  have hlen : k.cls.length = 7 := by
    rw [hcls]
    decide
  unfold KeyInfo.headerLen at hcov
  omega

theorem sameBasket_rebuild {record payload : Bytes} {k : KeyInfo} {slotLen : Nat}
    (hk : basketKey record = some k) (hcov : k.headerLen ≤ k.keylen)
    (hfit : k.keylen + payload.length ≤ slotLen) (h32 : k.keylen + payload.length < 2 ^ 31)
    (hdec : decodeBasket D record = some (if k.objlen = payload.length then payload
      else decompressFrames D payload k.objlen.toNat))
    (hne : k.objlen ≠ payload.length → decompressFrames D payload k.objlen.toNat ≠ []) :
    SameBasket D record slotLen (rebuildRecord record k.keylen payload) := by
  have h36 := covers_keylen hk hcov
  obtain ⟨-, -, -, -, hkl⟩ := basketKey_inv hk
  have hkey := @basketKey_rebuild record k hk hcov payload (by omega) (by omega)
  refine ⟨?_, ?_, ?_⟩
  · rw [length_rebuildRecord (by omega) hkl]
    exact hfit
  · rw [hdec, decodeBasket, hkey]
    simp only [KeyInfo.storedRaw, drop_rebuildRecord (show 4 ≤ k.keylen by omega) hkl]
    have hsub : ((k.keylen + payload.length : Nat) : Int) - k.keylen = payload.length := by omega
    rw [hsub]
    by_cases hobj : k.objlen = payload.length
    · rw [if_pos (by simpa using hobj), if_pos hobj]
    · rw [if_neg (by simpa using hobj), if_neg hobj, if_neg (hne hobj)]
  · intro k' hk'
    rw [hkey] at hk'
    cases hk'
    exact hcov

/-- What a payload that replaces the original's was made from. -/
structure NewPayload (D : Decoders) (E : Encoder) (record : Bytes) (k : KeyInfo)
    (payload : Bytes) : Prop where
  encoded : k.storedRaw = false
  objlen : 0 < k.objlen
  decoded : decompressFrames D (record.drop k.keylen) k.objlen.toNat ≠ []
  made : payload = decompressFrames D (record.drop k.keylen) k.objlen.toNat ∨
    (payload = encodeZstdFrames E (decompressFrames D (record.drop k.keylen) k.objlen.toNat) 1 ∧
      payload ≠ [] ∧
      payload.length < (decompressFrames D (record.drop k.keylen) k.objlen.toNat).length)

/-- A converted record is the original, or its key with another payload that fits. -/
theorem convertBasket_cases {record : Bytes} {slotLen : Nat} {c : ConvertedBasket}
    (h : convertBasket D E record slotLen codecs = .ok c) :
    ∃ k, basketKey record = some k ∧ record.length ≤ slotLen ∧
      (c.record = record ∨ ∃ payload, c.record = rebuildRecord record k.keylen payload ∧
        k.keylen + payload.length ≤ slotLen ∧ NewPayload D E record k payload) := by
  unfold convertBasket at h
  split at h
  · cases h
  rename_i k hk
  split at h
  · cases h
  rename_i hlen
  refine ⟨k, hk, by omega, ?_⟩
  simp only at h
  split at h
  · cases h
    exact Or.inl rfl
  rename_i hraw
  split at h
  · cases h
    exact Or.inl rfl
  rename_i hobj
  simp only [Bool.or_eq_true, decide_eq_true_eq, not_or, not_le] at hobj
  split at h
  · cases h
    exact Or.inl rfl
  rename_i hne
  split at h
  · rename_i hz
    split at h
    · rename_i hfit
      cases h
      exact Or.inr ⟨_, rfl, hfit, by simpa using hraw, hobj.2, hne, Or.inr ⟨rfl, hz⟩⟩
    · cases h
      exact Or.inl rfl
  · split at h
    · rename_i hfit
      cases h
      exact Or.inr ⟨_, rfl, hfit, by simpa using hraw, hobj.2, hne, Or.inl rfl⟩
    · cases h
      exact Or.inl rfl

/-- The original with a new payload decodes to what the original decodes to. -/
theorem sameBasket_newPayload {record payload : Bytes} {k : KeyInfo} {slotLen : Nat}
    (hk : basketKey record = some k) (hcov : k.headerLen ≤ k.keylen)
    (hfit : k.keylen + payload.length ≤ slotLen) (h32 : k.keylen + payload.length < 2 ^ 31)
    (hundo : Undoes D E 1 (decompressFrames D (record.drop k.keylen) k.objlen.toNat))
    (hnew : NewPayload D E record k payload) :
    SameBasket D record slotLen (rebuildRecord record k.keylen payload) := by
  have hrawlen := decompressFrames_length hnew.decoded
  have hobj := hnew.objlen
  have hdec : decodeBasket D record =
      some (decompressFrames D (record.drop k.keylen) k.objlen.toNat) := by
    rw [decodeBasket, hk]
    simp only [hnew.encoded, if_neg hnew.decoded, Bool.false_eq_true, if_false]
  obtain hraw | ⟨hz, hzne, hzlen⟩ := hnew.made
  · apply sameBasket_rebuild hk hcov hfit h32
    · rw [hdec, if_pos (by rw [hraw]; omega), hraw]
    · intro hdiff
      exact absurd (by rw [hraw]; omega) hdiff
  · have hback := hundo (by rw [← hz]; exact hzne)
    rw [hrawlen, ← hz] at hback
    have hdiff : k.objlen ≠ payload.length := by omega
    apply sameBasket_rebuild hk hcov hfit h32
    · rw [hdec, if_neg hdiff, hback]
    · intro _
      rw [hback]
      exact hnew.decoded

/-- [SRC FillLayout.h:115-119] What is put in a slot decodes to the payload of the original. -/
theorem convertBasket_same {record : Bytes} {slotLen : Nat} {c : ConvertedBasket}
    (h : convertBasket D E record slotLen codecs = .ok c) (hslot : slotLen < 2 ^ 31)
    (hcover : Covers record) (hundo : ∀ k, basketKey record = some k →
      Undoes D E 1 (decompressFrames D (record.drop k.keylen) k.objlen.toNat)) :
    SameBasket D record slotLen c.record := by
  obtain ⟨k, hk, hlen, hsame | ⟨payload, hnew, hfit, hmade⟩⟩ := convertBasket_cases h
  · rw [hsame]
    exact ⟨hlen, rfl, hcover⟩
  · rw [hnew]
    exact sameBasket_newPayload hk (hcover k hk) hfit (by omega) (hundo k hk) hmade

end UCache
