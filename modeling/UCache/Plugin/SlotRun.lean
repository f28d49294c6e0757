/-
Module: UCache.Plugin.SlotRun
Purpose: How the slot run of a file is set up: the store that is found or made, and the layout the
  run then serves.
Trusted boundary: none
Main exports: AttachMode, SlotStoreHeader, SlotRun
-/
import UCache.Core.MetaFile
import UCache.Plugin.LayoutBlob

namespace UCache

open Lib

/-- [SRC ColdRun.h:52-56] How a slot run may be set up. -/
inductive AttachMode where
  /-- only from a store that exists and fits the file -/
  | existing
  /-- that, or a new store -/
  | create
  /-- only the layout this process already showed -/
  | matched
deriving DecidableEq, Repr

/-- [SRC SlotStore.h:46-63] The fields of a store's header that setting up a run reads. -/
structure SlotStoreHeader where
  layoutVersion : Nat := 0
  container : Nat := 0
  declined : Bool := false
  nSlots : Nat := 0
  originSize : Nat := 0
  originMtime : Nat := 0
  cksumKind : UInt8 := 0
  slotFactor100 : Nat := 0
  originCksum : Nat := 0
  virtualSize : Nat := 0
  layoutHash : UInt64 := 0
  codecs : String := ""
deriving DecidableEq, Repr

/-- An open store: its header and its layout blob, both as they were read. -/
structure OpenStore where
  header : SlotStoreHeader
  blob : Bytes
deriving DecidableEq, Repr

/-- What the handle was opened with. -/
structure SetupFile where
  key : String
  /-- which `FileEntry` of the process -/
  entry : Nat
  size : Nat
  mtime : Nat := 0
  cksumKind : UInt8 := 0
  cksum : Nat := 0
deriving DecidableEq, Repr

/-- [SRC ColdRun.cc:110-140] What a run is set up with, and how many handles are on it. -/
structure SlotRun where
  file : SetupFile
  layout : ColdLayout
  header : SlotStoreHeader
  slotFactor100 : Nat
  codecs : List String
  handles : Int := 0
deriving DecidableEq, Repr

/-- [SRC ColdRun.cc:2207] -/
def coldLayoutHash (cf : SlotRun) : UInt64 := cf.header.layoutHash

/-- The process's settings, and the functions that the layout goes through. -/
structure SetupCx where
  validate : ValidateMode
  recompressCodecs : List String
  encoder : Encoder
  decoders : Decoders
  xxh3 : Bytes → UInt64

def kSlotFactor100 : Nat := 300

def kLayoutVersion : Nat := 3

/-- [SRC ColdRun.cc:399-404] -/
def joinCodecs (v : List String) : String :=
  v.foldl (fun s c => s ++ (if s = "" then "" else ",") ++ c) ""

/-- [SRC ColdRun.cc:405-416] -/
def splitCodecs (s : String) : List String :=
  (s.splitOn ",").filter (· ≠ "")

/-- [SRC ColdRun.cc:371-395] Everything a reader could learn from the layout. -/
def layoutHashBytes (L : FillLayout) (rnt : Bool) : Bytes :=
  le 8 rnt.toNat ++ le 8 L.originSize ++ le 8 L.virtualSize ++ le 8 L.metaSeek ++
    le 8 L.slotsBegin ++ le 8 L.windows.length ++
    (L.windows.flatMap fun w => le 8 w.off ++ le 8 w.bytes.length ++ w.bytes) ++
    le 8 L.metaRecord.length ++ L.metaRecord ++ le 8 L.slots.length ++
    (L.slots.flatMap fun s => le 8 s.origSeek ++ le 8 s.vSeek ++ le 8 (s.origLen <<< 32 ||| s.vLen))

/-- [SRC ColdRun.cc:396] -/
def layoutHash (cx : SetupCx) (cf : ColdLayout) : UInt64 := cx.xxh3 (layoutHashBytes cf.L cf.rnt)

/-- [SRC ColdRun.cc:703-714] The replica tier's adoption rule. -/
def SlotStoreHeader.adoptable (cx : SetupCx) (h : SlotStoreHeader) (f : SetupFile) : Bool :=
  decide (h.layoutVersion = kLayoutVersion) && decide (h.originSize = f.size) &&
    !(decide (cx.validate = .sizeMtime) && decide (h.originMtime ≠ f.mtime)) &&
    !(decide (cx.validate = .cksum) && decide (f.cksumKind ≠ 0) &&
      (decide (h.cksumKind ≠ f.cksumKind) || decide (h.originCksum ≠ f.cksum)))

/-- [SRC ColdRun.cc:638-698] What `computeLayout` answers. -/
inductive LayoutAnswer where
  | ok (cf : ColdLayout)
  | declined
  | failed

/-- [SRC SlotStore.cc:198-274] What `openOrCreate` answers. -/
inductive CreateAnswer where
  | failed
  | found (s : OpenStore)
  | created

/-- What the disk and the origin answer while a run is set up. -/
structure BuildSeen where
  opened : Option OpenStore
  newer : Bool
  sidecar : Bool
  computed : Nat → List String → LayoutAnswer
  made : SlotStoreHeader → Bytes → CreateAnswer
  sidecarAfter : Bool

section Build

variable (cx : SetupCx) (f : SetupFile) (mode : AttachMode) (matchHash : UInt64)

/-- [SRC ColdRun.cc:743-763] The store that is there, judged: `none` declines the file, `some none`
goes on without a store. -/
def keptStore (opened : Option OpenStore) : Option (Option OpenStore) :=
  match opened with
  | none => some none
  | some s =>
      if kLayoutVersion < s.header.layoutVersion then none
      else if !s.header.adoptable cx f then some none
      else if s.header.declined then
        if mode ≠ .create ∨ s.header.codecs = joinCodecs cx.recompressCodecs then none
        else some none
      else if mode = .matched ∧ s.header.layoutHash ≠ matchHash then none
      else some (some s)

/-- [SRC ColdRun.cc:785-792, 799-802] The header of the store to be made. -/
def wantedHeader (factor : Nat) (codecs : List String) : Option ColdLayout → SlotStoreHeader
  | none =>
      { layoutVersion := kLayoutVersion, slotFactor100 := factor % 2 ^ 16
        codecs := joinCodecs codecs, originSize := f.size, originMtime := f.mtime
        cksumKind := f.cksumKind, originCksum := f.cksum, declined := true }
  | some cf =>
      { layoutVersion := kLayoutVersion, slotFactor100 := factor % 2 ^ 16
        codecs := joinCodecs codecs, originSize := f.size, originMtime := f.mtime
        cksumKind := f.cksumKind, originCksum := f.cksum, container := cf.rnt.toNat
        virtualSize := cf.L.virtualSize, nSlots := cf.L.slots.length % 2 ^ 32
        layoutHash := layoutHash cx cf }

/-- [SRC ColdRun.cc:840-851] A run over a store that somebody made before. -/
def storedRun (s : OpenStore) : Option SlotRun :=
  match decodeLayout cx.decoders s.header.slotFactor100 s.blob with
  | none => none
  | some cf =>
      if cf.L.slots.length ≠ s.header.nSlots ∨ cf.L.virtualSize ≠ s.header.virtualSize then none
      else
        some
          { file := f, layout := cf, header := s.header, slotFactor100 := s.header.slotFactor100
            codecs := splitCodecs s.header.codecs }

/-- [SRC ColdRun.cc:833-837] A store that somebody else made while the layout was computed. -/
def foundRun (s : OpenStore) : Option SlotRun :=
  if s.header.declined then none
  else if !s.header.adoptable cx f then none
  else if mode = .matched ∧ s.header.layoutHash ≠ matchHash then none
  else storedRun cx f s

/-- [SRC ColdRun.cc:803-832] The store is made; a replica published meanwhile takes it back. -/
def madeRun (factor : Nat) (codecs : List String) (cf : ColdLayout) (w : BuildSeen) :
    Option SlotRun :=
  let want := wantedHeader cx f factor codecs (some cf)
  if mode = .matched ∧ want.layoutHash ≠ matchHash then none
  else
    let blob := encodeLayout cx.encoder factor cf
    -- everyone after us serves what this blob decodes to
    if (decodeLayout cx.decoders factor blob).map (layoutHash cx) ≠ some want.layoutHash then none
    else
      match w.made want blob with
      | .failed => none
      | .found s => foundRun cx f mode matchHash s
      | .created =>
          if w.sidecarAfter then none
          else
            some { file := f, layout := cf, header := want, slotFactor100 := factor, codecs := codecs }

/-- [SRC ColdRun.cc:724-872] `params` are the slot factor and codecs of the slot layout that the
process showed, if it did. -/
def build (params : Option (Nat × String)) (w : BuildSeen) : Option SlotRun :=
  if f.size < 100 then none
  else
    match keptStore cx f mode matchHash w.opened with
    | none => none
    | some (some s) => storedRun cx f s
    | some none =>
        if mode = .existing ∨ w.newer then none
        else if w.sidecar then none
        else
          let shown := if mode = .matched then params else none
          let factor := (shown.map Prod.fst).getD kSlotFactor100
          let codecs := (shown.map fun p => splitCodecs p.2).getD cx.recompressCodecs
          match w.computed factor codecs with
          | .failed => none
          | .declined =>
              if mode ≠ .create then none
              else
                match w.made (wantedHeader cx f factor codecs none) [] with
                | .found s => foundRun cx f mode matchHash s
                -- a store of our own is a declined one
                | _ => none
          | .ok cf => madeRun cx f mode matchHash factor codecs cf w

variable {cx f mode matchHash}

theorem storedRun_inv {s : OpenStore} {run : SlotRun} (h : storedRun cx f s = some run) :
    run.header = s.header ∧ run.file = f := by
  unfold storedRun at h
  split at h
  · cases h
  · split at h
    · cases h
    · cases h
      exact ⟨rfl, rfl⟩

theorem keptStore_matched {o : Option OpenStore} {s : OpenStore}
    (h : keptStore cx f .matched matchHash o = some (some s)) : s.header.layoutHash = matchHash := by
  unfold keptStore at h
  split at h
  · cases h
  · split_ifs at h <;> simp_all

theorem foundRun_matched {s : OpenStore} {run : SlotRun}
    (h : foundRun cx f .matched matchHash s = some run) : coldLayoutHash run = matchHash := by
  unfold foundRun at h
  split_ifs at h with hd ha hm
  rw [coldLayoutHash, (storedRun_inv h).1]
  simpa using hm

theorem madeRun_matched {factor : Nat} {codecs : List String} {cf : ColdLayout} {w : BuildSeen}
    {run : SlotRun} (h : madeRun cx f .matched matchHash factor codecs cf w = some run) :
    coldLayoutHash run = matchHash := by
  unfold madeRun at h
  dsimp only at h
  split at h
  · cases h
  · rename_i hm
    split at h
    · cases h
    · split at h
      · cases h
      · exact foundRun_matched h
      · split at h
        · cases h
        · cases h
          simpa [coldLayoutHash] using hm

/-- A run set up to match has the layout it was to match. -/
theorem build_matched {params : Option (Nat × String)} {w : BuildSeen} {run : SlotRun}
    (h : build cx f .matched matchHash params w = some run) : coldLayoutHash run = matchHash := by
  unfold build at h
  split at h
  · cases h
  · split at h
    · cases h
    · rename_i s hs
      rw [coldLayoutHash, (storedRun_inv h).1]
      exact keptStore_matched hs
    · split at h
      · cases h
      · split at h
        · cases h
        · dsimp only at h
          split at h
          · cases h
          · simp at h
          · exact madeRun_matched h

end Build

end UCache
