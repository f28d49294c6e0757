/-
Module: UCache.Transpose.RNTupleParse
Purpose: The walk that finds the pages of a column-store file: from the container's header to its
  keys list, from there to the anchor, the envelopes it links, and every page record.
Trusted boundary: none
Main exports: ByteSource, ContainerMeta, parseContainer, ParsedFrom, parseRNTupleFrom_iff
-/
import UCache.Transpose.RNTupleLayout

namespace UCache

open Lib

/-! ### Where bytes come from -/

/-- [SRC TreeMeta.h:24-32] A file, or a cache's image of one: whether a range can be had at all, and
its bytes.  Both kinds of source refuse what is not inside the file. -/
structure ByteSource where
  size : Nat
  has : Nat → Nat → Bool
  read : Nat → Nat → Option Bytes
  has_le : ∀ off n, has off n = true → off + n ≤ size
  read_length : ∀ off n b, read off n = some b → b.length = n

/-- [SRC TreeMeta.cc:451-456] A range that the source vouches for. -/
def ByteSource.get (src : ByteSource) (off n : Nat) : Option Bytes :=
  if src.has off n then src.read off n else none

/-! ### The container -/

/-- [SRC TreeMeta.h:56-68] -/
structure ContainerMeta where
  large : Bool := false
  fend : Int := 0
  keyslistSeek : Int := 0
  dirSeekKeysOff : Nat := 0
  headerSeekWidth : Nat := 8
  dirSeekWidth : Nat := 8
  fileSize : Int := 0
  keys : List KeyInfo := []
deriving DecidableEq, Repr

/-- A text of the directory record: the position behind it.  A length byte of 255 says that the
length is in the four bytes that follow. -/
def skipString (head : Bytes) (pos : Nat) : Option Nat :=
  match head[pos]? with
  | none => none
  | some b =>
      if b = 255 then
        if head.length < pos + 1 + 4 then none
        else
          let len := beGet head (pos + 1) 4
          if head.length - (pos + 5) < len then none else some (pos + 5 + len)
      else if head.length - (pos + 1) < b.toNat then none
      else some (pos + 1 + b.toNat)

/-- The directory record behind its key: where it has the seek of the keys list, and at which
width. -/
def dirSeekKeys (head : Bytes) (keylen : Nat) : Option (Nat × Nat) := do
  let q₁ ← skipString head (100 + keylen)
  let q₂ ← skipString head q₁
  if head.length < q₂ + 2 then none
  else
    -- version, two dates, fNbytesKeys, fNbytesName, then fSeekDir and fSeekParent
    let width := if 1000 < beGet head q₂ 2 then 8 else 4
    let q := q₂ + 18 + width * 2
    if head.length < q + width then none else some (q, width)

/-- The keys of a keys list from `pos` on, until one cannot be read or advanced over. -/
def readKeys (buf : Bytes) : Nat → Nat → List KeyInfo
  | 0, _ => []
  | n + 1, pos =>
      match parseKey buf pos with
      | none => []
      | some e => if e.keylen < 29 then [e] else e :: readKeys buf n (pos + e.keylen)

/-- [SRC TreeMeta.cc:530-562] The keys list at `seek`. -/
def readKeysList (src : ByteSource) (fsz seek : Int) : Except String (List KeyInfo) :=
  let key :=
    if seek < 0 ∨ fsz ≤ seek then none
    else
      let n := min 4096 (fsz - seek).toNat
      if n < 34 then none else (src.get seek.toNat n).bind fun buf => parseKey buf 0
  match key with
  | none => .error "cannot read keys list"
  | some kl =>
      if kl.nbytes ≤ 0 ∨ kl.nbytes < kl.keylen + 4 ∨ fsz - seek < kl.nbytes then
        .error "keys-list key geometry implausible"
      else
        match src.get seek.toNat kl.nbytes.toNat with
        | none => .error "short keys list read"
        | some buf =>
            .ok (readKeys buf (beGetInt buf kl.keylen 4).toNat (kl.keylen + 4))

/-- [SRC TreeMeta.cc:459-564] From the header to the keys list. -/
def parseContainer (src : ByteSource) (fsz : Int) : Except String ContainerMeta :=
  let headLen := min fsz.toNat 512
  match if headLen < 20 then none else src.get 0 headLen with
  | none => .error "not a ROOT file"
  | some head =>
      if slice head 0 4 ≠ ascii "root" then .error "not a ROOT file"
      else
        let large := decide (1000000 < beGetInt head 4 4)
        match parseKey head 100 with
        | none => .error "no root directory key"
        | some dirKey =>
            match dirSeekKeys head dirKey.keylen with
            | none => .error "directory record out of bounds"
            | some (q, width) => do
                let seek := beGetInt head q width
                let keys ← readKeysList src fsz seek
                .ok
                  { large := large
                    fend := if large then beGetInt head 12 8 else beGetInt head 12 4
                    keyslistSeek := seek
                    dirSeekKeysOff := q
                    headerSeekWidth := if large then 8 else 4
                    dirSeekWidth := width
                    fileSize := fsz
                    keys := keys }

/-- [SRC TreeMeta.cc:566-585] The payload of a key, decompressed when the key says that it is
compressed; empty when it cannot be had. -/
def readKeyPayload (D : Decoders) (src : ByteSource) (k : KeyInfo) : Bytes :=
  if k.nbytes ≤ 0 ∨ k.nbytes < k.keylen ∨ k.objlen < 0 ∨ k.seekkey < 0 then []
  else
    match src.get k.seekkey.toNat k.nbytes.toNat with
    | none => []
    | some rec =>
        let out :=
          if k.objlen = k.nbytes - k.keylen then rec.drop k.keylen
          else decompressFrames D (rec.drop k.keylen) k.objlen.toNat
        if out.length ≠ k.objlen.toNat then [] else out

/-! ### Envelopes -/

/-- [SRC RNTupleMeta.cc:15-69] A cursor over bytes that refuses to run past them.  What has run past
them once fails. -/
structure LE where
  p : Bytes
  pos : Nat

/-- A walk of a cursor. -/
abbrev Walk : Type → Type := StateT LE Option

namespace Walk

def here : Walk Nat := fun c => some (c.pos, c)

def bytes (n : Nat) : Walk Bytes := fun c =>
  if c.p.length < c.pos + n then none
  else some (slice c.p c.pos n, { c with pos := c.pos + n })

/-- An unsigned integer of `n` bytes, least significant first. -/
def nat (n : Nat) : Walk Nat := do return ofLe (← bytes n)

def int (n : Nat) : Walk Int := do return signed n (← nat n)

/-- A 32-bit length, then the characters. -/
def text : Walk Bytes := do bytes (← nat 4)

def skip (n : Nat) : Walk Unit := do
  let _ ← bytes n

/-- The same walk `n` times. -/
def times {α : Type} : Nat → Walk α → Walk (List α)
  | 0, _ => pure []
  | n + 1, w => do
      let a ← w
      return a :: (← times n w)

end Walk

/-- [SRC RNTupleMeta.cc:78-86] -/
structure EnvelopeFrame where
  isList : Bool := false
  size : Nat
  items : Nat := 1
  start : Nat

/-- [SRC RNTupleMeta.cc:100-102] A frame has to advance, and to end inside the envelope. -/
def frameAt (f : EnvelopeFrame) : Walk EnvelopeFrame := fun c =>
  if f.size = 0 ∨ c.p.length < add64 f.start f.size then none else some (f, c)

/-- [SRC RNTupleMeta.cc:88-103] A positive size is a record's, a negative one a list's, whose item
count follows. -/
def readFrame : Walk EnvelopeFrame := do
  let start ← Walk.here
  let sz ← Walk.int 8
  if sz < 0 then do
    let items ← Walk.nat 4
    frameAt { isList := true, size := (-sz).toNat, items := items, start := start }
  else frameAt { size := sz.toNat, start := start }

def readList : Walk EnvelopeFrame := do
  let f ← readFrame
  if f.isList then return f else failure

/-- Both kinds of frame count from their start. -/
def leaveFrame (f : EnvelopeFrame) : Walk Unit := fun c =>
  if c.p.length < add64 f.start f.size then none
  else some ((), { c with pos := add64 f.start f.size })

/-- [SRC RNTupleMeta.cc:115-120] -/
def preadRange (src : ByteSource) (off len fileSize : Nat) : Bytes :=
  if len = 0 ∨ fileSize < off ∨ fileSize - off < len then [] else (src.get off len).getD []

/-- [SRC RNTupleMeta.cc:122-133] `nbytes` at `off`, inflated to `len` when the two differ. -/
def readEnvelope (D : Decoders) (src : ByteSource) (off nbytes len fileSize : Nat) : Bytes :=
  let raw := preadRange src off nbytes fileSize
  if raw = [] then []
  else if nbytes = len then raw
  else decompressFrames D raw len

def kEnvelopeHeader : Nat := 0x01

def kEnvelopeFooter : Nat := 0x02

def kEnvelopePageList : Nat := 0x03

/-- [SRC RNTupleMeta.cc:137-162] What is wrong with an envelope. -/
def verifyEnvelope (hash : Bytes → UInt64) (p : Bytes) (expectType : Nat) : Option String :=
  if p.length < 16 then some "envelope too short"
  else
    let word := ofLe (slice p 0 8)
    let type := word % 2 ^ 16
    let len := word / 2 ^ 16
    if type ≠ expectType then
      some ("envelope type 0x" ++ toString type ++ ", expected 0x" ++ toString expectType)
    else if len ≠ p.length then
      some ("envelope length " ++ toString len ++ " != " ++ toString p.length)
    else if (hash (p.take (p.length - 8))).toNat ≠ ofLe (slice p (p.length - 8) 8) then
      some "envelope checksum mismatch"
    else none

/-! ### The walk -/

/-- [SRC RNTupleMeta.cc:247-281] Name, writer and columns, behind the envelope's word and flags. -/
def headerWalk : Walk (Bytes × Bytes × List ColumnInfo) := do
  let name ← Walk.text
  let _ ← Walk.text
  let writer ← Walk.text
  let fl ← readList
  let fieldNames ← Walk.times fl.items do
    let r ← readFrame
    Walk.skip (4 + 4 + 4 + 2 + 2)
    let fieldName ← Walk.text
    leaveFrame r
    return fieldName
  let cl ← readList
  let columns ← Walk.times cl.items do
    let r ← readFrame
    let type ← Walk.nat 2
    let bits ← Walk.nat 2
    let fieldId ← Walk.nat 4
    leaveFrame r
    return ({ type := type
              bitsOnStorage := bits
              fieldId := fieldId
              fieldName := fieldNames.getD fieldId [] } : ColumnInfo)
  return (name, writer, columns)

/-- Where a cluster group's page list is, and where the footer says so. -/
structure GroupLink where
  len : Nat
  nbytes : Nat
  off : Nat
  locAt : Nat
deriving DecidableEq, Repr

/-- The cluster groups; nothing when one has an extended locator. -/
def groupLinks : Nat → Walk (Option (List GroupLink))
  | 0 => pure (some [])
  | n + 1 => do
      let r ← readFrame
      Walk.skip (8 + 8 + 4)
      let len ← Walk.nat 8
      let locAt ← Walk.here
      let nbytes ← Walk.int 4
      if nbytes < 0 then return none
      else do
        let off ← Walk.nat 8
        leaveFrame r
        let rest ← groupLinks n
        return rest.map (⟨len, nbytes.toNat, off, locAt⟩ :: ·)

/-- [SRC RNTupleMeta.cc:283-318] The schema extension is skipped. -/
def footerWalk : Walk (Option (List GroupLink)) := do
  Walk.skip 8
  let ext ← readFrame
  leaveFrame ext
  let gl ← readList
  groupLinks gl.items

/-- [SRC RNTupleMeta.cc:357-375] A page record.  A negative element count says that the page has a
checksum; a negative size is an extended locator. -/
def readPage (bits : Nat) : Walk PageInfo := do
  let recordOffset ← Walk.here
  let nElem ← Walk.int 4
  let size ← Walk.int 4
  if size < 0 then failure
  else do
    let offset ← Walk.nat 8
    let nElements := nElem.natAbs
    return { offset := offset
             nbytes := size.toNat
             nElements := nElements
             hasChecksum := decide (nElem < 0)
             uncompressedBytes := if bits = 0 then 0 else (nElements * bits + 7) / 8
             recordOffset := recordOffset % 2 ^ 32 }

/-- [SRC RNTupleMeta.cc:350-380] The pages of one column in one cluster. -/
def readRange (columns : List ColumnInfo) (cluster col : Nat) : Walk ColumnRange := do
  let pages ← readList
  let bits := ((columns[col]?).map ColumnInfo.bitsOnStorage).getD 0
  let infos ← Walk.times pages.items (readPage bits)
  Walk.skip 8
  let compressionOffset ← Walk.here
  let settings ← Walk.int 4
  return { clusterId := cluster
           columnId := col
           compressionSettings := settings
           compressionOffset := compressionOffset % 2 ^ 32
           pages := infos }

/-- `n` walks, each told its number. -/
def Walk.counted {α : Type} (w : Nat → Walk α) : Nat → Nat → Walk (List α)
  | _, 0 => pure []
  | i, n + 1 => do
      let a ← w i
      return a :: (← Walk.counted w (i + 1) n)

/-- [SRC RNTupleMeta.cc:332-383] Number of clusters and of entries, then the ranges. -/
def pageListWalk (columns : List ColumnInfo) : Walk (Nat × Nat × List ColumnRange) := do
  let sl ← readList
  let entries ← Walk.times sl.items do
    let r ← readFrame
    Walk.skip 8
    let n ← Walk.nat 8
    leaveFrame r
    return n
  let outer ← readList
  let ranges ← Walk.counted (fun cluster => do
    let cols ← readList
    Walk.counted (readRange columns cluster) 0 cols.items) 0 outer.items
  return (sl.items, entries.sum % 2 ^ 64, ranges.flatten)

/-- [SRC RNTupleMeta.cc:190-196] The anchor's key: of those with the highest cycle the last. -/
def anchorKey (ntuple : String) (keys : List KeyInfo) : KeyInfo :=
  keys.foldl (fun best e =>
    if e.cls = ascii "ROOT::RNTuple" ∧ (ntuple = "" ∨ e.name = ascii ntuple) ∧ best.cycle ≤ e.cycle
    then e else best) {}

/-- [SRC RNTupleMeta.cc:208-223] -/
def readAnchor (k : KeyInfo) (ap : Bytes) : RNTupleAnchor where
  versionEpoch := beGet ap 6 2
  versionMajor := beGet ap 8 2
  versionMinor := beGet ap 10 2
  versionPatch := beGet ap 12 2
  seekHeader := beGet ap 14 8
  nbytesHeader := beGet ap 22 8
  lenHeader := beGet ap 30 8
  seekFooter := beGet ap 38 8
  nbytesFooter := beGet ap 46 8
  lenFooter := beGet ap 54 8
  maxKeySize := beGet ap 62 8
  payloadLength := ap.length
  -- only where the key is stored uncompressed can the anchor be patched where it lies
  payloadOffset := if k.objlen = k.nbytes - k.keylen then k.seekkey.toNat + k.keylen else 0

/-- An error with the name of what it is about. -/
def orError (what : String) : Option String → Except String Unit
  | none => .ok ()
  | some why => .error (what ++ why)

/-- [SRC RNTupleMeta.cc:175-386] -/
def parseRNTupleFrom (D : Decoders) (hash : Bytes → UInt64) (src : ByteSource) (cm : ContainerMeta)
    (ntuple : String) : Except String RNTupleMeta := do
  let fsz := cm.fileSize.toNat
  let key := anchorKey ntuple cm.keys
  if key.nbytes = 0 then .error ("RNTuple '" ++ ntuple ++ "' not found in keys list")
  let ap := readKeyPayload D src key
  if ap.length < 78 then .error "anchor payload too short"
  let a := readAnchor key ap
  if (hash (slice ap 6 64)).toNat ≠ beGet ap 70 8 then .error "anchor checksum mismatch"
  let header := readEnvelope D src a.seekHeader a.nbytesHeader a.lenHeader fsz
  let footer := readEnvelope D src a.seekFooter a.nbytesFooter a.lenFooter fsz
  if header = [] ∨ footer = [] then .error "cannot read header/footer envelope"
  orError "header " (verifyEnvelope hash header kEnvelopeHeader)
  orError "footer " (verifyEnvelope hash footer kEnvelopeFooter)
  match headerWalk.run ⟨header, 16⟩ with
  | none => .error "header schema walk out of bounds"
  | some ((name, writer, columns), _) =>
      match footerWalk.run ⟨footer, 16⟩ with
      | none => .error "footer cluster-group walk out of bounds"
      | some (none, _) => .error "extended page-list locator unsupported"
      | some (some [], _) => .error "footer cluster-group walk out of bounds"
      | some (some (_ :: _ :: _), _) => .error "multiple cluster groups unsupported"
      | some (some [link], _) => do
          let pageList := readEnvelope D src link.off link.nbytes link.len fsz
          if pageList = [] then .error "cannot read page-list envelope"
          orError "page list " (verifyEnvelope hash pageList kEnvelopePageList)
          match (pageListWalk columns).run ⟨pageList, 16⟩ with
          | none => .error "page-list walk out of bounds"
          | some ((nClusters, nEntries, ranges), _) =>
              .ok
                { fileSize := fsz
                  fend := cm.fend
                  headerSeekWidth := cm.headerSeekWidth
                  ntupleName := name
                  writer := writer
                  anchor := a
                  columns := columns
                  ranges := ranges
                  nEntries := nEntries
                  nClusters := nClusters
                  header := header
                  footer := footer
                  pageList := pageList
                  pageListLocatorOffset := link.locAt % 2 ^ 32
                  pageListOffset := link.off
                  pageListNbytes := link.nbytes }

/-- [SRC RNTupleMeta.cc:406-408] -/
def parseRNTuple (D : Decoders) (hash : Bytes → UInt64) (src : ByteSource) (fileSize : Int)
    (ntuple : String) : Except String RNTupleMeta := do
  let cm ← parseContainer src fileSize
  parseRNTupleFrom D hash src cm ntuple

/-! ### What a parse went through -/

/-- An envelope that passed its check. -/
structure EnvelopeOk (hash : Bytes → UInt64) (p : Bytes) (expectType : Nat) : Prop where
  length : 16 ≤ p.length
  type : ofLe (slice p 0 8) % 2 ^ 16 = expectType
  size : ofLe (slice p 0 8) / 2 ^ 16 = p.length
  checksum : (hash (p.take (p.length - 8))).toNat = ofLe (slice p (p.length - 8) 8)

theorem verifyEnvelope_iff {hash : Bytes → UInt64} {p : Bytes} {expectType : Nat} :
    verifyEnvelope hash p expectType = none ↔ EnvelopeOk hash p expectType := by
  unfold verifyEnvelope
  constructor
  · intro h
    split at h
    · cases h
    simp only at h
    split at h
    · cases h
    split at h
    · cases h
    split at h
    · cases h
    · rename_i h1 h2 h3 h4
      exact ⟨by omega, by simpa using h2, by simpa using h3, by simpa using h4⟩
  · rintro ⟨h1, h2, h3, h4⟩
    rw [if_neg (by omega)]
    simp only [h2, h3, h4, ne_eq, not_true, if_false]

section Parsed

variable (D : Decoders) (hash : Bytes → UInt64) (src : ByteSource) (cm : ContainerMeta)
  (ntuple : String)

/-- What the anchor's key holds. -/
def anchorPayload : Bytes := readKeyPayload D src (anchorKey ntuple cm.keys)

/-- What the footer says of its page list. -/
structure LinkedList (m : RNTupleMeta) (link : GroupLink) : Prop where
  walk : ∃ c, footerWalk ⟨m.footer, 16⟩ = some (some [link], c)
  locator : m.pageListLocatorOffset = link.locAt % 2 ^ 32
  offset : m.pageListOffset = link.off
  nbytes : m.pageListNbytes = link.nbytes
  pageList : m.pageList = readEnvelope D src link.off link.nbytes link.len m.fileSize

/-- What a parse that succeeds has read, step by step. -/
structure ParsedFrom (m : RNTupleMeta) : Prop where
  fileSize : m.fileSize = cm.fileSize.toNat
  fend : m.fend = cm.fend
  headerSeekWidth : m.headerSeekWidth = cm.headerSeekWidth
  key : (anchorKey ntuple cm.keys).nbytes ≠ 0
  payload : 78 ≤ (anchorPayload D src cm ntuple).length
  anchor : m.anchor = readAnchor (anchorKey ntuple cm.keys) (anchorPayload D src cm ntuple)
  checksum : (hash (slice (anchorPayload D src cm ntuple) 6 64)).toNat =
    beGet (anchorPayload D src cm ntuple) 70 8
  header : m.header = readEnvelope D src m.anchor.seekHeader m.anchor.nbytesHeader
    m.anchor.lenHeader m.fileSize
  headerOk : EnvelopeOk hash m.header kEnvelopeHeader
  headerWalk : ∃ c, headerWalk ⟨m.header, 16⟩ = some ((m.ntupleName, m.writer, m.columns), c)
  footer : m.footer = readEnvelope D src m.anchor.seekFooter m.anchor.nbytesFooter
    m.anchor.lenFooter m.fileSize
  footerOk : EnvelopeOk hash m.footer kEnvelopeFooter
  link : ∃ link, LinkedList D src m link
  pageListOk : EnvelopeOk hash m.pageList kEnvelopePageList
  pageListWalk : ∃ c, pageListWalk m.columns ⟨m.pageList, 16⟩ =
    some ((m.nClusters, m.nEntries, m.ranges), c)

theorem EnvelopeOk.ne_nil {p : Bytes} {t : Nat} (h : EnvelopeOk hash p t) : p ≠ [] := by
  rintro rfl
  exact absurd h.length (by decide)

theorem orError_ok {what : String} {why : Option String} :
    orError what why = .ok () ↔ why = none := by
  cases why <;> simp [orError]

variable {D hash src cm ntuple}

/-- The parse succeeds exactly with what the buffers say. -/
theorem parseRNTupleFrom_iff {m : RNTupleMeta} :
    parseRNTupleFrom D hash src cm ntuple = .ok m ↔ ParsedFrom D hash src cm ntuple m := by
  constructor
  · intro h
    unfold parseRNTupleFrom at h
    simp only [bind, Except.bind] at h
    split at h
    · cases h
    rename_i hkey
    split at h
    · cases h
    rename_i hpayload
    split at h
    · cases h
    rename_i hsum
    split at h
    · cases h
    split at h
    · cases h
    rename_i hheaderOk
    split at h
    · cases h
    rename_i hfooterOk
    split at h
    · cases h
    rename_i name writer columns c₁ hheader
    split at h
    · cases h
    · cases h
    · cases h
    · cases h
    rename_i link c₂ hfooter
    split at h
    · cases h
    split at h
    · cases h
    rename_i hpageListOk
    split at h
    · cases h
    rename_i nClusters nEntries ranges c₃ hranges
    cases h
    exact
      { fileSize := rfl
        fend := rfl
        headerSeekWidth := rfl
        key := hkey
        payload := by simpa [anchorPayload] using hpayload
        anchor := rfl
        checksum := by simpa [anchorPayload] using hsum
        header := rfl
        headerOk := verifyEnvelope_iff.1 (orError_ok.1 hheaderOk)
        headerWalk := ⟨_, hheader⟩
        footer := rfl
        footerOk := verifyEnvelope_iff.1 (orError_ok.1 hfooterOk)
        link := ⟨link, ⟨⟨_, hfooter⟩, rfl, rfl, rfl, rfl⟩⟩
        pageListOk := verifyEnvelope_iff.1 (orError_ok.1 hpageListOk)
        pageListWalk := ⟨_, hranges⟩ }
  · intro h
    obtain ⟨link, hlink⟩ := h.link
    obtain ⟨c₁, hheader⟩ := h.headerWalk
    obtain ⟨c₂, hfooter⟩ := hlink.walk
    obtain ⟨c₃, hranges⟩ := h.pageListWalk
    have hpayload := h.payload
    have hsum := h.checksum
    have ha := h.anchor
    unfold anchorPayload at hpayload hsum ha
    unfold parseRNTupleFrom
    simp only [bind, Except.bind]
    rw [if_neg h.key, if_neg (by omega), if_neg (by simpa using hsum)]
    simp only [← ha, ← h.fileSize, ← h.header, ← h.footer]
    rw [if_neg (by simp [h.headerOk.ne_nil, h.footerOk.ne_nil]),
      verifyEnvelope_iff.2 h.headerOk, verifyEnvelope_iff.2 h.footerOk]
    simp only [orError, StateT.run, hheader, hfooter, ← hlink.pageList]
    rw [if_neg h.pageListOk.ne_nil, verifyEnvelope_iff.2 h.pageListOk]
    simp only [hranges, ← h.fend, ← h.headerSeekWidth, ← hlink.locator, ← hlink.offset,
      ← hlink.nbytes]

end Parsed

/-! ### What was read was in the file -/

variable {src : ByteSource}

theorem readEnvelope_inFile {D : Decoders} {off nbytes len fileSize : Nat}
    (h : readEnvelope D src off nbytes len fileSize ≠ []) : off + nbytes ≤ fileSize := by
  have hraw : preadRange src off nbytes fileSize ≠ [] := by
    intro hnil
    simp [readEnvelope, hnil] at h
  unfold preadRange at hraw
  split at hraw
  · exact absurd rfl hraw
  · omega

/-- The envelopes of a file that parses are inside it. -/
structure EnvelopesIn (m : RNTupleMeta) : Prop where
  header : m.anchor.seekHeader + m.anchor.nbytesHeader ≤ m.fileSize
  footer : m.anchor.seekFooter + m.anchor.nbytesFooter ≤ m.fileSize
  pageList : m.pageListOffset + m.pageListNbytes ≤ m.fileSize

theorem parseRNTupleFrom_inFile {D : Decoders} {hash : Bytes → UInt64} {cm : ContainerMeta}
    {ntuple : String} {m : RNTupleMeta} (h : parseRNTupleFrom D hash src cm ntuple = .ok m) :
    EnvelopesIn m ∧ m.fileSize = cm.fileSize.toNat := by
  have hp := parseRNTupleFrom_iff.1 h
  obtain ⟨link, hlink⟩ := hp.link
  have hheader := hp.headerOk.ne_nil
  have hfooter := hp.footerOk.ne_nil
  have hpageList := hp.pageListOk.ne_nil
  rw [hp.header] at hheader
  rw [hp.footer] at hfooter
  rw [hlink.pageList] at hpageList
  have hin := readEnvelope_inFile hpageList
  rw [← hlink.offset, ← hlink.nbytes] at hin
  exact ⟨⟨readEnvelope_inFile hheader, readEnvelope_inFile hfooter, hin⟩, hp.fileSize⟩

theorem parseContainer_fileSize {fsz : Int} {cm : ContainerMeta}
    (h : parseContainer src fsz = .ok cm) : cm.fileSize = fsz := by
  unfold parseContainer at h
  simp only [bind, Except.bind] at h
  split at h
  · cases h
  split at h
  · cases h
  split at h
  · cases h
  split at h
  · cases h
  split at h
  · cases h
  cases h
  rfl

theorem parseRNTuple_inFile {D : Decoders} {hash : Bytes → UInt64} {fileSize : Int}
    {ntuple : String} {m : RNTupleMeta} (h : parseRNTuple D hash src fileSize ntuple = .ok m) :
    EnvelopesIn m ∧ m.fileSize = fileSize.toNat := by
  unfold parseRNTuple at h
  simp only [bind, Except.bind] at h
  split at h
  · cases h
  · rename_i cm hcm
    obtain ⟨hin, hsize⟩ := parseRNTupleFrom_inFile h
    rw [parseContainer_fileSize hcm] at hsize
    exact ⟨hin, hsize⟩

end UCache
