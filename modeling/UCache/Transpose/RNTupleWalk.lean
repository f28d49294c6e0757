/-
Module: UCache.Transpose.RNTupleWalk
Purpose: The walk over the envelopes of a column-store file as the cursor makes it: a failure is noted
  and the walk goes on to its next check.  It comes to the same end as the walk that stops at its first
  failure, no read leaves the envelope that is walked over, and what is noted for later patches lies
  inside the page list.
Trusted boundary: none
Main exports: LECursor, LECursor.need, Shadows, scanRNTuple_eq, rntuple_parse_safe
-/
import UCache.Lib.Checked
import UCache.Transpose.RNTupleParse

namespace UCache

open Lib

/-! ### The cursor -/

/-- [SRC RNTupleMeta.cc:19-23] Where the cursor stands, and whether it has run past the bytes. -/
structure LECursor where
  pos : Nat := 16
  bad : Bool := false
deriving DecidableEq, Repr

/-- A walk of the cursor. -/
abbrev Scan (α : Type) : Type := Checked LECursor α

namespace LECursor

def position : Scan Nat := fun c => some (c.pos, c)

def isBad : Scan Bool := fun c => some (c.bad, c)

def spoil : Scan Unit := fun c => some ((), { c with bad := true })

def jump (pos : Nat) : Scan Unit := fun c => some ((), { c with pos := pos })

section Readers

variable (p : Bytes)

/-- `n` bytes at `pos`, as they lie. -/
def bytesAt (pos n : Nat) : Scan Bytes := fun c =>
  if p.length < pos + n then none else some (slice p pos n, c)

/-- [SRC RNTupleMeta.cc:25-31] -/
def need (k : Nat) : Scan Bool := fun c =>
  if c.bad = true ∨ p.length < k ∨ p.length - k < c.pos then some (false, { c with bad := true })
  else some (true, c)

/-- `n` bytes, and the cursor behind them; none when they are not there. -/
def take (n : Nat) : Scan Bytes := do
  let ok ← need p n
  if ok = true then do
    let here ← position
    let b ← bytesAt p here n
    jump (here + n)
    pure b
  else pure []

/-- [SRC RNTupleMeta.cc:32-51] An unsigned integer of `n` bytes. -/
def nat (n : Nat) : Scan Nat := do
  let b ← take p n
  pure (ofLe b)

def int (n : Nat) : Scan Int := do
  let v ← nat p n
  pure (signed n v)

/-- [SRC RNTupleMeta.cc:55-61] -/
def text : Scan Bytes := do
  let len ← nat p 4
  take p len

/-- [SRC RNTupleMeta.cc:62-68] -/
def skip (k : Nat) : Scan Unit := fun c =>
  if p.length < k ∨ p.length - k < c.pos then some ((), { c with bad := true })
  else some ((), { c with pos := c.pos + k })

/-- [SRC RNTupleMeta.cc:100-102] A frame has to advance, and to end inside the envelope. -/
def checkFrame (f : EnvelopeFrame) : Scan EnvelopeFrame :=
  if f.size = 0 ∨ p.length < add64 f.start f.size then do
    spoil
    pure f
  else pure f

/-- [SRC RNTupleMeta.cc:88-103] -/
def frame : Scan EnvelopeFrame := do
  let start ← position
  let sz ← int p 8
  if sz < 0 then do
    let items ← nat p 4
    checkFrame p { isList := true, size := (-sz).toNat, items := items, start := start }
  else checkFrame p { size := sz.toNat, start := start }

/-- A frame that has to be a list. -/
def list : Scan EnvelopeFrame := do
  let f ← frame p
  if f.isList = true then pure f
  else do
    spoil
    pure f

/-- On to the sibling of a frame. -/
def leave (f : EnvelopeFrame) : Scan Unit := do
  let next := add64 f.start f.size
  jump next
  if p.length < next then spoil else pure ()

end Readers

/-- `for (i = first; i < first + n && !bad; ++i)`. -/
def counted {α : Type} (body : Nat → Scan α) : Nat → Nat → Scan (List α)
  | _, 0 => pure []
  | i, n + 1 => do
      let bad ← isBad
      if bad = true then pure []
      else do
        let a ← body i
        let rest ← counted body (i + 1) n
        pure (a :: rest)

end LECursor

/-! ### The three envelopes -/

section Envelopes

open LECursor

variable (p : Bytes)

/-- [SRC RNTupleMeta.cc:257-262] -/
def fieldScan : Scan Bytes := do
  let r ← frame p
  LECursor.skip p (4 + 4 + 4 + 2 + 2)
  let name ← LECursor.text p
  leave p r
  pure name

/-- [SRC RNTupleMeta.cc:267-276] -/
def columnScan (fieldNames : List Bytes) : Scan ColumnInfo := do
  let r ← frame p
  let type ← LECursor.nat p 2
  let bits ← LECursor.nat p 2
  let fieldId ← LECursor.nat p 4
  leave p r
  pure
    { type := type
      bitsOnStorage := bits
      fieldId := fieldId
      fieldName := fieldNames.getD fieldId [] }

/-- [SRC RNTupleMeta.cc:247-281] -/
def headerScan : Scan (Bytes × Bytes × List ColumnInfo) := do
  let name ← LECursor.text p
  let _ ← LECursor.text p
  let writer ← LECursor.text p
  let fl ← LECursor.list p
  let fieldNames ← counted (fun _ => fieldScan p) 0 fl.items
  let cl ← LECursor.list p
  let columns ← counted (fun _ => columnScan p fieldNames) 0 cl.items
  pure (name, writer, columns)

/-- [SRC RNTupleMeta.cc:297-314] -/
def groupScan : Nat → Scan (Option (List GroupLink))
  | 0 => pure (some [])
  | n + 1 => do
      let bad ← isBad
      if bad = true then pure (some [])
      else do
        let r ← frame p
        LECursor.skip p (8 + 8 + 4)
        let len ← LECursor.nat p 8
        let locAt ← position
        let nbytes ← LECursor.int p 4
        let off ← LECursor.nat p 8
        if nbytes < 0 then pure none
        else do
          leave p r
          let rest ← groupScan n
          pure (rest.map (⟨len, nbytes.toNat, off, locAt⟩ :: ·))

/-- [SRC RNTupleMeta.cc:283-318] -/
def footerScan : Scan (Option (List GroupLink)) := do
  LECursor.skip p 8
  let ext ← frame p
  leave p ext
  let gl ← LECursor.list p
  groupScan p gl.items

/-- [SRC RNTupleMeta.cc:357-375] The page records of a range; an extended locator ends them. -/
def pagesScan (bits : Nat) : Nat → Scan (List PageInfo)
  | 0 => pure []
  | n + 1 => do
      let bad ← isBad
      if bad = true then pure []
      else do
        let recordOffset ← position
        let nElem ← LECursor.int p 4
        let size ← LECursor.int p 4
        if size < 0 then do
          spoil
          pure []
        else do
          let offset ← LECursor.nat p 8
          let rest ← pagesScan bits n
          pure
            ({ offset := offset
               nbytes := size.toNat
               nElements := nElem.natAbs
               hasChecksum := decide (nElem < 0)
               uncompressedBytes := if bits = 0 then 0 else (nElem.natAbs * bits + 7) / 8
               recordOffset := recordOffset % 2 ^ 32 } :: rest)

/-- [SRC RNTupleMeta.cc:350-380] -/
def rangeScan (columns : List ColumnInfo) (cluster col : Nat) : Scan ColumnRange := do
  let pages ← LECursor.list p
  let infos ← pagesScan p (((columns[col]?).map ColumnInfo.bitsOnStorage).getD 0) pages.items
  LECursor.skip p 8
  let compressionOffset ← position
  let settings ← LECursor.int p 4
  pure
    { clusterId := cluster
      columnId := col
      compressionSettings := settings
      compressionOffset := compressionOffset % 2 ^ 32
      pages := infos }

/-- [SRC RNTupleMeta.cc:347-381] -/
def clusterScan (columns : List ColumnInfo) (cluster : Nat) : Scan (List ColumnRange) := do
  let cols ← LECursor.list p
  counted (rangeScan p columns cluster) 0 cols.items

/-- [SRC RNTupleMeta.cc:338-343] -/
def summaryScan : Scan Nat := do
  let r ← frame p
  LECursor.skip p 8
  let entries ← LECursor.nat p 8
  leave p r
  pure entries

/-- [SRC RNTupleMeta.cc:332-383] -/
def pageListScan (columns : List ColumnInfo) : Scan (Nat × Nat × List ColumnRange) := do
  let sl ← LECursor.list p
  let entries ← counted (fun _ => summaryScan p) 0 sl.items
  let outer ← LECursor.list p
  let ranges ← counted (clusterScan p columns) 0 outer.items
  pure (sl.items, entries.sum % 2 ^ 64, ranges.flatten)

end Envelopes

/-! ### The parse -/

/-- Every one of these stretches, given by its start and length, lies in the bytes. -/
def stretchesIn (p : Bytes) (reads : List (Nat × Nat)) : Bool :=
  reads.all fun r => decide (r.1 + r.2 ≤ p.length)

/-- [SRC RNTupleMeta.cc:208-232] What is read of an anchor's payload. -/
def anchorReads : List (Nat × Nat) :=
  [(6, 2), (8, 2), (10, 2), (12, 2), (14, 8), (22, 8), (30, 8), (38, 8), (46, 8), (54, 8), (62, 8),
    (70, 8), (6, 64)]

/-- [SRC RNTupleMeta.cc:137-163] The checks of an envelope, where its reads are inside it. -/
def checkEnvelope (hash : Bytes → UInt64) (p : Bytes) (expectType : Nat) :
    Option (Option String) :=
  if p.length < 16 then some (verifyEnvelope hash p expectType)
  else if stretchesIn p [(0, 8), (p.length - 8, 8), (0, p.length - 8)] then
    some (verifyEnvelope hash p expectType)
  else none

/-- A scan of an envelope from behind its word and the eight bytes that follow: the result, or nothing
when the cursor ended up bad. -/
def scanFrom {α : Type} (w : Scan α) : Option (Option α) :=
  (w {}).map fun r => if r.2.bad = true then none else some r.1

section Parse

variable (D : Decoders) (hash : Bytes → UInt64) (src : ByteSource)

/-- [SRC RNTupleMeta.cc:323-386] From the page list on. -/
def scanPageList (m : RNTupleMeta) (link : GroupLink) : Option (Except String RNTupleMeta) :=
  let pageList := readEnvelope D src link.off link.nbytes link.len m.fileSize
  if pageList = [] then some (.error "cannot read page-list envelope")
  else
    (checkEnvelope hash pageList kEnvelopePageList).bind fun
      | some why => some (.error ("page list " ++ why))
      | none =>
        (scanFrom (pageListScan pageList m.columns)).bind fun
          | none => some (.error "page-list walk out of bounds")
          | some (nClusters, nEntries, ranges) =>
              some (.ok
                { m with
                  ranges := ranges
                  nEntries := nEntries
                  nClusters := nClusters
                  pageList := pageList
                  pageListLocatorOffset := link.locAt % 2 ^ 32
                  pageListOffset := link.off
                  pageListNbytes := link.nbytes })

/-- [SRC RNTupleMeta.cc:283-321] From the footer on. -/
def scanFooter (m : RNTupleMeta) : Option (Except String RNTupleMeta) :=
  (footerScan m.footer {}).bind fun
    | (none, _) => some (.error "extended page-list locator unsupported")
    | (some links, c) =>
        if c.bad = true then some (.error "footer cluster-group walk out of bounds")
        else
          match links with
          | [] => some (.error "footer cluster-group walk out of bounds")
          | [link] => scanPageList D hash src m link
          | _ :: _ :: _ => some (.error "multiple cluster groups unsupported")

/-- [SRC RNTupleMeta.cc:239-281] From the header on. -/
def scanEnvelopes (m : RNTupleMeta) : Option (Except String RNTupleMeta) :=
  (checkEnvelope hash m.header kEnvelopeHeader).bind fun
    | some why => some (.error ("header " ++ why))
    | none =>
      (checkEnvelope hash m.footer kEnvelopeFooter).bind fun
        | some why => some (.error ("footer " ++ why))
        | none =>
          (scanFrom (headerScan m.header)).bind fun
            | none => some (.error "header schema walk out of bounds")
            | some (name, writer, columns) =>
                scanFooter D hash src { m with ntupleName := name, writer := writer, columns := columns }

/-- [SRC RNTupleMeta.cc:175-386] Why a container is refused, or the column store in it.  No result when
a read leaves the bytes it is made in. -/
def scanRNTuple (cm : ContainerMeta) (ntuple : String) : Option (Except String RNTupleMeta) :=
  let fsz := cm.fileSize.toNat
  let key := anchorKey ntuple cm.keys
  if key.nbytes = 0 then some (.error ("RNTuple '" ++ ntuple ++ "' not found in keys list"))
  else
    let ap := readKeyPayload D src key
    if ap.length < 78 then some (.error "anchor payload too short")
    else if stretchesIn ap anchorReads = false then none
    else if (hash (slice ap 6 64)).toNat ≠ beGet ap 70 8 then some (.error "anchor checksum mismatch")
    else
      let a := readAnchor key ap
      let header := readEnvelope D src a.seekHeader a.nbytesHeader a.lenHeader fsz
      let footer := readEnvelope D src a.seekFooter a.nbytesFooter a.lenFooter fsz
      if header = [] ∨ footer = [] then some (.error "cannot read header/footer envelope")
      else
        scanEnvelopes D hash src
          { fileSize := fsz
            fend := cm.fend
            headerSeekWidth := cm.headerSeekWidth
            anchor := a
            header := header
            footer := footer }

end Parse

/-! ### What the cursor does -/

namespace LECursor

/-- Unless the walk has run past the bytes, the cursor's position has `R`. -/
abbrev GoodAt (R : Nat → Prop) : LECursor → Prop := Guarded (fun _ => True) bad fun c => R c.pos

/-- Every read of the walk is inside the bytes, and none makes good what has run past them. -/
abbrev KeepsBad {α : Type} (w : Scan α) : Prop := Sticky (fun _ => True) bad w

/-- As well, and unless the walk has run past the bytes what it gives has `F`. -/
abbrev Finds {α : Type} (w : Scan α) (F : α → Prop) : Prop := Provides (fun _ => True) bad w F

theorem position_spec {P : LECursor → Prop} :
    Meets P position fun here c => here = c.pos ∧ P c :=
  fun c hc => ⟨c.pos, c, rfl, rfl, hc⟩

theorem position_from {P : Prop} :
    Meets (GoodAt fun _ => P) position fun here => GoodAt fun pos => P ∧ pos = here := by
  rintro c ⟨-, hc⟩
  exact ⟨c.pos, c, rfl, trivial, fun hb => ⟨hc hb, rfl⟩⟩

theorem position_keeps : KeepsBad position := fun _ => position_spec.post fun _ _ h => h.2

theorem isBad_keeps : KeepsBad isBad := fun _ c hc => ⟨c.bad, c, rfl, hc⟩

theorem spoil_spec {P : LECursor → Prop} {R : Nat → Prop} : Meets P spoil fun _ => GoodAt R :=
  fun _ _ => ⟨(), _, rfl, trivial, fun h => absurd h (by simp)⟩

theorem spoil_keeps : KeepsBad spoil := fun R => spoil_spec (R := fun _ => R)

theorem jump_keeps (pos : Nat) : KeepsBad (jump pos) := fun _ _ hc => ⟨(), _, rfl, hc⟩

section Readers

variable (p : Bytes) {R : Nat → Prop}

theorem take_eq (n : Nat) (c : LECursor) :
    take p n c = if c.bad = true ∨ p.length < c.pos + n then some ([], { c with bad := true })
      else some (slice p c.pos n, { c with pos := c.pos + n }) := by
  have hthere : (p.length < n ∨ p.length - n < c.pos) ↔ p.length < c.pos + n := by omega
  show (need p n c).bind _ = _
  unfold need
  simp only [hthere]
  split
  · rfl
  · rename_i h
    have hread : bytesAt p c.pos n c = some (slice p c.pos n, c) := if_neg fun hout => h (.inr hout)
    show (bytesAt p c.pos n c).bind _ = _
    rw [hread]
    rfl

theorem take_spec (n : Nat) :
    Meets (GoodAt R) (take p n) fun _ =>
      GoodAt fun pos => ∃ old, R old ∧ pos = old + n ∧ pos ≤ p.length := by
  intro c hc
  rw [take_eq]
  split
  · exact ⟨[], _, rfl, trivial, fun h => absurd h (by simp)⟩
  · exact ⟨_, _, rfl, trivial, fun hgood => ⟨c.pos, hc.2 hgood, rfl, by simp only; omega⟩⟩

theorem take_keeps (n : Nat) : KeepsBad (take p n) :=
  fun R => (take_spec p (R := fun _ => R) n).post fun _ _ h => h.mono fun ⟨_, hr, _⟩ => hr

theorem nat_spec (n : Nat) :
    Meets (GoodAt R) (nat p n) fun _ =>
      GoodAt fun pos => ∃ old, R old ∧ pos = old + n ∧ pos ≤ p.length :=
  (take_spec p n).bind fun _ => Meets.pure fun _ h => h

theorem int_spec (n : Nat) :
    Meets (GoodAt R) (int p n) fun _ =>
      GoodAt fun pos => ∃ old, R old ∧ pos = old + n ∧ pos ≤ p.length :=
  (nat_spec p n).bind fun _ => Meets.pure fun _ h => h

/-- An integer read at a position that is known. -/
theorem int_from {P : Prop} (here n : Nat) :
    Meets (GoodAt fun pos => P ∧ pos = here) (int p n) fun _ =>
      GoodAt fun pos => (P ∧ here + n ≤ p.length) ∧ pos = here + n := by
  refine (int_spec p n).post fun _ c hc => hc.mono ?_
  rintro ⟨old, ⟨hP, rfl⟩, hpos, hle⟩
  exact ⟨⟨hP, by omega⟩, hpos⟩

theorem nat_from {P : Prop} (here n : Nat) :
    Meets (GoodAt fun pos => P ∧ pos = here) (nat p n) fun _ =>
      GoodAt fun pos => (P ∧ here + n ≤ p.length) ∧ pos = here + n := by
  refine (nat_spec p n).post fun _ c hc => hc.mono ?_
  rintro ⟨old, ⟨hP, rfl⟩, hpos, hle⟩
  exact ⟨⟨hP, by omega⟩, hpos⟩

theorem nat_keeps (n : Nat) : KeepsBad (nat p n) := (take_keeps p n).bind fun _ => Sticky.pure _

theorem int_keeps (n : Nat) : KeepsBad (int p n) := (nat_keeps p n).bind fun _ => Sticky.pure _

theorem skip_keeps (k : Nat) : KeepsBad (skip p k) := by
  intro R c hc
  unfold skip
  split
  · exact ⟨(), _, rfl, trivial, fun h => absurd h (by simp)⟩
  · exact ⟨(), _, rfl, hc⟩

theorem checkFrame_keeps (f : EnvelopeFrame) : KeepsBad (checkFrame p f) :=
  Sticky.ite (spoil_keeps.bind fun _ => Sticky.pure f) (Sticky.pure f)

theorem frame_keeps : KeepsBad (frame p) :=
  position_keeps.bind fun _ => (int_keeps p 8).bind fun _ =>
    Sticky.ite ((nat_keeps p 4).bind fun _ => checkFrame_keeps p _) (checkFrame_keeps p _)

theorem list_keeps : KeepsBad (list p) :=
  (frame_keeps p).bind fun f =>
    Sticky.ite (Sticky.pure f) (spoil_keeps.bind fun _ => Sticky.pure f)

theorem leave_keeps (f : EnvelopeFrame) : KeepsBad (leave p f) :=
  (jump_keeps _).bind fun _ => Sticky.ite spoil_keeps (Sticky.pure ())

end Readers

theorem counted_gives {α : Type} {body : Nat → Scan α} {F : α → Prop}
    (hbody : ∀ i, Finds (body i) F) (i n : Nat) :
    Finds (counted body i n) fun as => ∀ a ∈ as, F a := by
  induction n generalizing i with
  | zero => exact Provides.pure (by simp)
  | succ n ih =>
      refine isBad_keeps.provides.bind fun bad => Provides.ite (Provides.pure (by simp)) ?_
      refine (hbody i).bind fun a => (ih (i + 1)).bind fun rest => Provides.pure ?_
      intro hrest ha _ b hb
      cases hb with
      | head => exact ha
      | tail _ hb => exact hrest b hb

theorem counted_keeps {α : Type} {body : Nat → Scan α} (hbody : ∀ i, KeepsBad (body i)) (i n : Nat) :
    KeepsBad (counted body i n) :=
  (counted_gives (fun i => (hbody i).provides) i n).sticky

end LECursor

/-! ### The walk that stops at its first failure -/

/-- What the walk that stops has of a scan's end: nothing when a failure is noted. -/
def stopped {α : Type} (p : Bytes) (r : α × LECursor) : Option (α × LE) :=
  if r.2.bad = true then none else some (r.1, ⟨p, r.2.pos⟩)

/-- The scan undoes no failure, and up to its first one it is the walk that stops there. -/
structure Shadows {α : Type} (p : Bytes) (w : Scan α) (v : Walk α) : Prop where
  keeps : LECursor.KeepsBad w
  stops : ∀ pos, v ⟨p, pos⟩ = (w ⟨pos, false⟩).bind (stopped p)

/-- A scan comes to its end, and to a bad one from where it has run past the bytes. -/
theorem LECursor.KeepsBad.run {α : Type} {w : Scan α} (hw : KeepsBad w) (c : LECursor) :
    ∃ a c', w c = some (a, c') ∧ (c.bad = true → c'.bad = true) := by
  obtain ⟨a, c', hrun, -, hbad⟩ := hw (c.bad = false) c ⟨trivial, id⟩
  refine ⟨a, c', hrun, fun hc => ?_⟩
  by_contra hgood
  exact absurd (hc.symm.trans (hbad (Bool.eq_false_iff.2 hgood))) (by simp)

namespace Shadows

variable {α β : Type} {p : Bytes} {w w' : Scan α} {v v' : Walk α}

protected theorem pure (a : α) : Shadows p (pure a) (pure a) := ⟨Sticky.pure a, fun _ => rfl⟩

protected theorem bind {f : α → Scan β} {g : α → Walk β} (hw : Shadows p w v)
    (hf : ∀ a, Shadows p (f a) (g a)) : Shadows p (w >>= f) (v >>= g) where
  keeps := hw.keeps.bind fun a => (hf a).keeps
  stops pos := by
    obtain ⟨a, ⟨pos', bad⟩, hrun, -⟩ := hw.keeps.run ⟨pos, false⟩
    show (v ⟨p, pos⟩).bind (fun x => g x.1 x.2) =
      ((w ⟨pos, false⟩).bind fun x => f x.1 x.2).bind (stopped p)
    rw [hw.stops, hrun]
    cases bad with
    | false => exact (hf a).stops pos'
    | true =>
        -- what follows a failure ends bad as well
        obtain ⟨b, c, hrun', hbad⟩ := (hf a).keeps.run ⟨pos', true⟩
        show none = (f a ⟨pos', true⟩).bind (stopped p)
        rw [hrun']
        exact (if_pos (hbad rfl)).symm

protected theorem ite {c : Prop} [Decidable c] (h : Shadows p w v) (h' : Shadows p w' v') :
    Shadows p (if c then w else w') (if c then v else v') := by
  split
  · exact h
  · exact h'

/-- Where the one notes a failure, the other stops. -/
theorem spoil (a : α) : Shadows p (LECursor.spoil >>= fun _ => pure a) failure :=
  ⟨LECursor.spoil_keeps.bind fun _ => Sticky.pure a, fun _ => rfl⟩

/-- A loop asks whether the walk is bad before each turn. -/
theorem asks (h : Shadows p w v) (a : α) :
    Shadows p (LECursor.isBad >>= fun bad => if bad = true then pure a else w) v :=
  ⟨LECursor.isBad_keeps.bind fun _ => Sticky.ite (Sticky.pure a) h.keeps, h.stops⟩

end Shadows

namespace LECursor

section Readers

variable (p : Bytes)

theorem position_shadows : Shadows p position Walk.here := ⟨position_keeps, fun _ => rfl⟩

theorem take_shadows (n : Nat) : Shadows p (take p n) (Walk.bytes n) := by
  refine ⟨take_keeps p n, fun pos => ?_⟩
  rw [take_eq]
  unfold Walk.bytes
  by_cases h : p.length < pos + n
  · rw [if_pos h, if_pos (.inr h)]
    rfl
  · rw [if_neg h, if_neg (by simpa using h)]
    rfl

theorem nat_shadows (n : Nat) : Shadows p (nat p n) (Walk.nat n) :=
  (take_shadows p n).bind fun _ => .pure _

theorem int_shadows (n : Nat) : Shadows p (int p n) (Walk.int n) :=
  (nat_shadows p n).bind fun _ => .pure _

theorem text_shadows : Shadows p (text p) Walk.text :=
  (nat_shadows p 4).bind fun len => take_shadows p len

theorem skip_shadows (k : Nat) : Shadows p (skip p k) (Walk.skip k) := by
  refine ⟨skip_keeps p k, fun pos => ?_⟩
  show (Walk.bytes k ⟨p, pos⟩).bind _ = _
  have hgone : (p.length < k ∨ p.length - k < pos) ↔ p.length < pos + k := by omega
  unfold skip Walk.bytes
  simp only [hgone]
  split
  · rfl
  · rfl

theorem checkFrame_shadows (f : EnvelopeFrame) : Shadows p (checkFrame p f) (frameAt f) := by
  refine ⟨checkFrame_keeps p f, fun pos => ?_⟩
  unfold checkFrame frameAt
  split
  · rfl
  · rfl

theorem frame_shadows : Shadows p (frame p) readFrame :=
  (position_shadows p).bind fun _ => (int_shadows p 8).bind fun _ =>
    .ite ((nat_shadows p 4).bind fun _ => checkFrame_shadows p _) (checkFrame_shadows p _)

theorem list_shadows : Shadows p (list p) readList :=
  (frame_shadows p).bind fun f => .ite (.pure f) (.spoil f)

theorem leave_shadows (f : EnvelopeFrame) : Shadows p (leave p f) (leaveFrame f) := by
  refine ⟨leave_keeps p f, fun pos => ?_⟩
  show leaveFrame f ⟨p, pos⟩ =
    ((if p.length < add64 f.start f.size then spoil else pure ()) ⟨_, false⟩).bind (stopped p)
  unfold leaveFrame
  split
  · rfl
  · rfl

variable {p}

theorem counted_shadows {α : Type} {body : Nat → Scan α} {walk : Nat → Walk α}
    (hbody : ∀ i, Shadows p (body i) (walk i)) (i n : Nat) :
    Shadows p (counted body i n) (Walk.counted walk i n) := by
  induction n generalizing i with
  | zero => exact .pure []
  | succ n ih => exact .asks ((hbody i).bind fun _ => (ih (i + 1)).bind fun _ => .pure _) []

theorem times_eq_counted {α : Type} (w : Walk α) (i n : Nat) :
    Walk.times n w = Walk.counted (fun _ => w) i n := by
  induction n generalizing i with
  | zero => rfl
  | succ n ih =>
      show (w >>= fun a => Walk.times n w >>= fun as => pure (a :: as)) = _
      rw [ih (i + 1)]
      rfl

end Readers

end LECursor

section Envelopes

open LECursor

variable (p : Bytes)

theorem headerScan_shadows : Shadows p (headerScan p) headerWalk := by
  unfold headerWalk
  simp only [times_eq_counted _ 0]
  refine (text_shadows p).bind fun name => (text_shadows p).bind fun _ => ?_
  refine (text_shadows p).bind fun writer => (list_shadows p).bind fun fl => ?_
  refine (counted_shadows (fun _ => ?_) 0 fl.items).bind fun fieldNames => ?_
  · exact (frame_shadows p).bind fun r => (skip_shadows p _).bind fun _ =>
      (text_shadows p).bind fun _ => (leave_shadows p r).bind fun _ => .pure _
  refine (list_shadows p).bind fun cl => ?_
  refine (counted_shadows (fun _ => ?_) 0 cl.items).bind fun columns => .pure _
  exact (frame_shadows p).bind fun r => (nat_shadows p 2).bind fun _ => (nat_shadows p 2).bind
    fun _ => (nat_shadows p 4).bind fun _ => (leave_shadows p r).bind fun _ => .pure _

theorem pagesScan_shadows (bits n : Nat) :
    Shadows p (pagesScan p bits n) (Walk.times n (readPage bits)) := by
  induction n with
  | zero => exact .pure []
  | succ n ih =>
      refine .asks ?_ []
      show Shadows p _ (readPage bits >>= fun a => Walk.times n (readPage bits) >>= fun as =>
        pure (a :: as))
      unfold readPage
      simp only [bind_assoc]
      refine (position_shadows p).bind fun here => (int_shadows p 4).bind fun nElem => ?_
      refine (int_shadows p 4).bind fun size => ?_
      by_cases h : size < 0
      · simp only [if_pos h]
        exact .spoil []
      · simp only [if_neg h, bind_assoc, pure_bind]
        exact (nat_shadows p 8).bind fun offset => ih.bind fun rest => .pure _

theorem rangeScan_shadows (columns : List ColumnInfo) (cluster col : Nat) :
    Shadows p (rangeScan p columns cluster col) (readRange columns cluster col) :=
  (list_shadows p).bind fun _ => (pagesScan_shadows p _ _).bind fun _ => (skip_shadows p 8).bind
    fun _ => (position_shadows p).bind fun _ => (int_shadows p 4).bind fun _ => .pure _

theorem summaryScan_shadows :
    Shadows p (summaryScan p)
      (readFrame >>= fun r => Walk.skip 8 >>= fun _ => Walk.nat 8 >>= fun n =>
        leaveFrame r >>= fun _ => pure n) :=
  (frame_shadows p).bind fun r => (skip_shadows p 8).bind fun _ => (nat_shadows p 8).bind fun _ =>
    (leave_shadows p r).bind fun _ => .pure _

theorem pageListScan_shadows (columns : List ColumnInfo) :
    Shadows p (pageListScan p columns) (pageListWalk columns) := by
  unfold pageListWalk
  simp only [times_eq_counted _ 0]
  refine (list_shadows p).bind fun sl => ?_
  refine (counted_shadows (fun _ => summaryScan_shadows p) 0 sl.items).bind fun entries => ?_
  refine (list_shadows p).bind fun outer => ?_
  refine (counted_shadows (fun cluster => ?_) 0 outer.items).bind fun ranges => .pure _
  exact (list_shadows p).bind fun cols =>
    counted_shadows (rangeScan_shadows p columns cluster) 0 cols.items

/-! #### The cluster groups -/

/-- What a scan of the cluster groups says: of an extended locator also where it notes a failure. -/
def groupsFound (r : Option (List GroupLink) × LECursor) : Option (Option (List GroupLink)) :=
  if r.1.isSome = true ∧ r.2.bad = true then none else some r.1

/-- A scan of cluster groups says what the walk that stops says, and nothing from where a failure is
noted. -/
structure FindsGroups (w : Scan (Option (List GroupLink))) (v : Walk (Option (List GroupLink))) :
    Prop where
  silent : ∀ c, c.bad = true → (w c).bind groupsFound = none
  found : ∀ pos, (v ⟨p, pos⟩).map Prod.fst = (w ⟨pos, false⟩).bind groupsFound

namespace FindsGroups

variable {p} {α : Type} {f : α → Scan (Option (List GroupLink))}
  {g : α → Walk (Option (List GroupLink))} {w : Scan α} {v : Walk α}

theorem after (hw : Shadows p w v)
    (hbad : ∀ c a c', w c = some (a, c') → c'.bad = true → (f a c').bind groupsFound = none)
    (hgood : ∀ a pos, (g a ⟨p, pos⟩).map Prod.fst = (f a ⟨pos, false⟩).bind groupsFound) :
    FindsGroups p (w >>= f) (v >>= g) where
  silent c hc := by
    obtain ⟨a, c', hrun, hbad'⟩ := hw.keeps.run c
    show ((w c).bind fun x => f x.1 x.2).bind groupsFound = none
    rw [hrun]
    exact hbad c a c' hrun (hbad' hc)
  found pos := by
    obtain ⟨a, ⟨pos', bad⟩, hrun, -⟩ := hw.keeps.run ⟨pos, false⟩
    show ((v ⟨p, pos⟩).bind fun x => g x.1 x.2).map Prod.fst =
      ((w ⟨pos, false⟩).bind fun x => f x.1 x.2).bind groupsFound
    rw [hw.stops, hrun]
    cases bad with
    | false => exact hgood a pos'
    | true => exact (hbad _ a _ hrun rfl).symm

protected theorem bind (hw : Shadows p w v) (hf : ∀ a, FindsGroups p (f a) (g a)) :
    FindsGroups p (w >>= f) (v >>= g) :=
  after hw (fun _ a c' _ => (hf a).silent c') fun a => (hf a).found

/-- A scan that asks whether the walk is bad, and has no more groups then. -/
theorem asks {w : Scan (Option (List GroupLink))} {v : Walk (Option (List GroupLink))}
    (h : FindsGroups p w v) :
    FindsGroups p (isBad >>= fun bad => if bad = true then pure (some []) else w) v where
  silent c hc := by
    show ((if c.bad = true then (pure (some []) : Scan _) else w) c).bind groupsFound = none
    rw [if_pos hc]
    exact if_pos ⟨rfl, hc⟩
  found := h.found

/-- One more group in front of those that follow. -/
theorem cons {w : Scan (Option (List GroupLink))} {v : Walk (Option (List GroupLink))}
    (h : FindsGroups p w v) (link : GroupLink) :
    FindsGroups p (w >>= fun rest => pure (rest.map (link :: ·)))
      (v >>= fun rest => pure (rest.map (link :: ·))) := by
  have hscan (c : LECursor) : ((w >>= fun rest => pure (rest.map (link :: ·))) c).bind groupsFound =
      ((w c).bind groupsFound).map (Option.map (link :: ·)) := by
    show ((w c).bind fun x => some (x.1.map (link :: ·), x.2)).bind groupsFound = _
    rcases w c with _ | ⟨rest, c'⟩
    · rfl
    · simp only [Option.bind_some, groupsFound, Option.isSome_map]
      split
      · rfl
      · rfl
  refine ⟨fun c hc => by rw [hscan, h.silent c hc]; rfl, fun pos => ?_⟩
  rw [hscan, ← h.found]
  show ((v ⟨p, pos⟩).bind fun x => some (x.1.map (link :: ·), x.2)).map Prod.fst = _
  rcases v ⟨p, pos⟩ with _ | ⟨rest, c⟩
  · rfl
  · rfl

end FindsGroups

/-- Where a failure is noted an integer is read as zero. -/
theorem int_bad {n : Nat} {c c' : LECursor} {a : Int} (h : int p n c = some (a, c'))
    (hbad : c'.bad = true) : a = 0 := by
  change ((take p n c).bind fun r => some (ofLe r.1, r.2)).bind
    (fun r => some (signed n r.1, r.2)) = some (a, c') at h
  rw [take_eq] at h
  split at h
  · cases h
    show signed n 0 = 0
    simp [signed]
  · rename_i hgood
    cases h
    exact absurd (.inl hbad) hgood

theorem groupScan_finds (n : Nat) : FindsGroups p (groupScan p n) (groupLinks n) := by
  induction n with
  | zero => exact ⟨fun c hc => if_pos ⟨rfl, hc⟩, fun _ => rfl⟩
  | succ n ih =>
      refine .asks ?_
      refine .bind (frame_shadows p) fun r => .bind (skip_shadows p _) fun _ => ?_
      refine .bind (nat_shadows p 8) fun len => .bind (position_shadows p) fun locAt => ?_
      -- an extended locator is told by its size, whatever is behind it
      have hlink (nbytes : Int) := FindsGroups.bind (nat_shadows p 8) fun off =>
        .bind (leave_shadows p r) fun _ => ih.cons ⟨len, nbytes.toNat, off, locAt⟩
      refine .after (int_shadows p 4) (fun c nbytes c' hrun hc => ?_) fun nbytes pos => ?_
      · simp only [int_bad p hrun hc, lt_irrefl, if_false]
        exact (hlink 0).silent c' hc
      by_cases hneg : nbytes < 0
      · obtain ⟨off, c, hrun, -⟩ := (nat_keeps p 8).run ⟨pos, false⟩
        simp only [if_pos hneg]
        show some none = ((LECursor.nat p 8 ⟨pos, false⟩).bind _).bind groupsFound
        rw [hrun]
        rfl
      · simp only [if_neg hneg]
        exact (hlink nbytes).found pos

theorem footerScan_finds : FindsGroups p (footerScan p) footerWalk :=
  .bind (skip_shadows p 8) fun _ => .bind (frame_shadows p) fun ext =>
    .bind (leave_shadows p ext) fun _ => .bind (list_shadows p) fun gl => groupScan_finds p gl.items

end Envelopes


/-! ### Every scan is inside its envelope -/

section Envelopes

open LECursor

variable (p : Bytes)

theorem groupScan_keeps (n : Nat) : KeepsBad (groupScan p n) := by
  induction n with
  | zero => exact Sticky.pure _
  | succ n ih =>
      refine isBad_keeps.bind fun bad => Sticky.ite (Sticky.pure _) ?_
      refine (frame_keeps p).bind fun r => (skip_keeps p _).bind fun _ => ?_
      refine (nat_keeps p 8).bind fun len => position_keeps.bind fun locAt => ?_
      refine (int_keeps p 4).bind fun nbytes => (nat_keeps p 8).bind fun off => ?_
      exact Sticky.ite (Sticky.pure _) <| (leave_keeps p r).bind fun _ => ih.bind fun rest =>
        Sticky.pure _

theorem footerScan_keeps : KeepsBad (footerScan p) :=
  (skip_keeps p 8).bind fun _ => (frame_keeps p).bind fun ext => (leave_keeps p ext).bind fun _ =>
    (list_keeps p).bind fun gl => groupScan_keeps p gl.items

/-- Sixteen bytes behind where a page's record begins the page list is not over yet. -/
theorem pagesScan_gives (bits n : Nat) :
    Finds (pagesScan p bits n) fun pages => ∀ pg ∈ pages, pg.recordOffset + 16 ≤ p.length := by
  induction n with
  | zero => exact Provides.pure (by simp)
  | succ n ih =>
      refine isBad_keeps.provides.bind fun bad => Provides.ite (Provides.pure (by simp)) ?_
      intro R
      refine position_from.bind fun here => (int_from p here 4).bind fun nElem => ?_
      refine (int_from p (here + 4) 4).bind fun size => Meets.ite (fun _ => ?_) fun _ => ?_
      · exact (spoil_spec (R := fun _ => False)).bind fun _ => Meets.pure fun c hc =>
          hc.mono False.elim
      · refine (nat_from p (here + 4 + 4) 8).bind fun offset => ?_
        refine ((ih _).pre fun c hc => hc.mono And.left).bind fun rest => Meets.pure fun c hc => ?_
        refine hc.mono fun ⟨⟨⟨⟨hR, _⟩, _⟩, hend⟩, hrest⟩ => ⟨hR, fun _ pg hpg => ?_⟩
        have hwrap : here % 2 ^ 32 ≤ here := Nat.mod_le _ _
        cases hpg with
        | head => show here % 2 ^ 32 + 16 ≤ p.length; omega
        | tail _ hpg => exact hrest pg hpg

/-- The places that are noted for the patches of a range lie inside a page list. -/
def RangeInside (rg : ColumnRange) : Prop :=
  rg.compressionOffset + 4 ≤ p.length ∧ ∀ pg ∈ rg.pages, pg.recordOffset + 16 ≤ p.length

theorem rangeScan_gives (columns : List ColumnInfo) (cluster col : Nat) :
    Finds (rangeScan p columns cluster col) (RangeInside p) := by
  refine (list_keeps p).provides.bind fun pages => ?_
  refine (pagesScan_gives p _ pages.items).bind fun infos => ?_
  refine (skip_keeps p 8).provides.bind fun _ => ?_
  intro R
  refine position_from.bind fun here => (int_from p here 4).bind fun settings => ?_
  refine Meets.pure fun c hc => hc.mono fun ⟨⟨hR, hend⟩, _⟩ => ⟨hR, fun _ hinfos _ => ⟨?_, hinfos⟩⟩
  have hwrap : here % 2 ^ 32 ≤ here := Nat.mod_le _ _
  show here % 2 ^ 32 + 4 ≤ p.length
  omega

theorem clusterScan_gives (columns : List ColumnInfo) (cluster : Nat) :
    Finds (clusterScan p columns cluster) fun ranges => ∀ rg ∈ ranges, RangeInside p rg :=
  (list_keeps p).provides.bind fun cols =>
    (counted_gives (rangeScan_gives p columns cluster) 0 cols.items).mono fun _ h _ => h

theorem pageListScan_gives (columns : List ColumnInfo) :
    Finds (pageListScan p columns) fun r => ∀ rg ∈ r.2.2, RangeInside p rg := by
  refine (list_keeps p).provides.bind fun sl => ?_
  refine (counted_keeps (fun _ => (summaryScan_shadows p).keeps) 0 sl.items).provides.bind
    fun entries => ?_
  refine (list_keeps p).provides.bind fun outer => ?_
  refine (counted_gives (clusterScan_gives p columns) 0 outer.items).bind fun ranges => ?_
  refine Provides.pure fun hranges _ _ _ rg hrg => ?_
  obtain ⟨rs, hrs, hmem⟩ := List.mem_flatten.1 hrg
  exact hranges rs hrs rg hmem

end Envelopes

/-! ### The two walks accept the same -/

theorem checkEnvelope_some (hash : Bytes → UInt64) (p : Bytes) (expectType : Nat) :
    checkEnvelope hash p expectType = some (verifyEnvelope hash p expectType) := by
  unfold checkEnvelope
  split
  · rfl
  · rename_i hlen
    rw [if_pos]
    simp only [stretchesIn, List.all_cons, List.all_nil, Bool.and_true, Bool.and_eq_true,
      decide_eq_true_eq]
    omega

theorem stretchesIn_anchor {ap : Bytes} (h : ¬ ap.length < 78) :
    stretchesIn ap anchorReads = true := by
  simp only [stretchesIn, anchorReads, List.all_cons, List.all_nil, Bool.and_true,
    Bool.and_eq_true, decide_eq_true_eq]
  omega

theorem scanFrom_eq {α : Type} {p : Bytes} {w : Scan α} {v : Walk α} (h : Shadows p w v) :
    scanFrom w = some ((v ⟨p, 16⟩).map Prod.fst) := by
  obtain ⟨a, ⟨pos, bad⟩, hrun, -⟩ := h.keeps.run {}
  unfold scanFrom
  rw [h.stops 16, hrun]
  cases bad with
  | false => rfl
  | true => rfl

/-- The walk that goes on after a failure and the one that stops there come to the same end, with the
same column store or the same error. -/
theorem scanRNTuple_eq (D : Decoders) (hash : Bytes → UInt64) (src : ByteSource) (cm : ContainerMeta)
    (ntuple : String) :
    scanRNTuple D hash src cm ntuple = some (parseRNTupleFrom D hash src cm ntuple) := by
  simp only [scanRNTuple, parseRNTupleFrom, bind, Except.bind]
  by_cases hkey : (anchorKey ntuple cm.keys).nbytes = 0
  · simp only [if_pos hkey]
  by_cases hap : (readKeyPayload D src (anchorKey ntuple cm.keys)).length < 78
  · simp only [if_neg hkey, if_pos hap]
  simp only [if_neg hkey, if_neg hap, stretchesIn_anchor hap, Bool.true_eq_false, if_false]
  split
  · rfl
  split
  · rfl
  simp only [scanEnvelopes, checkEnvelope_some, Option.bind_some]
  generalize readAnchor (anchorKey ntuple cm.keys) (readKeyPayload D src (anchorKey ntuple cm.keys)) =
    a
  generalize readEnvelope D src a.seekHeader a.nbytesHeader a.lenHeader cm.fileSize.toNat = header
  generalize readEnvelope D src a.seekFooter a.nbytesFooter a.lenFooter cm.fileSize.toNat = footer
  cases verifyEnvelope hash header kEnvelopeHeader with
  | some why => rfl
  | none =>
  cases verifyEnvelope hash footer kEnvelopeFooter with
  | some why => rfl
  | none =>
  simp only [orError, scanFrom_eq (headerScan_shadows header), Option.bind_some, StateT.run]
  rcases headerWalk ⟨header, 16⟩ with _ | ⟨⟨name, writer, columns⟩, -⟩
  · rfl
  simp only [Option.map_some, scanFooter]
  -- what the footer says of its groups
  have hgroups := (footerScan_finds footer).found 16
  obtain ⟨found, c, hrun, -⟩ := (footerScan_keeps footer).run {}
  have hrun₁₆ : footerScan footer ⟨16, false⟩ = some (found, c) := hrun
  rw [hrun₁₆, Option.bind_some, groupsFound] at hgroups
  rw [hrun]
  split at hgroups
  · rename_i hout
    obtain ⟨links, rfl⟩ := Option.isSome_iff_exists.1 hout.1
    rw [Option.map_eq_none_iff.1 hgroups]
    exact if_pos hout.2
  rename_i hin
  obtain ⟨⟨found, c'⟩, hwalk, rfl⟩ := Option.map_eq_some_iff.1 hgroups
  rw [hwalk]
  cases found with
  | none => rfl
  | some links =>
  simp only [Option.bind_some, if_neg fun hbad => hin ⟨rfl, hbad⟩]
  cases links with
  | nil => rfl
  | cons link rest =>
  cases rest with
  | cons _ _ => rfl
  | nil =>
  simp only [scanPageList]
  split
  · rfl
  rw [checkEnvelope_some, Option.bind_some]
  generalize readEnvelope D src link.off link.nbytes link.len cm.fileSize.toNat = pageList
  cases verifyEnvelope hash pageList kEnvelopePageList with
  | some why => rfl
  | none =>
  simp only [scanFrom_eq (pageListScan_shadows pageList columns), Option.bind_some]
  rcases pageListWalk columns ⟨pageList, 16⟩ with _ | ⟨⟨nClusters, nEntries, ranges⟩, -⟩
  · rfl
  · rfl

/-! ### The parse is safe -/

/-- What the walk over a page list finds is inside of it. -/
theorem pageListWalk_inside {columns : List ColumnInfo} {p : Bytes}
    {x : Nat × Nat × List ColumnRange} {end_ : LE}
    (h : pageListWalk columns ⟨p, 16⟩ = some (x, end_)) : ∀ rg ∈ x.2.2, RangeInside p rg := by
  obtain ⟨x', c, hrun, -, hinside⟩ := pageListScan_gives p columns True ⟨16, false⟩
    ⟨trivial, fun _ => trivial⟩
  rw [(pageListScan_shadows p columns).stops, hrun, Option.bind_some, stopped] at h
  split at h
  · cases h
  · rename_i hgood
    cases h
    exact (hinside (Bool.eq_false_iff.2 hgood)).2

/-- Whatever a container, its anchor and its envelopes are, the parse comes to an end without a read
outside of the bytes it is made in.  What it accepts has every page's record and every range's
compression word inside the page list. -/
theorem rntuple_parse_safe (D : Decoders) (hash : Bytes → UInt64) (src : ByteSource)
    (cm : ContainerMeta) (ntuple : String) :
    ∃ r, scanRNTuple D hash src cm ntuple = some r ∧
      ∀ m, r = .ok m → ∀ rg ∈ m.ranges,
        rg.compressionOffset + 4 ≤ m.pageList.length ∧
          ∀ pg ∈ rg.pages, pg.recordOffset + 16 ≤ m.pageList.length := by
  refine ⟨_, scanRNTuple_eq D hash src cm ntuple, fun m hm => ?_⟩
  obtain ⟨_, hwalk⟩ := (parseRNTupleFrom_iff.1 hm).pageListWalk
  exact pageListWalk_inside hwalk

end UCache
