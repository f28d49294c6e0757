/-
Module: UCache.Plugin.LayoutBlob
Purpose: The layout a slot store keeps: its bytes, delta-coded and compressed, and when they are
  read back as what was written.
Trusted boundary: none
Main exports: ColdLayout, encodeLayout, stored_layout_round_trip
-/
import UCache.Lib.Parse
import UCache.Plugin.ColdRequest

namespace UCache

open Lib

/-! ### The bytes -/

/-- [SRC ColdRun.cc:124-140] What a file's `ColdFill` takes from its stored layout. -/
structure ColdLayout where
  rnt : Bool := false
  L : FillLayout := {}
  metaOrigin : List (Nat × Nat) := []
  pages : List SlotPage := []
deriving DecidableEq, Repr

def kLayoutMagic : Bytes := ascii "UCLAYT02"

/-- [SRC ColdRun.cc:433-436] A count of 64 bits, then the bytes. -/
def putBlob (v : Bytes) : Bytes := le 8 v.length ++ v

/-- [SRC ColdRun.cc:459-466] -/
def getBlob : Parser Bytes := do
  let len ← getLe 8
  getBytes len

/-- [SRC ColdRun.cc:489-492] A tree slot's length when nothing capped it. -/
def plainSlotLen (origLen k100 : Nat) : Nat := min (origLen * k100 / 100) kInt32Max

/-- What the coding of a slot takes from the one before it. -/
structure SlotBefore where
  branch : Nat := 0
  basket : Nat := 0
  orig : Nat := 0
  nextV : Nat
deriving DecidableEq, Repr

/-- What the next slot is coded against. -/
def FillSlot.before (s : FillSlot) : SlotBefore where
  branch := s.branch
  basket := s.basket
  orig := s.origSeek
  nextV := (s.vSeek + s.vLen) % 2 ^ 64

/-- [SRC ColdRun.cc:524-533] The six integers of a slot. -/
def putSlot (rnt : Bool) (k100 : Nat) (p : SlotBefore) (s : FillSlot) : Bytes :=
  putSvarint ((s.branch : Int) - p.branch) ++
    (putSvarint ((s.basket : Int) - (p.basket + 1 : Nat)) ++
      (putSvarint (int64 ((s.origSeek : Int) - p.orig)) ++
        (putVarint s.origLen ++
          (putVarint (if !rnt && s.vLen == plainSlotLen s.origLen k100 then 0 else s.vLen + 1) ++
            putSvarint (int64 ((s.vSeek : Int) - p.nextV))))))

/-- [SRC ColdRun.cc:520-534] -/
def putSlots (rnt : Bool) (k100 : Nat) : SlotBefore → List FillSlot → Bytes
  | _, [] => []
  | p, s :: rest => putSlot rnt k100 p s ++ putSlots rnt k100 s.before rest

/-- [SRC ColdRun.cc:597-608] The sums are of 32 and 64 bits. -/
def getSlot (k100 : Nat) (p : SlotBefore) : Parser FillSlot := do
  let branch ← getSvarint
  let basket ← getSvarint
  let orig ← getSvarint
  let len ← getVarint
  let vl ← getVarint
  let v ← getSvarint
  let origLen := len % 2 ^ 32
  pure
    { branch := advance 32 p.branch branch
      basket := advance 32 (p.basket + 1) basket
      origSeek := advance 64 p.orig orig
      origLen := origLen
      vLen := if vl = 0 then plainSlotLen origLen k100 else (vl - 1) % 2 ^ 32
      vSeek := advance 64 p.nextV v }

/-- [SRC ColdRun.cc:594-609] -/
def getSlots (k100 : Nat) : Nat → SlotBefore → Parser (List FillSlot)
  | 0, _ => pure []
  | n + 1, p => do
      let s ← getSlot k100 p
      let rest ← getSlots k100 n s.before
      pure (s :: rest)

def putWindow (w : Window) : Bytes := le 8 w.off ++ putBlob w.bytes

def getWindow : Parser Window := do
  let off ← getLe 8
  let bytes ← getBlob
  pure { off := off, bytes := bytes }

def putRange (r : Nat × Nat) : Bytes := le 8 r.1 ++ le 8 r.2

def getRange : Parser (Nat × Nat) := do
  let o ← getLe 8
  let n ← getLe 8
  pure (o, n)

def putPage (pg : SlotPage) : Bytes := le 4 pg.nbytes ++ le 1 pg.hasChecksum.toNat

def getPage : Parser SlotPage := do
  let nbytes ← getLe 4
  let sum ← getLe 1
  pure { nbytes := nbytes, hasChecksum := decide (sum ≠ 0) }

/-- [SRC ColdRun.cc:611-615] The pages of a column store, one for each slot. -/
def getPages (rnt ns : Nat) : Parser (List SlotPage) :=
  if rnt ≠ 0 then times getPage ns else pure []

/-- [SRC ColdRun.cc:497-539] Everything after the magic. -/
def putLayout (k100 : Nat) (cf : ColdLayout) : Bytes :=
  le 1 cf.rnt.toNat ++ (le 8 cf.L.originSize ++ (le 8 cf.L.virtualSize ++ (le 8 cf.L.metaSeek ++
    (le 8 cf.L.slotsBegin ++
      (le 4 cf.L.windows.length ++ (cf.L.windows.flatMap putWindow ++
        (putBlob cf.L.metaRecord ++
          (le 4 cf.metaOrigin.length ++ (cf.metaOrigin.flatMap putRange ++
            (le 4 cf.L.relocated.length ++ (cf.L.relocated.flatMap (le 4) ++
              (le 4 cf.L.slots.length ++
                (putSlots cf.rnt k100 { nextV := cf.L.slotsBegin } cf.L.slots ++
                  if cf.rnt then cf.pages.flatMap putPage else [])))))))))))))

/-- [SRC ColdRun.cc:564-618] `size` is the length of the whole input. -/
def getLayout (size k100 : Nat) : Parser ColdLayout := do
  let rnt ← getLe 1
  let originSize ← getLe 8
  let virtualSize ← getLe 8
  let metaSeek ← getLe 8
  let slotsBegin ← getLe 8
  let nw ← getLe 4
  let windows ← times getWindow nw
  let metaRecord ← getBlob
  let nm ← getLe 4
  let metaOrigin ← times getRange nm
  let nr ← getLe 4
  guard (nr ≤ size)
  let relocated ← times (getLe 4) nr
  let ns ← getLe 4
  guard (ns * 6 ≤ size)
  let slots ← getSlots k100 ns { nextV := slotsBegin }
  let pages ← getPages rnt ns
  pure
    { rnt := decide (rnt ≠ 0)
      L :=
        { originSize := originSize
          virtualSize := virtualSize
          windows := windows
          metaSeek := metaSeek
          metaRecord := metaRecord
          slotsBegin := slotsBegin
          slots := slots
          relocated := relocated }
      metaOrigin := metaOrigin
      pages := pages }

/-- [SRC ColdRun.cc:620-628] Every slot lies in the layout, in order; the sums are of 64 bits. -/
def slotsChecked (rnt : Bool) (originSize virtualSize : Nat) : Nat → List FillSlot → Bool
  | _, [] => true
  | prev, s :: rest =>
      decide (prev ≤ s.vSeek) && decide ((s.vSeek + s.vLen) % 2 ^ 64 ≤ virtualSize) &&
        (rnt || decide (s.origLen ≤ s.vLen)) &&
          decide ((s.origSeek + s.origLen) % 2 ^ 64 ≤ originSize) &&
            slotsChecked rnt originSize virtualSize ((s.vSeek + s.vLen) % 2 ^ 64) rest

/-- [SRC ColdRun.cc:618-632] The checks on a layout that was read. -/
def ColdLayout.checked (cf : ColdLayout) : Bool :=
  decide (cf.L.slotsBegin ≤ cf.L.virtualSize) && decide (cf.L.metaSeek ≤ cf.L.slotsBegin) &&
    slotsChecked cf.rnt cf.L.originSize cf.L.virtualSize cf.L.slotsBegin cf.L.slots &&
      cf.L.windows.all fun w => decide ((w.off + w.bytes.length) % 2 ^ 64 ≤ cf.L.originSize)

/-- What is compressed. -/
def layoutBytes (k100 : Nat) (cf : ColdLayout) : Bytes := kLayoutMagic ++ putLayout k100 cf

/-- [SRC ColdRun.cc:494-550] -/
def encodeLayout (E : Encoder) (k100 : Nat) (cf : ColdLayout) : Bytes :=
  let b := layoutBytes k100 cf
  let z := encodeZstdFrames E b 3
  le 8 b.length ++ if z = [] then b else z

/-- [SRC ColdRun.cc:553-561] What a blob holds: its body as it is when it has the length the blob
says, else decompressed. -/
def storedBytes (D : Decoders) (blob : Bytes) : Bytes :=
  let raw := ofLe (blob.take 8)
  let body := blob.drop 8
  if body.length = raw then body else decompressFrames D body raw

/-- [SRC ColdRun.cc:552-633] Into a fresh `ColdFill`; a read that fails fails the decode. -/
def decodeLayout (D : Decoders) (k100 : Nat) (blob : Bytes) : Option ColdLayout :=
  if blob.length < 8 then none
  else
    let raw := ofLe (blob.take 8)
    let b := storedBytes D blob
    if b.length ≠ raw ∨ raw < 8 ∨ b.take 8 ≠ kLayoutMagic then none
    else
      match (getLayout b.length k100).run (b.drop 8) with
      | some (cf, []) => if cf.checked then some cf else none
      | _ => none

/-! ### What fits the widths of the format -/

/-- The integers of a slot fit their types. -/
structure FillSlot.Fits (s : FillSlot) : Prop where
  origSeek : s.origSeek < 2 ^ 64
  origLen : s.origLen < 2 ^ 32
  vSeek : s.vSeek < 2 ^ 64
  vLen : s.vLen < 2 ^ 32
  branch : s.branch < 2 ^ 32
  basket : s.basket < 2 ^ 32

/-- Every integer fits its type, and every count the 32 bits it is stored in. -/
structure ColdLayout.Fits (cf : ColdLayout) : Prop where
  originSize : cf.L.originSize < 2 ^ 64
  virtualSize : cf.L.virtualSize < 2 ^ 64
  metaSeek : cf.L.metaSeek < 2 ^ 64
  slotsBegin : cf.L.slotsBegin < 2 ^ 64
  windows : cf.L.windows.length < 2 ^ 32
  window : ∀ w ∈ cf.L.windows, w.off < 2 ^ 64 ∧ w.bytes.length < 2 ^ 64
  metaRecord : cf.L.metaRecord.length < 2 ^ 64
  metaOrigins : cf.metaOrigin.length < 2 ^ 32
  metaOrigin : ∀ r ∈ cf.metaOrigin, r.1 < 2 ^ 64 ∧ r.2 < 2 ^ 64
  relocateds : cf.L.relocated.length < 2 ^ 32
  relocated : ∀ b ∈ cf.L.relocated, b < 2 ^ 32
  slots : cf.L.slots.length < 2 ^ 32
  slot : ∀ s ∈ cf.L.slots, s.Fits
  page : ∀ pg ∈ cf.pages, pg.nbytes < 2 ^ 32

/-! ### Reading back -/

variable {k100 : Nat}

theorem reads_blob {v : Bytes} (h : v.length < 2 ^ 64) : Reads getBlob (putBlob v) v :=
  Reads.bind (reads_le (by omega)) (reads_bytes v)

theorem reads_window {w : Window} (h : w.off < 2 ^ 64 ∧ w.bytes.length < 2 ^ 64) :
    Reads getWindow (putWindow w) w := by
  have hread : Reads getWindow (le 8 w.off ++ (putBlob w.bytes ++ [])) w :=
    Reads.bind (reads_le (by omega)) (Reads.bind (reads_blob h.2) (Reads.pure _))
  rwa [List.append_nil] at hread

theorem reads_range {r : Nat × Nat} (h : r.1 < 2 ^ 64 ∧ r.2 < 2 ^ 64) :
    Reads getRange (putRange r) r := by
  have hread : Reads getRange (le 8 r.1 ++ (le 8 r.2 ++ [])) r :=
    Reads.bind (reads_le (by omega)) (Reads.bind (reads_le (by omega)) (Reads.pure _))
  rwa [List.append_nil] at hread

theorem reads_page {pg : SlotPage} (h : pg.nbytes < 2 ^ 32) : Reads getPage (putPage pg) pg := by
  have hflag : pg.hasChecksum.toNat < 256 := by cases pg.hasChecksum <;> decide
  have hread : Reads getPage (le 4 pg.nbytes ++ (le 1 pg.hasChecksum.toNat ++ []))
      { nbytes := pg.nbytes, hasChecksum := decide (pg.hasChecksum.toNat ≠ 0) } :=
    Reads.bind (reads_le (by omega)) (Reads.bind (reads_le (by omega)) (Reads.pure _))
  have hback : decide (pg.hasChecksum.toNat ≠ 0) = pg.hasChecksum := by
    cases pg.hasChecksum <;> rfl
  rw [List.append_nil, hback] at hread
  exact hread

/-- The length a slot is read back with. -/
theorem vLen_back {rnt : Bool} {s : FillSlot} (h : s.vLen < 2 ^ 32) {vl : Nat}
    (hvl : vl = if !rnt && s.vLen == plainSlotLen s.origLen k100 then 0 else s.vLen + 1) :
    (if vl = 0 then plainSlotLen s.origLen k100 else (vl - 1) % 2 ^ 32) = s.vLen := by
  subst hvl
  split
  · rename_i hplain
    simp only [Bool.and_eq_true, beq_iff_eq] at hplain
    rw [if_pos rfl, hplain.2]
  · rw [if_neg (by omega), Nat.add_sub_cancel, Nat.mod_eq_of_lt h]

theorem reads_slot (rnt : Bool) (k100 : Nat) {p : SlotBefore} {s : FillSlot} (h : s.Fits)
    (hbranch : p.branch < 2 ^ 32) (hbasket : p.basket < 2 ^ 32) :
    Reads (getSlot k100 p) (putSlot rnt k100 p s) s := by
  have hlen := h.origLen
  have hvLen := h.vLen
  generalize hvl : (if !rnt && s.vLen == plainSlotLen s.origLen k100 then 0 else s.vLen + 1) = vl
  have hvlt : vl < 2 ^ 64 := by
    rw [← hvl]
    split <;> omega
  have hsmall : ∀ a b : Nat, a < 2 ^ 32 → b ≤ 2 ^ 32 → Int64Range ((a : Int) - b) := by
    intro a b ha hb
    constructor <;> omega
  have hback : ({
      branch := advance 32 p.branch ((s.branch : Int) - p.branch)
      basket := advance 32 (p.basket + 1) ((s.basket : Int) - (p.basket + 1 : Nat))
      origSeek := advance 64 p.orig (int64 ((s.origSeek : Int) - p.orig))
      origLen := s.origLen % 2 ^ 32
      vLen := if vl = 0 then plainSlotLen (s.origLen % 2 ^ 32) k100 else (vl - 1) % 2 ^ 32
      vSeek := advance 64 p.nextV (int64 ((s.vSeek : Int) - p.nextV)) } : FillSlot) = s := by
    rw [advance_sub h.branch, advance_sub h.basket, advance_int64_sub h.origSeek,
      advance_int64_sub h.vSeek, Nat.mod_eq_of_lt hlen, vLen_back hvLen hvl.symm]
  have hread : Reads (getSlot k100 p)
      (putSvarint ((s.branch : Int) - p.branch) ++
        (putSvarint ((s.basket : Int) - (p.basket + 1 : Nat)) ++
          (putSvarint (int64 ((s.origSeek : Int) - p.orig)) ++
            (putVarint s.origLen ++
              (putVarint vl ++ (putSvarint (int64 ((s.vSeek : Int) - p.nextV)) ++ [])))))) s := by
    refine Reads.bind (reads_svarint (hsmall s.branch p.branch h.branch (by omega))) ?_
    refine Reads.bind (reads_svarint (hsmall s.basket (p.basket + 1) h.basket (by omega))) ?_
    refine Reads.bind (reads_svarint (int64Range_int64 _)) ?_
    refine Reads.bind (reads_varint (by omega)) ?_
    refine Reads.bind (reads_varint hvlt) ?_
    refine Reads.bind (reads_svarint (int64Range_int64 _)) ?_
    dsimp only
    rw [hback]
    exact Reads.pure s
  rw [List.append_nil, ← hvl] at hread
  exact hread

theorem reads_slots (rnt : Bool) (k100 : Nat) {slots : List FillSlot} (h : ∀ s ∈ slots, s.Fits)
    {p : SlotBefore} (hbranch : p.branch < 2 ^ 32) (hbasket : p.basket < 2 ^ 32) :
    Reads (getSlots k100 slots.length p) (putSlots rnt k100 p slots) slots := by
  induction slots generalizing p with
  | nil => exact Reads.pure []
  | cons s rest ih =>
      have hs := h s (by simp)
      have htail : Reads (do let xs ← getSlots k100 rest.length s.before; pure (s :: xs))
          (putSlots rnt k100 s.before rest ++ []) (s :: rest) :=
        Reads.bind (ih (fun x hx => h x (by simp [hx])) hs.branch hs.basket) (Reads.pure _)
      rw [List.append_nil] at htail
      exact Reads.bind (reads_slot rnt k100 hs hbranch hbasket) htail

/-! ### What is stored takes room -/

variable {cf : ColdLayout}

theorem length_putSlot (rnt : Bool) (k100 : Nat) (p : SlotBefore) (s : FillSlot) :
    6 ≤ (putSlot rnt k100 p s).length := by
  have hpos := putVarint_pos
  simp only [putSlot, putSvarint, List.length_append]
  have h1 := hpos (zigzag ((s.branch : Int) - p.branch))
  have h2 := hpos (zigzag ((s.basket : Int) - (p.basket + 1 : Nat)))
  have h3 := hpos (zigzag (int64 ((s.origSeek : Int) - p.orig)))
  have h4 := hpos s.origLen
  have h5 := hpos (if !rnt && s.vLen == plainSlotLen s.origLen k100 then 0 else s.vLen + 1)
  have h6 := hpos (zigzag (int64 ((s.vSeek : Int) - p.nextV)))
  omega

theorem length_putSlots (rnt : Bool) (k100 : Nat) (p : SlotBefore) (slots : List FillSlot) :
    slots.length * 6 ≤ (putSlots rnt k100 p slots).length := by
  induction slots generalizing p with
  | nil => simp [putSlots]
  | cons s rest ih =>
      have hs := length_putSlot rnt k100 p s
      have hrest := ih s.before
      simp only [putSlots, List.length_append, List.length_cons]
      omega

theorem length_flatMap_le (n : Nat) (l : List Nat) : (l.flatMap (le n)).length = l.length * n := by
  induction l with
  | nil => simp
  | cons x xs ih =>
      rw [List.flatMap_cons, List.length_append, length_le, ih, List.length_cons, Nat.succ_mul,
        Nat.add_comm]

theorem Bool.toNat_ne_zero_back (b : Bool) : decide (b.toNat ≠ 0) = b := by
  cases b <;> rfl

/-- As many pages as slots, for a column store; none for a tree. -/
def ColdLayout.Paged (cf : ColdLayout) : Prop :=
  cf.pages.length = if cf.rnt then cf.L.slots.length else 0

theorem reads_pages (h : ∀ pg ∈ cf.pages, pg.nbytes < 2 ^ 32) (hp : cf.Paged) :
    Reads (getPages cf.rnt.toNat cf.L.slots.length)
      (if cf.rnt then cf.pages.flatMap putPage else []) cf.pages := by
  unfold ColdLayout.Paged at hp
  unfold getPages
  cases hrnt : cf.rnt with
  | false =>
      rw [hrnt, if_neg (by decide)] at hp
      rw [List.length_eq_zero_iff.1 hp, if_neg (by decide), if_neg (by decide)]
      exact Reads.pure []
  | true =>
      rw [hrnt, if_pos rfl] at hp
      rw [if_pos (by decide), if_pos rfl, ← hp]
      exact Reads.times fun pg hpg => reads_page (h pg hpg)

theorem reads_layout (h : cf.Fits) (hp : cf.Paged) {size : Nat} (k100 : Nat)
    (hsize : (putLayout k100 cf).length ≤ size) :
    Reads (getLayout size k100) (putLayout k100 cf) cf := by
  have hroom : cf.L.relocated.length ≤ size ∧ cf.L.slots.length * 6 ≤ size := by
    have hslots := length_putSlots cf.rnt k100 { nextV := cf.L.slotsBegin } cf.L.slots
    have hrel := length_flatMap_le 4 cf.L.relocated
    simp only [putLayout, List.length_append] at hsize
    omega
  have hrnt : cf.rnt.toNat < 256 := by cases cf.rnt <;> decide
  have hread : Reads (getLayout size k100)
      (le 1 cf.rnt.toNat ++ (le 8 cf.L.originSize ++ (le 8 cf.L.virtualSize ++
        (le 8 cf.L.metaSeek ++ (le 8 cf.L.slotsBegin ++
          (le 4 cf.L.windows.length ++ (cf.L.windows.flatMap putWindow ++
            (putBlob cf.L.metaRecord ++
              (le 4 cf.metaOrigin.length ++ (cf.metaOrigin.flatMap putRange ++
                (le 4 cf.L.relocated.length ++ ([] ++ (cf.L.relocated.flatMap (le 4) ++
                  (le 4 cf.L.slots.length ++ ([] ++
                    (putSlots cf.rnt k100 { nextV := cf.L.slotsBegin } cf.L.slots ++
                      ((if cf.rnt then cf.pages.flatMap putPage else []) ++
                        []))))))))))))))))) cf := by
    refine Reads.bind (reads_le (by omega)) ?_
    refine Reads.bind (reads_le h.originSize) ?_
    refine Reads.bind (reads_le h.virtualSize) ?_
    refine Reads.bind (reads_le h.metaSeek) ?_
    refine Reads.bind (reads_le h.slotsBegin) ?_
    refine Reads.bind (reads_le h.windows) ?_
    refine Reads.bind (Reads.times fun w hw => reads_window (h.window w hw)) ?_
    refine Reads.bind (reads_blob h.metaRecord) ?_
    refine Reads.bind (reads_le h.metaOrigins) ?_
    refine Reads.bind (Reads.times fun r hr => reads_range (h.metaOrigin r hr)) ?_
    refine Reads.bind (reads_le h.relocateds) ?_
    refine Reads.bind (Reads.check hroom.1) ?_
    refine Reads.bind (Reads.times fun b hb => reads_le (h.relocated b hb)) ?_
    refine Reads.bind (reads_le h.slots) ?_
    refine Reads.bind (Reads.check hroom.2) ?_
    refine Reads.bind (reads_slots cf.rnt k100 h.slot (by simp) (by simp)) ?_
    refine Reads.bind (reads_pages h.page hp) ?_
    rw [Bool.toNat_ne_zero_back]
    exact Reads.pure cf
  simpa only [putLayout, List.nil_append, List.append_nil] using hread

/-! ### Whatever is read fits -/

theorem yields_blob : Yields getBlob fun v => v.length < 2 ^ 64 :=
  Yields.bind (yields_le 8) fun len hlen => (yields_bytes len).mono fun v hv => by omega

theorem yields_window : Yields getWindow fun w => w.off < 2 ^ 64 ∧ w.bytes.length < 2 ^ 64 :=
  Yields.bind (yields_le 8) fun _ hoff => Yields.bind yields_blob fun _ hbytes =>
    Yields.pure ⟨by omega, hbytes⟩

theorem yields_range : Yields getRange fun r => r.1 < 2 ^ 64 ∧ r.2 < 2 ^ 64 :=
  Yields.bind (yields_le 8) fun _ ho => Yields.bind (yields_le 8) fun _ hn =>
    Yields.pure ⟨by omega, by omega⟩

theorem yields_page : Yields getPage fun pg => pg.nbytes < 2 ^ 32 :=
  Yields.bind (yields_le 4) fun n hn => Yields.bind (Yields.trivial _) fun _ _ =>
    Yields.pure (show n < 2 ^ 32 by omega)

theorem plainSlotLen_lt (origLen k100 : Nat) : plainSlotLen origLen k100 < 2 ^ 31 := by
  unfold plainSlotLen kInt32Max
  omega

theorem yields_slot (k100 : Nat) (p : SlotBefore) : Yields (getSlot k100 p) FillSlot.Fits := by
  refine Yields.bind (Yields.trivial _) fun branch _ => ?_
  refine Yields.bind (Yields.trivial _) fun basket _ => ?_
  refine Yields.bind (Yields.trivial _) fun orig _ => ?_
  refine Yields.bind (Yields.trivial _) fun len _ => ?_
  refine Yields.bind (Yields.trivial _) fun vl _ => ?_
  refine Yields.bind (Yields.trivial _) fun v _ => Yields.pure ?_
  have hplain := plainSlotLen_lt (len % 2 ^ 32) k100
  refine ⟨advance_lt 64 _ _, Nat.mod_lt _ (by omega), advance_lt 64 _ _, ?_, advance_lt 32 _ _,
    advance_lt 32 _ _⟩
  show (if vl = 0 then _ else _) < 2 ^ 32
  split <;> omega

theorem yields_slots (k100 n : Nat) (p : SlotBefore) :
    Yields (getSlots k100 n p) fun slots => slots.length = n ∧ ∀ s ∈ slots, s.Fits := by
  induction n generalizing p with
  | zero => exact Yields.pure ⟨rfl, by simp⟩
  | succ n ih =>
      refine Yields.bind (yields_slot k100 p) fun s hs => ?_
      refine Yields.bind (ih s.before) fun rest hrest => Yields.pure ⟨?_, ?_⟩
      · rw [List.length_cons, hrest.1]
      · intro x hx
        rcases List.mem_cons.1 hx with rfl | hmem
        · exact hs
        · exact hrest.2 x hmem

theorem yields_pages (rnt ns : Nat) : Yields (getPages rnt ns) fun pages =>
    pages.length = (if rnt ≠ 0 then ns else 0) ∧ ∀ pg ∈ pages, pg.nbytes < 2 ^ 32 := by
  unfold getPages
  split
  · exact yields_page.times ns
  · exact Yields.pure ⟨rfl, by simp⟩

theorem yields_layout (size k100 : Nat) : Yields (getLayout size k100) ColdLayout.Fits := by
  refine Yields.bind (Yields.trivial _) fun rnt _ => ?_
  refine Yields.bind (yields_le 8) fun originSize horigin => ?_
  refine Yields.bind (yields_le 8) fun virtualSize hvirtual => ?_
  refine Yields.bind (yields_le 8) fun metaSeek hmeta => ?_
  refine Yields.bind (yields_le 8) fun slotsBegin hbegin => ?_
  refine Yields.bind (yields_le 4) fun nw hnw => ?_
  refine Yields.bind (yields_window.times nw) fun windows hwindows => ?_
  refine Yields.bind yields_blob fun metaRecord hrecord => ?_
  refine Yields.bind (yields_le 4) fun nm hnm => ?_
  refine Yields.bind (yields_range.times nm) fun metaOrigin hranges => ?_
  refine Yields.bind (yields_le 4) fun nr hnr => ?_
  refine Yields.bind (Yields.trivial _) fun _ _ => ?_
  refine Yields.bind ((yields_le 4).times nr) fun relocated hrel => ?_
  refine Yields.bind (yields_le 4) fun ns hns => ?_
  refine Yields.bind (Yields.trivial _) fun _ _ => ?_
  refine Yields.bind (yields_slots k100 ns _) fun slots hslots => ?_
  refine Yields.bind (yields_pages rnt ns) fun pages hpages => Yields.pure ?_
  exact
    { originSize := horigin
      virtualSize := hvirtual
      metaSeek := hmeta
      slotsBegin := hbegin
      windows := by rw [hwindows.1]; exact hnw
      window := hwindows.2
      metaRecord := hrecord
      metaOrigins := by rw [hranges.1]; exact hnm
      metaOrigin := hranges.2
      relocateds := by rw [hrel.1]; exact hnr
      relocated := hrel.2
      slots := by rw [hslots.1]; exact hns
      slot := hslots.2
      page := hpages.2 }

/-- What was read from a blob fits the widths and passed the checks. -/
theorem decodeLayout_fits {D : Decoders} {blob : Bytes} (h : decodeLayout D k100 blob = some cf) :
    cf.Fits ∧ cf.checked = true := by
  unfold decodeLayout at h
  split at h
  · cases h
  simp only at h
  split at h
  · cases h
  split at h
  · rename_i cf' hget
    split at h
    · rename_i hchecked
      cases h
      exact ⟨yields_layout _ k100 _ _ _ hget, hchecked⟩
    · cases h
  · cases h

/-! ### Computed layouts -/

variable {E : Encoder}

/-- [SRC ColdRun.cc:659-666] The pages of the slots, from the ranges they came from. -/
def slotPages (m : RNTupleMeta) (slots : List FillSlot) : List SlotPage :=
  slots.map fun s =>
    let pg := (m.ranges.getD s.branch {}).pages.getD s.basket {}
    { nbytes := pg.nbytes % 2 ^ 32, hasChecksum := pg.hasChecksum }

/-- [SRC ColdRun.cc:638-698] What `computeLayout` leaves in a `ColdFill` when it succeeds, from
what the parse of the file yielded. -/
inductive Computed (E : Encoder) (hash : Bytes → UInt64) : ColdLayout → Prop where
  | tree {fm : FileMeta} {fileSize : Nat} {header treeKeyHeader keysList : Bytes}
      {codecs : List String} {k100 : Nat} {L : FillLayout} (lengths : fm.Lengths32)
      (ok : layoutForFill E fm fileSize header treeKeyHeader keysList codecs k100 = .ok L) :
      Computed E hash
        { rnt := false
          L := L
          metaOrigin :=
            [((fm.treeKey.seekkey % 2 ^ 64).toNat, (fm.treeKey.nbytes % 2 ^ 64).toNat)] }
  | ntuple {m : RNTupleMeta} {fileSize : Nat} {header : Bytes} {codecs : List String}
      {L : FillLayout} (ok : layoutForRNTupleFill E hash m fileSize header codecs = .ok L) :
      Computed E hash
        { rnt := true
          L := L
          metaOrigin :=
            [(m.pageListOffset, m.pageListNbytes), (m.anchor.seekFooter, m.anchor.nbytesFooter)]
          pages := slotPages m L.slots }

/-- What serving relies on, a page for each slot, and room for the original in a tree's slot. -/
theorem Computed.layoutOk {hash : Bytes → UInt64} (h : Computed E hash cf) :
    LayoutOk cf.L ∧ cf.Paged ∧ (cf.rnt = false → ∀ s ∈ cf.L.slots, s.origLen ≤ s.vLen) := by
  cases h with
  | tree lengths ok =>
      obtain ⟨hok, heach⟩ := (layoutForFill_inv ok).ok lengths
      exact ⟨hok, rfl, fun _ s hs => (heach s hs).1⟩
  | ntuple ok =>
      refine ⟨(layoutForRNTupleFill_ok ok).1, ?_, by simp⟩
      simp [ColdLayout.Paged, slotPages]

/-- Every original ends inside the file, as a 64-bit sum. -/
def ColdLayout.OriginalsInside (cf : ColdLayout) : Prop :=
  ∀ s ∈ cf.L.slots, (s.origSeek + s.origLen) % 2 ^ 64 ≤ cf.L.originSize

/-- Slots that follow one another pass the check. -/
theorem slotsChecked_of_slotsFrom {rnt : Bool} {originSize virtualSize : Nat}
    {slots : List FillSlot} (hfit : virtualSize < 2 ^ 64)
    (hroom : rnt = false → ∀ s ∈ slots, s.origLen ≤ s.vLen)
    (hin : ∀ s ∈ slots, (s.origSeek + s.origLen) % 2 ^ 64 ≤ originSize) {a : Nat}
    (h : SlotsFrom a slots virtualSize) :
    slotsChecked rnt originSize virtualSize a slots = true := by
  induction slots generalizing a with
  | nil => rfl
  | cons s rest ih =>
      obtain ⟨hseek, hrest⟩ := h
      have hle := hrest.le
      have hend : (a + s.vLen) % 2 ^ 64 = a + s.vLen := Nat.mod_eq_of_lt (by omega)
      have htail := ih (fun hr x hx => hroom hr x (by simp [hx]))
        (fun x hx => hin x (by simp [hx])) hrest
      have hlen : (rnt || decide (s.origLen ≤ s.vLen)) = true := by
        cases rnt with
        | true => rfl
        | false => simpa using hroom rfl s (by simp)
      simp only [slotsChecked, hend, htail, hlen, hin s (by simp), hle, hseek, decide_true,
        Nat.le_refl, Bool.and_self]

theorem LayoutOk.checked (h : LayoutOk cf.L) (hfit : cf.Fits)
    (hroom : cf.rnt = false → ∀ s ∈ cf.L.slots, s.origLen ≤ s.vLen) (hin : cf.OriginalsInside) :
    cf.checked = true := by
  have horigin := hfit.originSize
  have hend := h.metaEnd
  unfold FillLayout.metaEnd at hend
  have hwindows : (cf.L.windows.all fun w =>
      decide ((w.off + w.bytes.length) % 2 ^ 64 ≤ cf.L.originSize)) = true := by
    rw [List.all_eq_true]
    intro w hw
    have hstop := h.inside w hw
    unfold Window.stop at hstop
    rw [decide_eq_true_eq, Nat.mod_eq_of_lt (by omega)]
    exact hstop
  simp only [ColdLayout.checked, slotsChecked_of_slotsFrom hfit.virtualSize hroom hin h.slots,
    hwindows, h.slots.le, (by omega : cf.L.metaSeek ≤ cf.L.slotsBegin), decide_true, Bool.and_self]

/-! ### The round trip -/

/-- A compressed payload starts with the name of its codec. -/
theorem encodeZstdFrames_head {raw : Bytes} {level : Nat} (h : encodeZstdFrames E raw level ≠ []) :
    ∃ rest, encodeZstdFrames E raw level = 90 :: rest := by
  unfold encodeZstdFrames at h ⊢
  cases hlen : raw.length with
  | zero => simp [hlen, zstdFrames] at h
  | succ n =>
      rw [hlen, zstdFrames] at h
      rw [zstdFrames]
      split at h
      · simp at h
      · rename_i hne
        rw [if_neg hne]
        cases hE : E (raw.take kMaxFrame) level with
        | none => simp [hE] at h
        | some got =>
            cases hrest : zstdFrames E level n (raw.drop kMaxFrame) with
            | none => simp [hE, hrest] at h
            | some rest =>
                simp only [hE, Option.bind_eq_bind, Option.bind_some, Option.getD_some]
                exact ⟨_, rfl⟩

theorem frames_ne_magic {raw : Bytes} {level : Nat} (h : encodeZstdFrames E raw level ≠ []) :
    (encodeZstdFrames E raw level).take 8 ≠ kLayoutMagic := by
  obtain ⟨rest, hrest⟩ := encodeZstdFrames_head h
  intro heq
  have hmagic : kLayoutMagic.head? ≠ some 90 := by decide
  rw [hrest] at heq
  exact hmagic (by rw [← heq]; rfl)

/-- The length before the body tells the compressed bytes from the others. -/
def Told (E : Encoder) (raw : Bytes) : Prop :=
  encodeZstdFrames E raw 3 = [] ∨ (encodeZstdFrames E raw 3).length ≠ raw.length

instance (E : Encoder) (raw : Bytes) : Decidable (Told E raw) :=
  inferInstanceAs (Decidable (_ ∨ _))

theorem take_le_append (n v : Nat) (b : Bytes) : (le n v ++ b).take n = le n v := by
  rw [List.take_append_of_le_length (by simp), List.take_of_length_le (by simp)]

theorem drop_le_append (n v : Nat) (b : Bytes) : (le n v ++ b).drop n = b := by
  rw [List.drop_append_of_le_length (by simp), List.drop_of_length_le (by simp), List.nil_append]

/-- The length before the body is that of the uncompressed bytes. -/
theorem ofLe_encodeLayout (E : Encoder) (hsize : (layoutBytes k100 cf).length < 2 ^ 64) :
    ofLe ((encodeLayout E k100 cf).take 8) = (layoutBytes k100 cf).length := by
  rw [encodeLayout]
  simp only [take_le_append, ofLe_le]
  exact Nat.mod_eq_of_lt (by omega)

/-- What a blob that was just written is taken for. -/
theorem storedBytes_encodeLayout {D : Decoders} (hsize : (layoutBytes k100 cf).length < 2 ^ 64)
    (hundo : Undoes D E 3 (layoutBytes k100 cf)) :
    storedBytes D (encodeLayout E k100 cf) =
      if Told E (layoutBytes k100 cf) then layoutBytes k100 cf
      else encodeZstdFrames E (layoutBytes k100 cf) 3 := by
  unfold storedBytes
  simp only [ofLe_encodeLayout E hsize]
  simp only [encodeLayout, drop_le_append]
  by_cases hz : encodeZstdFrames E (layoutBytes k100 cf) 3 = []
  · have htold : Told E (layoutBytes k100 cf) := Or.inl hz
    rw [if_pos hz, if_pos rfl, if_pos htold]
  · rw [if_neg hz]
    by_cases hlen : (encodeZstdFrames E (layoutBytes k100 cf) 3).length =
        (layoutBytes k100 cf).length
    · have hnot : ¬ Told E (layoutBytes k100 cf) := by simp [Told, hz, hlen]
      rw [if_pos hlen, if_neg hnot]
    · have htold : Told E (layoutBytes k100 cf) := Or.inr hlen
      rw [if_neg hlen, if_pos htold]
      exact hundo hz

theorem decodeLayout_encodeLayout {D : Decoders} (hsize : (layoutBytes k100 cf).length < 2 ^ 64)
    (hundo : Undoes D E 3 (layoutBytes k100 cf)) (htold : Told E (layoutBytes k100 cf))
    (hfit : cf.Fits) (hp : cf.Paged) :
    decodeLayout D k100 (encodeLayout E k100 cf) = if cf.checked then some cf else none := by
  have hbytes := storedBytes_encodeLayout hsize hundo
  rw [if_pos htold] at hbytes
  have hraw := ofLe_encodeLayout E hsize
  have hlen : ¬ (encodeLayout E k100 cf).length < 8 := by simp [encodeLayout]
  have hmagic : (layoutBytes k100 cf).take 8 = kLayoutMagic := rfl
  have hrest : (layoutBytes k100 cf).drop 8 = putLayout k100 cf := rfl
  have hlong : (putLayout k100 cf).length ≤ (layoutBytes k100 cf).length := by simp [layoutBytes]
  have hmagicLen : 8 ≤ (layoutBytes k100 cf).length := by
    have hlen : kLayoutMagic.length = 8 := rfl
    rw [layoutBytes, List.length_append, hlen]
    omega
  have hread := reads_layout hfit hp k100 hlong []
  rw [List.append_nil] at hread
  unfold decodeLayout
  rw [if_neg hlen]
  simp only [hbytes, hraw, hmagic, hrest, hread]
  rw [if_neg (by simp; omega)]

/-- Bytes of the same length as the compressed ones: these are taken as they are, and refused. -/
theorem decodeLayout_untold {D : Decoders} (hsize : (layoutBytes k100 cf).length < 2 ^ 64)
    (hundo : Undoes D E 3 (layoutBytes k100 cf)) (h : ¬ Told E (layoutBytes k100 cf)) :
    decodeLayout D k100 (encodeLayout E k100 cf) = none := by
  have hbytes := storedBytes_encodeLayout hsize hundo
  rw [if_neg h] at hbytes
  unfold Told at h
  simp only [not_or] at h
  unfold decodeLayout
  split
  · rfl
  · simp only [hbytes]
    rw [if_pos (Or.inr (Or.inr (frames_ne_magic h.1)))]

theorem originalsInside_of_checked {rnt : Bool} {originSize virtualSize prev : Nat}
    {slots : List FillSlot} (h : slotsChecked rnt originSize virtualSize prev slots = true) :
    ∀ s ∈ slots, (s.origSeek + s.origLen) % 2 ^ 64 ≤ originSize := by
  induction slots generalizing prev with
  | nil => simp
  | cons s rest ih =>
      simp only [slotsChecked, Bool.and_eq_true, decide_eq_true_eq] at h
      intro x hx
      rcases List.mem_cons.1 hx with rfl | hmem
      · exact h.1.2
      · exact ih h.2 x hmem

/-- A stored layout is read back as it was, in every field, exactly when its integers fit the
format, its originals end inside the file, and the length of the compressed bytes differs from
that of the bytes themselves. -/
theorem stored_layout_round_trip {D : Decoders} {E : Encoder} {hash : Bytes → UInt64} {k100 : Nat}
    {cf : ColdLayout} (hc : Computed E hash cf) (hsize : (layoutBytes k100 cf).length < 2 ^ 64)
    (hundo : Undoes D E 3 (layoutBytes k100 cf)) :
    decodeLayout D k100 (encodeLayout E k100 cf) = some cf ↔
      cf.Fits ∧ cf.OriginalsInside ∧ Told E (layoutBytes k100 cf) := by
  obtain ⟨hok, hp, hroom⟩ := hc.layoutOk
  constructor
  · intro hback
    obtain ⟨hfit, hchecked⟩ := decodeLayout_fits hback
    simp only [ColdLayout.checked, Bool.and_eq_true] at hchecked
    refine ⟨hfit, originalsInside_of_checked hchecked.1.2, ?_⟩
    by_contra htold
    rw [decodeLayout_untold hsize hundo htold] at hback
    cases hback
  · rintro ⟨hfit, hin, htold⟩
    rw [decodeLayout_encodeLayout hsize hundo htold hfit hp, if_pos (hok.checked hfit hroom hin)]

/-! ### A small file -/

/-- A key header in the 64-bit form. -/
def smallKey (nbytes : Nat) (cls name : String) (seek : Nat) : Bytes :=
  let texts := [UInt8.ofNat cls.length] ++ ascii cls ++ [UInt8.ofNat name.length] ++ ascii name ++
    [0]
  be 4 nbytes ++ be 2 1004 ++ be 4 0 ++ be 4 0 ++ be 2 (34 + texts.length) ++ be 2 1 ++
    be 8 seek ++ be 8 100 ++ texts

/-- A tree of one branch with one basket, in a file of 400 bytes. -/
def smallTree : FileMeta where
  large := true
  fend := 400
  keyslistSeek := 300
  treeKey :=
    { nbytes := 59
      ver := 1004
      keylen := 43
      seekkey := 150
      cls := ascii "TTree"
      name := ascii "t" }
  treeBlob := List.replicate 16 0
  autoFlushOff := 1
  zipBytes := 1
  zipBytesOff := 1
  branches :=
    [{ writeBasket := 1
       basketSeek := [100]
       basketBytes := [50]
       compress := 207
       zipBytesOff := 1
       bytesArrayOff := 8 }]

def smallHeader : Bytes :=
  ascii "root" ++ be 4 1063000 ++ be 4 100 ++ be 8 400 ++ List.replicate 55 0

def smallKeysList : Bytes :=
  smallKey 90 "TFile" "f" 300 ++ be 4 1 ++ smallKey 59 "TTree" "t" 150

def smallFill (E : Encoder) : Except String FillLayout :=
  layoutForFill E smallTree 400 smallHeader (smallKey 59 "TTree" "t" 150) smallKeysList ["lzma"] 130

/-- What is left in the `ColdFill` of the small file. -/
def smallLayout (E : Encoder) : ColdLayout where
  L := (smallFill E).toOption.getD {}
  metaOrigin := [(150, 59)]

theorem smallLayout_computed (hash : Bytes → UInt64) (h : (smallFill E).toOption.isSome = true) :
    Computed E hash (smallLayout E) := by
  cases hfill : smallFill E with
  | error e =>
      rw [hfill] at h
      cases h
  | ok L =>
      have hc : Computed E hash { L := L, metaOrigin := [(150, 59)] } :=
        Computed.tree (by simp [FileMeta.Lengths32, smallTree]) hfill
      rw [smallLayout, hfill]
      exact hc

/-- An encoder that fails: the layout is stored as it is. -/
def noEncoder : Encoder := fun _ _ => none

/-- A layout of one slot, stored uncompressed. -/
theorem stored_layout_round_trip_small :
    decodeLayout noDecoders 130 (encodeLayout noEncoder 130 (smallLayout noEncoder)) =
      some (smallLayout noEncoder) := by
  have hframes : encodeZstdFrames noEncoder (layoutBytes 130 (smallLayout noEncoder)) 3 = [] := by
    decide +kernel
  have hslots : (smallLayout noEncoder).L.slots =
      [{ origSeek := 100, origLen := 50, vSeek := 4155, vLen := 65 }] := by
    decide +kernel
  have hfit : (smallLayout noEncoder).Fits := by
    constructor
    case slot =>
      rw [hslots]
      intro s hs
      rw [List.mem_singleton.1 hs]
      constructor <;> decide
    all_goals decide +kernel
  have hin : (smallLayout noEncoder).OriginalsInside := by
    unfold ColdLayout.OriginalsInside
    decide +kernel
  exact (stored_layout_round_trip (smallLayout_computed (fun _ => 0) (by decide +kernel))
    (by decide +kernel) (fun h => absurd hframes h)).2 ⟨hfit, hin, Or.inl hframes⟩

/-- An encoder with a dictionary of one text, ten bytes that it writes in one. -/
def dictionary : Bytes := kLayoutMagic ++ [0, 0x90]

def dictionaryEncoder : Encoder := fun x _ =>
  if x.take 10 = dictionary then some (0 :: x.drop 10) else some (1 :: x)

def dictionaryDecoders : Decoders :=
  { noDecoders with
    zstd := fun z _ =>
      match z with
      | 0 :: y => some (dictionary ++ y)
      | 1 :: y => some y
      | _ => none }

/-- Every block is restored. -/
theorem dictionary_restores (x : Bytes) (level : Nat) :
    ∃ z, dictionaryEncoder x level = some z ∧ dictionaryDecoders.zstd z x.length = some x := by
  unfold dictionaryEncoder
  split
  · rename_i hstart
    refine ⟨_, rfl, ?_⟩
    show some (dictionary ++ x.drop 10) = some x
    rw [← hstart, List.take_append_drop]
  · exact ⟨_, rfl, rfl⟩

/-- The frame of the small file's layout has the length of the layout: it is taken for the layout
itself, and refused. -/
theorem stored_layout_lost :
    Computed dictionaryEncoder (fun _ => 0) (smallLayout dictionaryEncoder) ∧
      (∀ x level, ∃ z, dictionaryEncoder x level = some z ∧
        dictionaryDecoders.zstd z x.length = some x) ∧
      Undoes dictionaryDecoders dictionaryEncoder 3
        (layoutBytes 130 (smallLayout dictionaryEncoder)) ∧
      decodeLayout dictionaryDecoders 130
        (encodeLayout dictionaryEncoder 130 (smallLayout dictionaryEncoder)) = none := by
  refine ⟨smallLayout_computed _ (by decide +kernel), dictionary_restores, fun _ => ?_, ?_⟩
  · decide +kernel
  · decide +kernel

end UCache
