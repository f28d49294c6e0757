/-
Module: UCache.Core.SlotLog
Purpose: The slot store as a log.  Whatever processes read and commit and wherever a commit is cut
  short, every block written whole reaches every other reader once and in order, no block is written
  into the extent of an earlier one, and a record reads back as it was given.
Trusted boundary: none
Main exports: CrcTells, LogOk, slot_log_delivers
-/
import UCache.Core.SlotBlock
import UCache.Lib.Log

namespace UCache

open Lib SlotStore

/-! ### Boundaries -/

theorem le_alignUp (v : Nat) : v ≤ alignUp v := by
  unfold alignUp kAlign
  omega

theorem alignUp_mod (v : Nat) : alignUp v % kAlign = 0 := by
  unfold alignUp kAlign
  omega

/-- The first boundary at or past `v`. -/
theorem alignUp_le {v p : Nat} (hp : p % kAlign = 0) (h : v ≤ p) : alignUp v ≤ p := by
  unfold kAlign at hp
  unfold alignUp kAlign
  omega

theorem alignUp_mono {v v' : Nat} (h : v ≤ v') : alignUp v ≤ alignUp v' :=
  alignUp_le (alignUp_mod v') (Nat.le_trans h (le_alignUp v'))

/-! ### The invariant -/

variable {w' : SlotWorld}

/-- The CRC tells contents apart: what passes for a block header on a boundary is one that a commit
left there, a table that passes its block's CRC is the block's, and a record that passes is the
record that was given. -/
structure CrcTells (w : SlotWorld) : Prop where
  header : ∀ p, p % kAlign = 0 → w.firstBlock ≤ p → ∀ h, readHeader w.file w.storeId p = some h →
    ∃ c ∈ w.log, c.left = true ∧ c.base = p
  table : ∀ c ∈ w.log, c.left = true →
    (w.file.read (c.base + kBlockHeader) (c.entries.length * kEntry)).length =
      c.entries.length * kEntry →
    crc32c (w.file.read (c.base + kBlockHeader) (c.entries.length * kEntry)) =
      crc32c (tableBytes c.entries) →
    w.file.read (c.base + kBlockHeader) (c.entries.length * kEntry) = tableBytes c.entries
  record : ∀ c ∈ w.log, ∀ (i : Nat) (r : SlotRecord) (e : SlotEntry), c.recs[i]? = some r →
    c.entries[i]? = some e → r.kind ≠ .kept →
    (w.file.read e.off e.len).length = e.len →
    recordCrc w.storeId e.slot (w.file.read e.off e.len) = recordCrc w.storeId r.slot r.bytes →
    w.file.read e.off e.len = r.bytes

/-- The blocks in the file: each on a boundary and made of its records, each later one past the
extent of every header left before it, and each whole one still whole. -/
structure LogOk (w : SlotWorld) : Prop where
  first : w.firstBlock ≤ alignUp w.file.size
  base : ∀ c ∈ w.log, c.base % kAlign = 0 ∧ w.firstBlock ≤ c.base
  block : ∀ c ∈ w.log, BlockOf w.storeId c.base c.recs c.block c.entries
  sized : ∀ c ∈ w.log, Sized c.recs ∧ c.recs ≠ [] ∧ c.extent < 2 ^ 63
  order : w.log.Pairwise fun c c' => c.left = true → c.extent ≤ c'.base
  left : ∀ c ∈ w.log, c.left = true → w.file.read c.base kBlockHeader = c.block.take kBlockHeader
  whole : ∀ c ∈ w.log, c.ok = true → c.left = true ∧ c.extent ≤ w.file.size ∧
    w.file.read c.base c.block.length = c.block

/-- What a reader has been given: of the blocks before its offset, all whole ones but its own, and
none twice. -/
structure ReaderOk (w : SlotWorld) (r : SlotReader) : Prop where
  aligned : r.st.readOff % kAlign = 0
  first : w.firstBlock ≤ r.st.readOff
  bound : r.st.readOff ≤ alignUp w.file.size
  claimed : ∀ c ∈ w.log, c.left = true → c.base < r.st.readOff → c.extent ≤ r.st.claimedEnd
  own : ∀ c ∈ r.own, c ∈ w.log ∧ c.base < r.st.readOff
  delivered : ∃ p : CommitRec → Bool, r.delivered = (w.log.filter p).flatMap CommitRec.entries ∧
    (∀ c, p c = true → c.left = true ∧ c.base < r.st.readOff ∧ c ∈ w.log ∧ c ∉ r.own) ∧
    ∀ c ∈ w.log, c.ok = true → c.base < r.st.readOff → c ∉ r.own → p c = true

structure StoreOk (w : SlotWorld) : Prop where
  log : LogOk w
  readers : ∀ h r, w.readers h = some r → ReaderOk w r

section Blocks

variable {w : SlotWorld} {c c' : CommitRec} {lo hi pos pos' : Nat}

theorem LogOk.extent_ge (h : LogOk w) (hc : c ∈ w.log) : c.base + kBlockHeader ≤ c.extent := by
  have := (h.block c hc).length
  unfold CommitRec.extent
  omega

theorem LogOk.header_end (h : LogOk w) (hc : c ∈ w.log) (hl : c.left = true) :
    c.base + kBlockHeader ≤ w.file.size := by
  have hlen := congrArg List.length (h.left c hc hl)
  have hblock := (h.block c hc).length
  rw [DataFile.length_read, List.length_take] at hlen
  have : kBlockHeader = 64 := rfl
  omega

/-- Of two headers on disk one lies past the extent of the other. -/
theorem LogOk.apart (h : LogOk w) (hc : c ∈ w.log) (hc' : c' ∈ w.log) (hl : c.left = true)
    (hl' : c'.left = true) : c = c' ∨ c.extent ≤ c'.base ∨ c'.extent ≤ c.base := by
  have hpair : w.log.Pairwise fun a b =>
      a.left = true → b.left = true → a = b ∨ a.extent ≤ b.base ∨ b.extent ≤ a.base :=
    h.order.imp fun hab ha _ => Or.inr (Or.inl (hab ha))
  have hflip : w.log.Pairwise (flip fun a b : CommitRec =>
      a.left = true → b.left = true → a = b ∨ a.extent ≤ b.base ∨ b.extent ≤ a.base) :=
    h.order.imp fun hab _ hb => Or.inr (Or.inr (hab hb))
  exact hpair.forall_of_forall_of_flip (fun _ _ _ _ => Or.inl rfl) hflip hc hc' hl hl'

/-- A block's header as it reads back. -/
theorem LogOk.readHeader (h : LogOk w) (hc : c ∈ w.log) (hl : c.left = true) :
    SlotStore.readHeader w.file w.storeId c.base =
      some { blockLen := c.block.length, n := c.entries.length,
             entsCrc := (crc32c (tableBytes c.entries)).toNat } := by
  have hb := h.block c hc
  obtain ⟨hs, -, hend⟩ := h.sized c hc
  have hn : c.entries.length = c.recs.length := by rw [hb.entries_eq, length_makeEntries]
  rw [hn]
  refine readHeader_of_block ((h.left c hc hl).trans hb.header) ?_ hs.count
  unfold CommitRec.extent at hend
  omega

/-- The block can be delivered: all of its extent is in the file and its table passes. -/
def readable (w : SlotWorld) (c : CommitRec) : Bool :=
  c.left && decide (c.extent ≤ w.file.size) &&
    decide (crc32c (w.file.read (c.base + kBlockHeader) (c.entries.length * kEntry)) =
      crc32c (tableBytes c.entries))

/-- A block written whole can be delivered. -/
theorem LogOk.readable_of_ok (h : LogOk w) (hc : c ∈ w.log) (hok : c.ok = true) :
    readable w c = true := by
  obtain ⟨hl, hend, hread⟩ := h.whole c hc hok
  have hb := h.block c hc
  have hn : c.entries.length = c.recs.length := by rw [hb.entries_eq, length_makeEntries]
  have htable : w.file.read (c.base + kBlockHeader) (c.entries.length * kEntry) =
      tableBytes c.entries := by
    have hlen := hb.length
    have hdrop := DataFile.drop_read w.file c.base c.block.length kBlockHeader
    have htake := DataFile.take_read w.file (c.base + kBlockHeader)
      (c.block.length - kBlockHeader) (c.entries.length * kEntry)
    rw [Nat.min_eq_left (by rw [hn]; omega)] at htake
    rw [← htake, ← hdrop, hread, hn]
    exact hb.table
  simp [readable, hl, hend, htable]

/-! ### One turn of the scan -/

variable {s : Scan} {r : SlotStore}

/-- On a boundary without a block the scan moves to the next one. -/
theorem scanStep_none (htells : CrcTells w) (hal : s.pos % kAlign = 0)
    (hfirst : w.firstBlock ≤ s.pos) (hno : ∀ c ∈ w.log, c.left = true → c.base ≠ s.pos) :
    scanStep w.file w.storeId w.file.size s = { s with pos := s.pos + kAlign } := by
  unfold scanStep
  cases hread : SlotStore.readHeader w.file w.storeId s.pos with
  | none => rfl
  | some h =>
      obtain ⟨c, hc, hl, hbase⟩ := htells.header s.pos hal hfirst h hread
      exact absurd hbase (hno c hc hl)

/-- The entries a block on disk gives. -/
theorem LogOk.blockEntries (h : LogOk w) (htells : CrcTells w) (hc : c ∈ w.log)
    (hl : c.left = true) (hend : c.extent ≤ w.file.size) :
    SlotStore.blockEntries w.file c.base
        { blockLen := c.block.length, n := c.entries.length,
          entsCrc := (crc32c (tableBytes c.entries)).toNat } =
      if readable w c then some c.entries else none := by
  have hb := h.block c hc
  obtain ⟨hs, hne, hend'⟩ := h.sized c hc
  have hn : c.entries.length = c.recs.length := by rw [hb.entries_eq, length_makeEntries]
  have hpos : c.entries.length ≠ 0 := by
    rw [hn]
    exact fun h0 => hne (List.length_eq_zero_iff.1 h0)
  have hlen : (w.file.read (c.base + kBlockHeader) (c.entries.length * kEntry)).length =
      c.entries.length * kEntry := by
    have hblock := hb.length
    unfold CommitRec.extent at hend
    rw [DataFile.length_read, hn]
    omega
  unfold SlotStore.blockEntries
  simp only
  by_cases hcrc : crc32c (w.file.read (c.base + kBlockHeader) (c.entries.length * kEntry)) =
      crc32c (tableBytes c.entries)
  · have htable := htells.table c hc hl hlen hcrc
    have hread : readable w c = true := by simp [readable, hl, hend, hcrc]
    rw [hread, if_pos rfl, if_neg (by rw [htable, length_tableBytes]; simp), htable,
      filterMap_entryAt (fun e he => (hb.fits hs hend' he).1)
        (fun e he => (hb.fits hs hend' he).2)]
  · have hread : readable w c = false := by simp [readable, hcrc]
    have hne : (crc32c (w.file.read (c.base + kBlockHeader) (c.entries.length * kEntry))).toNat ≠
        (crc32c (tableBytes c.entries)).toNat := fun heq => hcrc (UInt32.toNat_inj.1 heq)
    rw [hread, if_pos ⟨hpos, Or.inr hne⟩]
    rfl

/-- On a block the scan takes note of its extent; it delivers the block or moves on. -/
theorem scanStep_block (h : LogOk w) (htells : CrcTells w) (hc : c ∈ w.log) (hl : c.left = true)
    (hbase : c.base = s.pos) :
    scanStep w.file w.storeId w.file.size s =
      if readable w c then
        { claimedEnd := max s.claimedEnd c.extent
          pos := alignUp c.extent
          out := s.out ++ c.entries }
      else { s with claimedEnd := max s.claimedEnd c.extent, pos := s.pos + kAlign } := by
  have hb := h.block c hc
  obtain ⟨hs, -, -⟩ := h.sized c hc
  have hn : c.entries.length = c.recs.length := by rw [hb.entries_eq, length_makeEntries]
  have hblock := hb.length
  have htotal := hs.total
  have hclaim : kBlockHeader ≤ c.block.length ∧ c.block.length < 2 ^ 40 := by omega
  have hext : s.pos + c.block.length = c.extent := by rw [← hbase, CommitRec.extent]
  unfold scanStep
  rw [← hbase, h.readHeader hc hl]
  simp only [if_pos hclaim]
  rw [hbase, hext, hn]
  by_cases hend : c.extent ≤ w.file.size
  · rw [if_neg (by omega), ← hbase, ← hn, h.blockEntries htells hc hl hend]
    split
    · rename_i hnone
      have hread : readable w c = false := by
        by_contra hne
        rw [Bool.not_eq_false] at hne
        simp [hne] at hnone
      simp [hread]
    · rename_i es hsome
      have hread : readable w c = true := by
        by_contra hne
        simp [hne] at hsome
      simp only [hread, if_true, Option.some.injEq] at hsome ⊢
      rw [hsome]
  · rw [if_pos (by omega)]
    have hread : readable w c = false := by simp [readable, hend]
    simp [hread]

/-! ### The whole scan -/

/-- The blocks a scan from `lo` has delivered when it stands at `hi`. -/
def between (w : SlotWorld) (lo hi : Nat) (c : CommitRec) : Bool :=
  readable w c && decide (lo ≤ c.base) && decide (c.base < hi)

/-- What the scan of a reader at `r` has reached. -/
structure ScanOk (w : SlotWorld) (r : SlotStore) (s : Scan) : Prop where
  aligned : s.pos % kAlign = 0
  ge : r.readOff ≤ s.pos
  bound : s.pos ≤ alignUp w.file.size
  claimed : ∀ c ∈ w.log, c.left = true → c.base < s.pos → c.extent ≤ s.claimedEnd
  out : s.out = (w.log.filter (between w r.readOff s.pos)).flatMap CommitRec.entries

theorem readable_left (h : readable w c = true) : c.left = true := by
  simp only [readable, Bool.and_eq_true] at h
  exact h.1.1

/-- Selected headers stand in the file in commit order. -/
theorem LogOk.ascending (h : LogOk w) {q : CommitRec → Bool}
    (hq : ∀ c ∈ w.log, q c = true → c.left = true) :
    w.log.Pairwise fun a b => q a = true → q b = true → a.base < b.base := by
  refine (List.Pairwise.and_mem.1 h.order).imp ?_
  rintro a b ⟨ha, -, hab⟩ hqa -
  have hext := h.extent_ge ha
  have := hab (hq a ha hqa)
  have : 0 < kBlockHeader := by decide
  omega

theorem between_left (h : between w lo hi c = true) : c.left = true := by
  simp only [between, Bool.and_eq_true] at h
  exact readable_left h.1.1

/-- Past boundaries without a deliverable block nothing new is delivered. -/
theorem filter_between_same (hle : pos ≤ pos')
    (hno : ∀ x ∈ w.log, readable w x = true → pos ≤ x.base → ¬ x.base < pos') :
    w.log.filter (between w lo pos') = w.log.filter (between w lo pos) := by
  apply List.filter_congr
  intro x hx
  by_cases hread : readable w x = true
  · have hiff : x.base < pos' ↔ x.base < pos := by
      constructor
      · intro hlt
        by_contra hge
        exact hno x hx hread (by omega) hlt
      · omega
    simp [between, hiff]
  · simp [between, hread]

/-- Past one deliverable block it is what was delivered before and that block. -/
theorem LogOk.filter_between_one (h : LogOk w) (hc : c ∈ w.log) (hread : readable w c = true)
    (hlo : lo ≤ c.base) (hlt : c.base < pos')
    (huniq : ∀ x ∈ w.log, readable w x = true → c.base ≤ x.base → x.base < pos' → x = c) :
    w.log.filter (between w lo pos') = w.log.filter (between w lo c.base) ++ [c] := by
  have hasc := h.ascending (q := between w lo pos') fun x _ hx => between_left hx
  have hlow : w.log.filter (fun x => between w lo pos' x && decide (x.base < c.base)) =
      w.log.filter (between w lo c.base) := by
    apply List.filter_congr
    intro x _
    rw [Bool.eq_iff_iff]
    simp only [between, Bool.and_eq_true, decide_eq_true_eq]
    constructor
    · rintro ⟨⟨⟨hr, hge⟩, -⟩, hx⟩
      exact ⟨⟨hr, hge⟩, hx⟩
    · rintro ⟨⟨hr, hge⟩, hx⟩
      exact ⟨⟨⟨hr, hge⟩, by omega⟩, hx⟩
  have hhigh : w.log.filter (fun x => between w lo pos' x && decide (c.base ≤ x.base)) = [c] := by
    have hpair : w.log.Pairwise fun a b =>
        (between w lo pos' a && decide (c.base ≤ a.base)) = true →
          (between w lo pos' b && decide (c.base ≤ b.base)) = true → a.base < b.base := by
      refine hasc.imp fun hab ha hb => ?_
      simp only [Bool.and_eq_true] at ha hb
      exact hab ha.1 hb.1
    apply filter_eq_singleton hpair hc
    · simp [between, hread, hlo, hlt]
    · intro x hx hsel
      simp only [between, Bool.and_eq_true, decide_eq_true_eq] at hsel
      exact huniq x hx hsel.1.1.1 hsel.2 hsel.1.2
  rw [filter_split hasc c.base, hlow, hhigh]

theorem scanStep_ok (h : LogOk w) (htells : CrcTells w) (hfirst : w.firstBlock ≤ r.readOff)
    (hs : ScanOk w r s) (hpos : s.pos + kBlockHeader ≤ w.file.size) :
    ScanOk w r (scanStep w.file w.storeId w.file.size s) ∧
      s.pos < (scanStep w.file w.storeId w.file.size s).pos := by
  have hnext : (s.pos + kAlign) % kAlign = 0 := by
    rw [Nat.add_mod_right]
    exact hs.aligned
  have hbound : s.pos + kAlign ≤ alignUp w.file.size := by
    have hal := hs.aligned
    have hmod := alignUp_mod w.file.size
    have hle := le_alignUp w.file.size
    unfold kAlign at *
    unfold kBlockHeader at hpos
    omega
  have hlt : s.pos < s.pos + kAlign := Nat.lt_add_of_pos_right (by decide)
  have hge := hs.ge
  -- A block between two boundaries is on the first.
  have hone : ∀ x ∈ w.log, s.pos ≤ x.base → x.base < s.pos + kAlign → x.base = s.pos := by
    intro x hx hxge hxlt
    have hal := hs.aligned
    have hmod := (h.base x hx).1
    unfold kAlign at *
    omega
  by_cases hblock : ∃ c ∈ w.log, c.left = true ∧ c.base = s.pos
  · obtain ⟨c, hc, hl, hbase⟩ := hblock
    have hext := h.extent_ge hc
    -- No other block starts inside the extent of this one, nor before it ends.
    have hapart : ∀ x ∈ w.log, x.left = true → s.pos ≤ x.base → x = c ∨ c.extent ≤ x.base := by
      intro x hx hxl hxge
      have hxext := h.extent_ge hx
      have hpos64 : 0 < kBlockHeader := by decide
      rcases h.apart hx hc hxl hl with heq | hbefore | hafter
      · exact Or.inl heq
      · omega
      · exact Or.inr hafter
    rw [scanStep_block h htells hc hl hbase]
    split
    · rename_i hread
      have hend : c.extent ≤ w.file.size := by
        simp only [readable, Bool.and_eq_true, decide_eq_true_eq] at hread
        exact hread.1.2
      have hgap : ∀ x ∈ w.log, x.left = true → s.pos ≤ x.base → x.base < alignUp c.extent →
          x = c := by
        intro x hx hxl hxge hxlt
        rcases hapart x hx hxl hxge with heq | hafter
        · exact heq
        · have := alignUp_le (h.base x hx).1 hafter
          omega
      have hup := le_alignUp c.extent
      have hpos64 : 0 < kBlockHeader := by decide
      refine ⟨⟨alignUp_mod _, by simp only; omega, alignUp_mono hend, ?_, ?_⟩,
        by simp only; omega⟩
      · intro x hx hxl hxlt
        by_cases hxpos : x.base < s.pos
        · exact Nat.le_trans (hs.claimed x hx hxl hxpos) (Nat.le_max_left _ _)
        · rw [hgap x hx hxl (by omega) hxlt]
          exact Nat.le_max_right _ _
      · simp only
        rw [h.filter_between_one hc hread (by omega) (by omega) fun x hx hxr hxge hxlt =>
          hgap x hx (readable_left hxr) (by omega) hxlt, hbase, hs.out]
        simp
    · rename_i hread
      refine ⟨⟨hnext, by simp only; omega, hbound, ?_, ?_⟩, hlt⟩
      · intro x hx hxl hxlt
        by_cases hxpos : x.base < s.pos
        · exact Nat.le_trans (hs.claimed x hx hxl hxpos) (Nat.le_max_left _ _)
        · have hxbase := hone x hx (by omega) hxlt
          rcases hapart x hx hxl (by omega) with heq | hafter
          · rw [heq]
            exact Nat.le_max_right _ _
          · have hpos64 : 0 < kBlockHeader := by decide
            omega
      · simp only
        rw [filter_between_same (Nat.le_of_lt hlt), hs.out]
        intro x hx hxr hxge hxlt
        have hxbase := hone x hx hxge hxlt
        rcases hapart x hx (readable_left hxr) hxge with heq | hafter
        · exact hread (heq ▸ hxr)
        · have hpos64 : 0 < kBlockHeader := by decide
          omega
  · have hno : ∀ c ∈ w.log, c.left = true → c.base ≠ s.pos := by
      intro c hc hl hbase
      exact hblock ⟨c, hc, hl, hbase⟩
    rw [scanStep_none htells hs.aligned (Nat.le_trans hfirst hge) hno]
    refine ⟨⟨hnext, by simp only; omega, hbound, ?_, ?_⟩, hlt⟩
    · intro x hx hl hxlt
      refine hs.claimed x hx hl ?_
      by_contra hxge
      exact hno x hx hl (hone x hx (by omega) hxlt)
    · simp only
      rw [filter_between_same (Nat.le_of_lt hlt), hs.out]
      intro x hx hxr hxge hxlt
      exact hno x hx (readable_left hxr) (hone x hx hxge hxlt)

theorem scan_ok (h : LogOk w) (htells : CrcTells w) (hfirst : w.firstBlock ≤ r.readOff)
    (fuel : Nat) (hs : ScanOk w r s) (hfuel : w.file.size ≤ s.pos + fuel) :
    ScanOk w r (scan w.file w.storeId w.file.size fuel s) ∧
      w.file.size < (scan w.file w.storeId w.file.size fuel s).pos + kBlockHeader := by
  have hpos64 : 0 < kBlockHeader := by decide
  induction fuel generalizing s with
  | zero => exact ⟨hs, by simp only [scan]; omega⟩
  | succ fuel ih =>
      unfold scan
      split
      · rename_i hpos
        obtain ⟨hok, hlt⟩ := scanStep_ok h htells hfirst hs hpos
        exact ih hok (by omega)
      · exact ⟨hs, by omega⟩

/-! ### Readers -/

/-- A read of new blocks gives the reader every block it had still to be given. -/
theorem ReaderOk.read {r : SlotReader} (hr : ReaderOk w r) (h : LogOk w) (htells : CrcTells w) :
    ReaderOk w { r with
      st := (r.st.readBlocks w.file w.storeId w.file.size).1
      delivered := r.delivered ++ (r.st.readBlocks w.file w.storeId w.file.size).2 } ∧
      w.file.size < (r.st.readBlocks w.file w.storeId w.file.size).1.readOff + kBlockHeader := by
  have hstart : ScanOk w r.st { pos := r.st.readOff, claimedEnd := r.st.claimedEnd } := by
    refine ⟨hr.aligned, Nat.le_refl _, hr.bound, hr.claimed, ?_⟩
    have hnone : w.log.filter (between w r.st.readOff r.st.readOff) = [] := by
      rw [List.filter_eq_nil_iff]
      intro x _ hx
      simp only [between, Bool.and_eq_true, decide_eq_true_eq] at hx
      omega
    rw [hnone]
    rfl
  obtain ⟨hs, hend⟩ := scan_ok h htells hr.first w.file.size hstart (by simp only; omega)
  unfold SlotStore.readBlocks
  simp only
  generalize scan w.file w.storeId w.file.size w.file.size
    { pos := r.st.readOff, claimedEnd := r.st.claimedEnd } = s at hs hend
  have hge := hs.ge
  rw [Nat.max_eq_right hge]
  refine ⟨⟨hs.aligned, Nat.le_trans hr.first hge, hs.bound, hs.claimed, ?_, ?_⟩, hend⟩
  · intro x hx
    obtain ⟨hmem, hlt⟩ := hr.own x hx
    exact ⟨hmem, Nat.lt_of_lt_of_le hlt hge⟩
  obtain ⟨p, hp, hsel, hall⟩ := hr.delivered
  let q : CommitRec → Bool := fun x =>
    p x || (decide (x ∈ w.log) && between w r.st.readOff s.pos x)
  have hq : ∀ x, q x = true → x.left = true ∧ x.base < s.pos ∧ x ∈ w.log ∧ x ∉ r.own := by
    intro x hx
    simp only [q, Bool.or_eq_true, Bool.and_eq_true, decide_eq_true_eq] at hx
    rcases hx with hx | ⟨hmem, hx⟩
    · obtain ⟨hl, hlt, hmem, hown⟩ := hsel x hx
      exact ⟨hl, by omega, hmem, hown⟩
    · have hl := between_left hx
      simp only [between, Bool.and_eq_true, decide_eq_true_eq] at hx
      refine ⟨hl, hx.2, hmem, fun hown => ?_⟩
      have := (hr.own x hown).2
      omega
  -- What was given before lies below the old offset, what is given now at or past it.
  have hsplit : w.log.filter q =
      w.log.filter p ++ w.log.filter (between w r.st.readOff s.pos) := by
    rw [filter_split (h.ascending fun x _ hx => (hq x hx).1) r.st.readOff]
    congr 1
    · apply List.filter_congr
      intro x _
      rw [Bool.eq_iff_iff]
      simp only [q, between, Bool.and_eq_true, Bool.or_eq_true, decide_eq_true_eq]
      constructor
      · rintro ⟨hx | ⟨-, ⟨-, hx⟩, -⟩, hlt⟩
        · exact hx
        · omega
      · intro hx
        exact ⟨Or.inl hx, (hsel x hx).2.1⟩
    · apply List.filter_congr
      intro x hmem
      rw [Bool.eq_iff_iff]
      simp only [q, Bool.and_eq_true, Bool.or_eq_true, decide_eq_true_eq]
      constructor
      · rintro ⟨hx | ⟨-, hx⟩, hge'⟩
        · have := (hsel x hx).2.1
          omega
        · exact hx
      · intro hx
        refine ⟨Or.inr ⟨hmem, hx⟩, ?_⟩
        simp only [between, Bool.and_eq_true, decide_eq_true_eq] at hx
        exact hx.1.2
  refine ⟨q, ?_, hq, ?_⟩
  · rw [hsplit, hp, hs.out, List.flatMap_append]
  · intro x hmem hok hlt hown
    simp only [q, Bool.or_eq_true, Bool.and_eq_true, decide_eq_true_eq]
    by_cases hbefore : x.base < r.st.readOff
    · exact Or.inl (hall x hmem hok hbefore hown)
    · right
      refine ⟨hmem, ?_⟩
      simp only [between, Bool.and_eq_true, decide_eq_true_eq]
      exact ⟨⟨h.readable_of_ok hmem hok, by omega⟩, hlt⟩

theorem ReaderOk.refresh {r : SlotReader} (hr : ReaderOk w r) (h : LogOk w)
    (htells : CrcTells w) {busy : Bool} :
    ReaderOk w { r with
      st := (r.st.refresh w.file w.storeId busy).1
      delivered := r.delivered ++ (r.st.refresh w.file w.storeId busy).2 } := by
  unfold SlotStore.refresh
  split
  · simpa using hr
  · exact (hr.read h htells).1

/-- A reader that has read to the end of the file has passed every header. -/
theorem LogOk.passed (h : LogOk w) {off : Nat} (hend : w.file.size < off + kBlockHeader)
    (hc : c ∈ w.log) (hl : c.left = true) : c.base < off := by
  have := h.header_end hc hl
  omega

/-! ### Writing a block -/

/-- The file after a write past its end: what was there is still there. -/
structure FileGrows (f f' : DataFile) : Prop where
  size : f.size ≤ f'.size
  byte : ∀ k < f.size, f'.byte k = f.byte k

theorem FileGrows.read {f f' : DataFile} (h : FileGrows f f') {a n : Nat} (hend : a + n ≤ f.size) :
    f'.read a n = f.read a n := by
  have hsize := h.size
  unfold DataFile.read
  rw [Nat.min_eq_left (by omega), Nat.min_eq_left (by omega)]
  apply List.map_congr_left
  intro k hk
  rw [List.mem_range] at hk
  exact h.byte _ (by omega)

theorem DataFile.grows_write {f : DataFile} {a : Nat} (b : Bytes) (ha : f.size ≤ a) :
    FileGrows f (f.write a b) := by
  unfold DataFile.write
  split
  · exact ⟨Nat.le_refl _, fun _ _ => rfl⟩
  · refine ⟨Nat.le_max_left _ _, ?_⟩
    intro k hk
    simp only
    rw [if_neg (by omega)]

theorem DataFile.grows_tear {f : DataFile} {a : Nat} (b : Bytes) (keep : Nat → Bool) {size : Nat}
    (ha : f.size ≤ a) (hsize : f.size ≤ size) : FileGrows f (f.tear a b keep size) := by
  refine ⟨hsize, ?_⟩
  intro k hk
  simp only [DataFile.tear]
  rw [if_neg (by omega), if_pos hk]

theorem DataFile.read_write (f : DataFile) (a : Nat) (b : Bytes) :
    (f.write a b).read a b.length = b := by
  unfold DataFile.write
  split
  · rename_i hempty
    rw [List.isEmpty_iff] at hempty
    simp [hempty, DataFile.read]
  · apply List.ext_getElem?
    intro k
    simp only [DataFile.read, List.getElem?_map]
    by_cases hk : k < b.length
    · rw [List.getElem?_range (by omega), Option.map_some, if_pos (by omega),
        Nat.add_sub_cancel_left, List.getD_eq_getElem?_getD, List.getElem?_eq_getElem hk]
      rfl
    · rw [List.getElem?_eq_none (by simp; omega), List.getElem?_eq_none (by omega)]
      rfl

/-- A new block past everything the file holds and every header claims. -/
structure NewBlock (w w' : SlotWorld) (c : CommitRec) : Prop where
  storeId : w'.storeId = w.storeId
  firstBlock : w'.firstBlock = w.firstBlock
  log : w'.log = w.log ++ [c]
  grows : FileGrows w.file w'.file
  base : c.base % kAlign = 0 ∧ alignUp w.file.size ≤ c.base
  claims : ∀ x ∈ w.log, x.left = true → x.extent ≤ c.base
  block : BlockOf w.storeId c.base c.recs c.block c.entries
  sized : Sized c.recs ∧ c.recs ≠ [] ∧ c.extent < 2 ^ 63
  left : c.left = true → w'.file.read c.base kBlockHeader = c.block.take kBlockHeader
  whole : c.ok = true → c.left = true ∧ c.extent ≤ w'.file.size ∧
    w'.file.read c.base c.block.length = c.block

theorem LogOk.append (h : LogOk w) (hn : NewBlock w w' c) : LogOk w' := by
  have hmem : ∀ x, x ∈ w'.log ↔ x ∈ w.log ∨ x = c := by
    intro x
    rw [hn.log, List.mem_append, List.mem_singleton]
  constructor
  · rw [hn.firstBlock]
    exact Nat.le_trans h.first (alignUp_mono hn.grows.size)
  · intro x hx
    rw [hn.firstBlock]
    rcases (hmem x).1 hx with hx | rfl
    · exact h.base x hx
    · exact ⟨hn.base.1, Nat.le_trans h.first hn.base.2⟩
  · intro x hx
    rw [hn.storeId]
    rcases (hmem x).1 hx with hx | rfl
    · exact h.block x hx
    · exact hn.block
  · intro x hx
    rcases (hmem x).1 hx with hx | rfl
    · exact h.sized x hx
    · exact hn.sized
  · rw [hn.log, List.pairwise_append]
    refine ⟨h.order, List.pairwise_singleton _ _, ?_⟩
    intro x hx y hy hl
    rw [List.mem_singleton] at hy
    exact hy ▸ hn.claims x hx hl
  · intro x hx hl
    rcases (hmem x).1 hx with hx | rfl
    · rw [hn.grows.read (h.header_end hx hl)]
      exact h.left x hx hl
    · exact hn.left hl
  · intro x hx hok
    rcases (hmem x).1 hx with hx | rfl
    · obtain ⟨hl, hend, hread⟩ := h.whole x hx hok
      refine ⟨hl, Nat.le_trans hend hn.grows.size, ?_⟩
      rw [hn.grows.read hend]
      exact hread
    · exact hn.whole hok

theorem ReaderOk.append {r : SlotReader} (hr : ReaderOk w r) (hn : NewBlock w w' c) :
    ReaderOk w' r := by
  have hbase : r.st.readOff ≤ c.base := Nat.le_trans hr.bound hn.base.2
  obtain ⟨p, hp, hsel, hall⟩ := hr.delivered
  have hpc : p c = false := by
    by_contra hne
    rw [Bool.not_eq_false] at hne
    have := (hsel c hne).2.1
    omega
  refine ⟨hr.aligned, by rw [hn.firstBlock]; exact hr.first,
    Nat.le_trans hr.bound (alignUp_mono hn.grows.size), ?_, ?_, p, ?_, ?_, ?_⟩
  · intro x hx hl hlt
    rw [hn.log, List.mem_append, List.mem_singleton] at hx
    rcases hx with hx | rfl
    · exact hr.claimed x hx hl hlt
    · omega
  · intro x hx
    obtain ⟨hmem, hlt⟩ := hr.own x hx
    exact ⟨by rw [hn.log]; simp [hmem], hlt⟩
  · rw [hn.log, List.filter_append, List.filter_singleton, hpc, hp]
    simp
  · intro x hx
    obtain ⟨hl, hlt, hmem, hown⟩ := hsel x hx
    exact ⟨hl, hlt, by rw [hn.log]; simp [hmem], hown⟩
  · intro x hx hok hlt hown
    rw [hn.log, List.mem_append, List.mem_singleton] at hx
    rcases hx with hx | rfl
    · exact hall x hx hok hlt hown
    · omega

/-- The reader that wrote the block moves past it. -/
theorem ReaderOk.committed {r : SlotReader} (hr : ReaderOk w r) (h : LogOk w) (hn : NewBlock w w' c)
    (hend : w.file.size < r.st.readOff + kBlockHeader) (hwhole : c.extent ≤ w'.file.size) :
    ReaderOk w' { r with
      st := { readOff := alignUp c.extent, claimedEnd := max r.st.claimedEnd c.extent }
      own := c :: r.own } := by
  have hlog := h.append hn
  have hc : c ∈ w'.log := by rw [hn.log]; simp
  have hbase : r.st.readOff ≤ c.base := Nat.le_trans hr.bound hn.base.2
  have hext := hlog.extent_ge hc
  have hup := le_alignUp c.extent
  have hpos64 : 0 < kBlockHeader := by decide
  obtain ⟨p, hp, hsel, hall⟩ := (hr.append hn).delivered
  refine ⟨alignUp_mod _, ?_, alignUp_mono hwhole, ?_, ?_, p, hp, ?_, ?_⟩
  · have := hr.first
    rw [hn.firstBlock]
    simp only
    omega
  · intro x hx hl _
    rw [hn.log, List.mem_append, List.mem_singleton] at hx
    rcases hx with hx | rfl
    · exact Nat.le_trans (hr.claimed x hx hl (h.passed hend hx hl)) (Nat.le_max_left _ _)
    · exact Nat.le_max_right _ _
  · intro x hx
    rcases List.mem_cons.1 hx with rfl | hx
    · exact ⟨hc, by simp only; omega⟩
    · obtain ⟨hmem, hlt⟩ := hr.own x hx
      exact ⟨by rw [hn.log]; simp [hmem], by simp only; omega⟩
  · intro x hx
    obtain ⟨hl, hlt, hmem, hown⟩ := hsel x hx
    refine ⟨hl, by simp only; omega, hmem, ?_⟩
    rw [List.mem_cons, not_or]
    refine ⟨?_, hown⟩
    rintro rfl
    omega
  · intro x hx hok _ hown
    rw [List.mem_cons, not_or] at hown
    refine hall x hx hok ?_ hown.2
    rw [hn.log, List.mem_append, List.mem_singleton] at hx
    rcases hx with hx | rfl
    · exact h.passed hend hx (h.whole x hx hok).1
    · exact absurd rfl hown.1

/-! ### Every step -/

/-- What is assumed of every step: the CRC tells contents apart, and a commit is given records that
fit their fields and a block below 1 TiB. -/
structure SlotCond (w : SlotWorld) (a : SlotAct) : Prop where
  tells : CrcTells w
  sized : ∀ h recs taken outcome, a = .commit h recs taken outcome → Sized recs

theorem sum_filter_le (recs : List SlotRecord) (p : SlotRecord → Bool) :
    ((recs.filter p).map fun r => r.bytes.length).sum ≤
      (recs.map fun r => r.bytes.length).sum := by
  induction recs with
  | nil => simp
  | cons r recs ih =>
      rw [List.filter_cons]
      split
      · simp only [List.map_cons, List.sum_cons]
        omega
      · simp only [List.map_cons, List.sum_cons]
        omega

theorem SlotStore.Sized.filter {recs : List SlotRecord} (h : Sized recs) (p : SlotRecord → Bool) :
    Sized (recs.filter p) := by
  have hlen := List.length_filter_le p recs
  have hsum := sum_filter_le recs p
  have hmul : (recs.filter p).length * kEntry ≤ recs.length * kEntry := Nat.mul_le_mul_right _ hlen
  have htotal := h.total
  refine ⟨Nat.lt_of_le_of_lt hlen h.count, ?_, by omega⟩
  intro r hr
  exact h.each r (List.mem_of_mem_filter hr)

/-- The readers of a store in which one of them was replaced. -/
theorem StoreOk.setReader (h : StoreOk w) {k : Nat} {o : Option SlotReader}
    (ho : ∀ r, o = some r → ReaderOk w r) : StoreOk (w.setReader k o) := by
  refine ⟨⟨h.log.first, h.log.base, h.log.block, h.log.sized, h.log.order, h.log.left,
    h.log.whole⟩, ?_⟩
  intro k' r hr
  have hok : ReaderOk w r := by
    simp only [SlotWorld.setReader] at hr
    by_cases hk : k' = k
    · subst hk
      rw [Function.update_self] at hr
      exact ho r hr
    · rw [Function.update_of_ne hk] at hr
      exact h.readers k' r hr
  exact ⟨hok.aligned, hok.first, hok.bound, hok.claimed, hok.own, hok.delivered⟩

/-- A new block, and a reader that has read to the end and wrote it or was there when it was cut. -/
theorem storeOk_newBlock (h : StoreOk w) (hn : NewBlock w w' c) {k : Nat} {o : Option SlotReader}
    (hreaders : w'.readers = Function.update w.readers k o) (ho : ∀ r, o = some r → ReaderOk w' r) :
    StoreOk w' := by
  refine ⟨h.log.append hn, ?_⟩
  intro k' r hr
  rw [hreaders] at hr
  by_cases hk : k' = k
  · subst hk
    rw [Function.update_self] at hr
    exact ho r hr
  · rw [Function.update_of_ne hk] at hr
    exact (h.readers k' r hr).append hn

theorem storeOk_writeBlock (h : StoreOk w) {k : Nat} {r : SlotReader} {write : List SlotRecord}
    {outcome : CommitEnd} (hr : ReaderOk w r) (hend : w.file.size < r.st.readOff + kBlockHeader)
    (hs : Sized write) (hne : write ≠ [])
    (hstep : w.writeBlock k r (alignUp (max w.file.size (max r.st.readOff r.st.claimedEnd))) write
      outcome = some w') : StoreOk w' := by
  obtain ⟨base, hbase⟩ : ∃ b, b = alignUp (max w.file.size (max r.st.readOff r.st.claimedEnd)) :=
    ⟨_, rfl⟩
  rw [← hbase] at hstep
  have hle : max w.file.size (max r.st.readOff r.st.claimedEnd) ≤ base := hbase ▸ le_alignUp _
  have hal : base % kAlign = 0 := hbase ▸ alignUp_mod _
  have hsize : alignUp w.file.size ≤ base := alignUp_le hal (by omega)
  have hclaims : ∀ x ∈ w.log, x.left = true → x.extent ≤ base := by
    intro x hx hl
    have := hr.claimed x hx hl (h.log.passed hend hx hl)
    omega
  have hblock := @blockBytes_spec w.storeId base write hs
  unfold SlotWorld.writeBlock at hstep
  rcases hblk : blockBytes w.storeId base write with ⟨blk, entries⟩
  rw [hblk] at hstep hblock
  simp only at hstep hblock
  split at hstep
  · cases hstep
    exact h.setReader (by rintro r' ⟨⟩; exact hr)
  · rename_i hfits
    have hfile : w.file.size ≤ base := by omega
    have hlen : kBlockHeader ≤ blk.length := by
      have := hblock.length
      omega
    cases outcome with
    | through =>
        have hread := DataFile.read_write w.file base blk
        have hgrown : (w.file.write base blk).size = max w.file.size (base + blk.length) := by
          unfold DataFile.write
          rw [if_neg]
          rw [List.isEmpty_iff]
          rintro rfl
          simp [kBlockHeader] at hlen
        rw [Option.some.injEq] at hstep
        have hn : NewBlock w w' ⟨base, blk, entries, write, true, true⟩ := by
          subst hstep
          refine ⟨rfl, rfl, rfl, DataFile.grows_write blk hfile, ⟨hal, hsize⟩, hclaims, hblock,
            ⟨hs, hne, ?_⟩, ?_, ?_⟩
          · simpa [CommitRec.extent] using hfits
          · intro _
            have htake := DataFile.take_read (w.file.write base blk) base blk.length kBlockHeader
            rw [hread, Nat.min_eq_left hlen] at htake
            exact htake.symm
          · intro _
            refine ⟨rfl, ?_, hread⟩
            simp only [CommitRec.extent]
            omega
        have hreaders := congrArg SlotWorld.readers hstep
        refine storeOk_newBlock h hn hreaders.symm ?_
        intro r' hr'
        have hdone := hr.committed h.log hn hend (hn.whole rfl).2.1
        rw [Option.some.injEq] at hr'
        simp only [CommitRec.extent] at hdone
        rw [← hr']
        exact hdone
    | cut keep size alive =>
        simp only at hstep
        split at hstep
        · rename_i hsz
          rw [Option.some.injEq] at hstep
          have hn : NewBlock w w' ⟨base, blk, entries, write, false,
              decide ((w.file.tear base blk keep size).read base kBlockHeader =
                blk.take kBlockHeader)⟩ := by
            subst hstep
            refine ⟨rfl, rfl, rfl, DataFile.grows_tear blk keep hfile hsz.1, ⟨hal, hsize⟩, hclaims,
              hblock, ⟨hs, hne, ?_⟩, ?_, by simp⟩
            · simpa [CommitRec.extent] using hfits
            · intro hl
              simpa using hl
          have hreaders := congrArg SlotWorld.readers hstep
          refine storeOk_newBlock h hn hreaders.symm ?_
          intro r' hr'
          split at hr'
          · cases hr'
            exact hr.append hn
          · simp at hr'
        · simp at hstep

theorem storeOk_step {a : SlotAct} (h : StoreOk w) (hcond : SlotCond w a)
    (hstep : w.step a = some w') : StoreOk w' := by
  cases a with
  | openStore k =>
      simp only [SlotWorld.step] at hstep
      split at hstep
      · cases hstep
        refine h.setReader ?_
        rintro r ⟨⟩
        refine ⟨alignUp_mod _, Nat.le_refl _, h.log.first, ?_, by simp, fun _ => false, ?_, by simp, ?_⟩
        · intro c hc _ hlt
          have := (h.log.base c hc).2
          simp only at hlt
          omega
        · simp
        · intro c hc _ hlt
          have := (h.log.base c hc).2
          simp only at hlt
          omega
      · simp at hstep
  | refresh k busy =>
      obtain ⟨r, hr, rfl⟩ := SlotWorld.refresh_inv hstep
      refine h.setReader ?_
      intro r' hr'
      rw [Option.some.injEq] at hr'
      exact hr' ▸ (h.readers k r hr).refresh h.log hcond.tells
  | commit k recs taken outcome =>
      obtain ⟨r, hr, hc⟩ := Option.bind_eq_some_iff.1 hstep
      obtain ⟨hok, hend⟩ := (h.readers k r hr).read h.log hcond.tells
      have hs := hcond.sized k recs taken outcome rfl
      unfold SlotWorld.commit at hc
      split at hc
      · cases hc
        exact h
      · simp only at hc
        split at hc
        · cases hc
          exact h.setReader (by rintro r' ⟨⟩; exact hok)
        · rename_i hne
          refine storeOk_writeBlock h hok hend (hs.filter _) ?_ hc
          simpa using hne
  | close k =>
      cases hstep
      exact h.setReader (by simp)
  | dropStore =>
      cases hstep
      exact ⟨⟨h.log.first, h.log.base, h.log.block, h.log.sized, h.log.order, h.log.left,
        h.log.whole⟩, fun k r hr => by
          obtain ⟨h₁, h₂, h₃, h₄, h₅, h₆⟩ := h.readers k r hr
          exact ⟨h₁, h₂, h₃, h₄, h₅, h₆⟩⟩

end Blocks

/-! ### The log, over every run -/

/-- A store just created: its header and layout, and no block. -/
def SlotWorld.created (storeId : UInt64) (blobLen : Nat) (declined : Bool) (bytes : Nat → UInt8) :
    SlotWorld :=
  { storeId := storeId
    blobLen := blobLen
    declined := declined
    file :=
      { size := kHeaderBytes + blobLen
        byte := fun k => if k < kHeaderBytes + blobLen then bytes k else 0 } }

theorem storeOk_run {storeId : UInt64} {blobLen : Nat} {declined : Bool} {bytes : Nat → UInt8}
    {acts : List SlotAct} {w : SlotWorld}
    (halong : Along SlotWorld.step SlotCond (.created storeId blobLen declined bytes) acts)
    (hrun : exec SlotWorld.step (.created storeId blobLen declined bytes) acts = some w) :
    StoreOk w := by
  have hstart : StoreOk (.created storeId blobLen declined bytes) := by
    refine ⟨⟨Nat.le_refl _, ?_, ?_, ?_, List.Pairwise.nil, ?_, ?_⟩, ?_⟩ <;>
      simp [SlotWorld.created]
  exact exec_invariant_along StoreOk (fun _ _ _ h hcond hstep => storeOk_step h hcond hstep) hstart
    halong hrun

/-- What holds of a store at any moment.  `delivered`: a reader has been given the entries of blocks
of the log, each block at most once and in commit order, and none of its own.  `refreshed`: once it
has the lock and reads, of every block that was written whole.  `apart`: a block lies past the
extent that any header left before it claims.  `given` and `back`: an entry's record reads as some
commit was given it for that slot, and that of a block written whole does read, unless kept. -/
structure SlotLogCorrect (w : SlotWorld) : Prop where
  delivered : ∀ h r, w.readers h = some r → ∃ p : CommitRec → Bool,
    r.delivered = (w.log.filter p).flatMap CommitRec.entries ∧ ∀ c ∈ r.own, p c = false
  refreshed : ∀ h w', w.step (.refresh h false) = some w' → ∃ (r : SlotReader) (p : CommitRec → Bool),
    w'.readers h = some r ∧ r.delivered = (w'.log.filter p).flatMap CommitRec.entries ∧
      (∀ c ∈ r.own, p c = false) ∧ ∀ c ∈ w'.log, c.ok = true → c ∉ r.own → p c = true
  apart : w.log.Pairwise fun c c' => ∀ hd, c.left = true →
    readHeader w.file w.storeId c.base = some hd → c.base + hd.blockLen ≤ c'.base
  given : ∀ c ∈ w.log, ∀ e ∈ c.entries, ∀ out, readRecord w.file w.storeId e = some out →
    ∃ r ∈ c.recs, r.slot = e.slot ∧ r.bytes = out
  back : ∀ c ∈ w.log, c.ok = true → ∀ (i : Nat) (r : SlotRecord) (e : SlotEntry),
    c.recs[i]? = some r → c.entries[i]? = some e → r.kind ≠ .kept →
      readRecord w.file w.storeId e = some r.bytes

section Conclusions

variable {w : SlotWorld}

theorem ReaderOk.deliveredOnce {r : SlotReader} (hr : ReaderOk w r) :
    ∃ p : CommitRec → Bool, r.delivered = (w.log.filter p).flatMap CommitRec.entries ∧
      (∀ c ∈ r.own, p c = false) ∧
      ∀ c ∈ w.log, c.ok = true → c.base < r.st.readOff → c ∉ r.own → p c = true := by
  obtain ⟨p, hp, hsel, hall⟩ := hr.delivered
  refine ⟨p, hp, ?_, hall⟩
  intro c hc
  by_contra hne
  rw [Bool.not_eq_false] at hne
  exact (hsel c hne).2.2.2 hc

theorem StoreOk.refreshed (h : StoreOk w) (htells : CrcTells w) {k : Nat}
    (hstep : w.step (.refresh k false) = some w') :
    ∃ (r : SlotReader) (p : CommitRec → Bool), w'.readers k = some r ∧
      r.delivered = (w'.log.filter p).flatMap CommitRec.entries ∧ (∀ c ∈ r.own, p c = false) ∧
        ∀ c ∈ w'.log, c.ok = true → c ∉ r.own → p c = true := by
  obtain ⟨r, hr, rfl⟩ := SlotWorld.refresh_inv hstep
  have hok := @ReaderOk.refresh w r (h.readers k r hr) h.log htells false
  have hend : w.file.size < (r.st.refresh w.file w.storeId false).1.readOff + kBlockHeader := by
    unfold SlotStore.refresh
    split
    · rename_i hshort
      simpa using hshort
    · exact ((h.readers k r hr).read h.log htells).2
  obtain ⟨p, hp, hown, hall⟩ := hok.deliveredOnce
  refine ⟨_, p, Function.update_self .., hp, hown, ?_⟩
  intro c hc hcok hcown
  exact hall c hc hcok (h.log.passed hend hc (h.log.whole c hc hcok).1) hcown

theorem LogOk.given (h : LogOk w) (htells : CrcTells w) {c : CommitRec} (hc : c ∈ w.log)
    {e : SlotEntry} (he : e ∈ c.entries) {out : Bytes}
    (hread : readRecord w.file w.storeId e = some out) :
    ∃ r ∈ c.recs, r.slot = e.slot ∧ r.bytes = out := by
  obtain ⟨i, hi⟩ := List.mem_iff_getElem?.1 he
  obtain ⟨r, hr, hof, -⟩ := (h.block c hc).entry (h.sized c hc).1 hi
  unfold readRecord at hread
  simp only at hread
  split at hread
  · simp at hread
  · rename_i hk
    split at hread
    · rename_i hcheck
      cases hread
      have hkind : r.kind ≠ .kept := hof.kind ▸ hk
      refine ⟨r, List.mem_of_getElem? hr, hof.slot.symm, ?_⟩
      refine (htells.record c hc i r e hr hi hkind hcheck.1 ?_).symm
      rw [hcheck.2, hof.crc hkind]
    · simp at hread

theorem LogOk.back (h : LogOk w) {c : CommitRec} (hc : c ∈ w.log) (hok : c.ok = true) {i : Nat}
    {r : SlotRecord} {e : SlotEntry} (hr : c.recs[i]? = some r) (he : c.entries[i]? = some e)
    (hk : r.kind ≠ .kept) : readRecord w.file w.storeId e = some r.bytes := by
  obtain ⟨-, -, hwhole⟩ := h.whole c hc hok
  obtain ⟨r', hr', hof, hin⟩ := (h.block c hc).entry (h.sized c hc).1 he
  obtain rfl : r' = r := Option.some.inj (hr'.symm.trans hr)
  obtain ⟨hlo, hhi, hslice⟩ := hin hk
  have hbytes : w.file.read e.off e.len = r'.bytes := by
    have hdrop := DataFile.drop_read w.file c.base c.block.length (e.off - c.base)
    have htake := DataFile.take_read w.file (c.base + (e.off - c.base))
      (c.block.length - (e.off - c.base)) e.len
    rw [Nat.min_eq_left (by omega), ← hdrop, hwhole, Nat.add_sub_cancel' hlo] at htake
    rw [← htake]
    exact hslice
  have hkind : e.kind ≠ .kept := hof.kind ▸ hk
  unfold readRecord
  simp only
  rw [if_neg hkind, hbytes, if_pos ⟨(hof.len hk).symm, by rw [hof.slot, hof.crc hk]⟩]

end Conclusions

/-- The slot store's log is right at every moment of every run: of any number of processes that
read and commit, with commits cut short anywhere. -/
theorem slot_log_delivers {storeId : UInt64} {blobLen : Nat} {declined : Bool}
    {bytes : Nat → UInt8} {acts : List SlotAct} {w : SlotWorld}
    (halong : Along SlotWorld.step SlotCond (.created storeId blobLen declined bytes) acts)
    (hrun : exec SlotWorld.step (.created storeId blobLen declined bytes) acts = some w)
    (htells : CrcTells w) : SlotLogCorrect w := by
  have h := storeOk_run halong hrun
  refine ⟨?_, fun k w' hstep => h.refreshed htells hstep, ?_,
    fun c hc e he out hread => h.log.given htells hc he hread,
    fun c hc hok i r e hr he hk => h.log.back hc hok hr he hk⟩
  · intro k r hr
    obtain ⟨p, hp, hown, -⟩ := (h.readers k r hr).deliveredOnce
    exact ⟨p, hp, hown⟩
  · refine (List.Pairwise.and_mem.1 h.log.order).imp ?_
    rintro c c' ⟨hc, -, hle⟩ hd hl hread
    rw [h.log.readHeader hc hl] at hread
    cases hread
    exact hle hl

/-! ### A torn commit, a whole one and a kept slot -/

/-- `CrcTells`, evaluated on the boundaries inside the file. -/
def crcTellsCheck (w : SlotWorld) : Bool :=
  ((List.range (w.file.size / kAlign + 1)).all fun k =>
    (readHeader w.file w.storeId (k * kAlign)).isNone || w.log.any fun c =>
      c.left && decide (c.base = k * kAlign)) &&
  (w.log.all fun c =>
    let table := w.file.read (c.base + kBlockHeader) (c.entries.length * kEntry)
    decide (crc32c table ≠ crc32c (tableBytes c.entries)) ||
      decide (table = tableBytes c.entries)) &&
  w.log.all fun c => (c.recs.zip c.entries).all fun (r, e) =>
    let out := w.file.read e.off e.len
    decide (r.kind = .kept) ||
      decide (recordCrc w.storeId e.slot out ≠ recordCrc w.storeId r.slot r.bytes) ||
      decide (out = r.bytes)

theorem crcTellsCheck_sound {w : SlotWorld} (h : crcTellsCheck w = true) : CrcTells w := by
  simp only [crcTellsCheck, Bool.and_eq_true, List.all_eq_true] at h
  obtain ⟨⟨hheader, htable⟩, hrecord⟩ := h
  constructor
  · intro p hal _ hd hread
    have hin : p + kBlockHeader ≤ w.file.size := by
      unfold readHeader at hread
      simp only at hread
      split at hread
      · rename_i hok
        have hlen := hok.1
        rw [DataFile.length_read] at hlen
        unfold kBlockHeader at *
        omega
      · simp at hread
    have hk : p / kAlign ∈ List.range (w.file.size / kAlign + 1) := by
      rw [List.mem_range]
      unfold kAlign
      omega
    have hp : p / kAlign * kAlign = p := Nat.div_mul_cancel (Nat.dvd_of_mod_eq_zero hal)
    have := hheader _ hk
    rw [hp, hread] at this
    simpa using this
  · intro c hc _ _ hcrc
    simpa [hcrc] using htable c hc
  · intro c hc i r e hr he hk _ hcrc
    have hmem : (r, e) ∈ c.recs.zip c.entries := by
      refine List.mem_iff_getElem?.2 ⟨i, ?_⟩
      rw [List.getElem?_zip_eq_some]
      exact ⟨hr, he⟩
    simpa [hk, hcrc] using hrecord c hc (r, e) hmem

/-- `SlotCond`, evaluated. -/
def slotCheck (w : SlotWorld) (a : SlotAct) : Bool :=
  crcTellsCheck w &&
    match a with
    | .commit _ recs _ _ =>
        decide (recs.length < 2 ^ 32) && (recs.all fun r => decide (r.bytes.length < 2 ^ 32)) &&
          decide (kBlockHeader + recs.length * kEntry +
            (recs.map fun r => r.bytes.length).sum < 2 ^ 40)
    | _ => true

theorem slotCheck_sound {w : SlotWorld} {a : SlotAct} (h : slotCheck w a = true) :
    SlotCond w a := by
  simp only [slotCheck, Bool.and_eq_true] at h
  refine ⟨crcTellsCheck_sound h.1, ?_⟩
  rintro k recs taken outcome rfl
  have hsized := h.2
  simp only [Bool.and_eq_true, decide_eq_true_eq, List.all_eq_true] at hsized
  exact ⟨hsized.1.1, hsized.1.2, hsized.2⟩

theorem along_slotCond {w : SlotWorld} {acts : List SlotAct}
    (h : alongB SlotWorld.step slotCheck w acts = true) : Along SlotWorld.step SlotCond w acts :=
  along_of_check (fun _ => True) (fun _ => True) (fun _ _ _ _ _ _ => trivial)
    (fun _ _ _ _ => slotCheck_sound) trivial (fun _ _ => trivial) h

/-- A store with no layout. -/
def emptyStore : SlotWorld := .created 5 0 false fun _ => 0

/-- Of reader 0's commit only the header gets to disk; reader 1 commits past the extent it claims;
reader 0 reads. -/
def tornThenWhole : List SlotAct :=
  [.openStore 0, .openStore 1,
    .commit 0 [⟨7, .raw, [1, 2, 3]⟩] (fun _ => false) (.cut (fun _ => true) 4160 true),
    .commit 1 [⟨7, .zstd, [4, 5]⟩, ⟨8, .kept, []⟩] (fun _ => false) .through, .refresh 0 false]

set_option maxRecDepth 20000 in
theorem along_tornThenWhole : Along SlotWorld.step SlotCond emptyStore tornThenWhole :=
  along_slotCond (by decide +kernel)

set_option maxRecDepth 20000 in
/-- Both blocks are in the log, and some entry of the whole one does not read back. -/
theorem exec_tornThenWhole :
    ∃ w, exec SlotWorld.step emptyStore tornThenWhole = some w ∧ CrcTells w ∧
      w.log.map (fun c => (c.base, c.left, c.ok)) = [(4096, true, false), (8192, true, true)] ∧
        ∃ c ∈ w.log, c.ok = true ∧ ∃ e ∈ c.entries,
          (readRecord w.file w.storeId e).isSome = false := by
  have hobs : (exec SlotWorld.step emptyStore tornThenWhole).map (fun w =>
      crcTellsCheck w && decide (w.log.map (fun c => (c.base, c.left, c.ok)) =
        [(4096, true, false), (8192, true, true)]) && w.log.any fun c => c.ok &&
          c.entries.any fun e => !(readRecord w.file w.storeId e).isSome) = some true := by
    decide +kernel
  obtain ⟨w, hw, hobs⟩ := Option.map_eq_some_iff.1 hobs
  simp only [Bool.and_eq_true, decide_eq_true_eq, List.any_eq_true, Bool.not_eq_true'] at hobs
  obtain ⟨⟨hcrc, hlog⟩, hmissing⟩ := hobs
  exact ⟨w, hw, crcTellsCheck_sound hcrc, hlog, hmissing⟩

/-- A block behind a torn one reads back. -/
theorem whole_block_after_torn :
    ∃ w, exec SlotWorld.step emptyStore tornThenWhole = some w ∧ SlotLogCorrect w ∧
      w.log.map (fun c => (c.base, c.left, c.ok)) = [(4096, true, false), (8192, true, true)] := by
  obtain ⟨w, hw, hcrc, hlog, -⟩ := exec_tornThenWhole
  exact ⟨w, hw, slot_log_delivers along_tornThenWhole hw hcrc, hlog⟩

/-- A kept slot is committed without a record, and none reads back. -/
theorem kept_slot_has_no_record :
    ¬ ∀ (acts : List SlotAct) (w : SlotWorld), Along SlotWorld.step SlotCond emptyStore acts →
        exec SlotWorld.step emptyStore acts = some w → CrcTells w →
        ∀ c ∈ w.log, c.ok = true → ∀ e ∈ c.entries,
          (readRecord w.file w.storeId e).isSome = true := by
  intro hall
  obtain ⟨w, hw, hcrc, -, c, hc, hok, e, he, hmissing⟩ := exec_tornThenWhole
  have hread := hall _ w along_tornThenWhole hw hcrc c hc hok e he
  rw [hmissing] at hread
  cases hread

end UCache
