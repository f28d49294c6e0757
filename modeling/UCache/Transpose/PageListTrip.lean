/-
Module: UCache.Transpose.PageListTrip
Purpose: A page list in which the records of some ranges were rewritten in place reads as before, but
  for these ranges, whose pages are at their slots.
Trusted boundary: none
Main exports: shownPage, shownRange, RangeLaid
-/
import UCache.Transpose.PageSlots
import UCache.Transpose.WalkForward

namespace UCache

open Lib

/-! ### What a moved range reads as -/

/-- A page at its slot: as long as the decoded page, and followed by a checksum. -/
def shownPage (slots : List FillSlot) (pg : PageInfo) : PageInfo :=
  { pg with
    offset := slotFor slots pg.offset
    nbytes := pg.uncompressedBytes
    hasChecksum := true }

/-- A range in the shown file. -/
def shownRange (moved : ColumnRange → Bool) (slots : List FillSlot) (r : ColumnRange) :
    ColumnRange :=
  if moved r then { r with compressionSettings := 0, pages := r.pages.map (shownPage slots) } else r

/-! ### Page records -/

variable {p : Bytes} {c : LE} {n : Nat}

theorem nat_inv {pos v : Nat} (h : Walk.nat n ⟨p, pos⟩ = some (v, c)) :
    pos + n ≤ p.length ∧ v = ofLe (slice p pos n) ∧ c = ⟨p, pos + n⟩ := by
  obtain ⟨b, mid, hb, hv⟩ := bind_some_inv h
  obtain ⟨hlen, rfl, rfl⟩ := bytes_inv hb
  cases hv
  exact ⟨hlen, rfl, rfl⟩

theorem nat_eq {pos : Nat} (h : pos + n ≤ p.length) :
    Walk.nat n ⟨p, pos⟩ = some (ofLe (slice p pos n), ⟨p, pos + n⟩) :=
  bind_some (bytes_eq h) rfl

theorem int_inv {pos : Nat} {v : Int} (h : Walk.int n ⟨p, pos⟩ = some (v, c)) :
    pos + n ≤ p.length ∧ v = signed n (ofLe (slice p pos n)) ∧ c = ⟨p, pos + n⟩ := by
  obtain ⟨u, mid, hu, hv⟩ := bind_some_inv h
  obtain ⟨hlen, rfl, rfl⟩ := nat_inv hu
  cases hv
  exact ⟨hlen, rfl, rfl⟩

theorem int_eq {pos : Nat} (h : pos + n ≤ p.length) :
    Walk.int n ⟨p, pos⟩ = some (signed n (ofLe (slice p pos n)), ⟨p, pos + n⟩) :=
  bind_some (nat_eq h) rfl

theorem skip_inv {pos : Nat} {u : Unit} (h : Walk.skip n ⟨p, pos⟩ = some (u, c)) :
    pos + n ≤ p.length ∧ c = ⟨p, pos + n⟩ := by
  obtain ⟨b, mid, hb, hv⟩ := bind_some_inv h
  obtain ⟨hlen, rfl, rfl⟩ := bytes_inv hb
  cases hv
  exact ⟨hlen, rfl⟩

theorem skip_eq {pos : Nat} (h : pos + n ≤ p.length) :
    Walk.skip n ⟨p, pos⟩ = some ((), ⟨p, pos + n⟩) :=
  bind_some (bytes_eq h) rfl

/-- Decoded bytes of so many elements of this width. -/
def unpackedBytes (bits nElements : Nat) : Nat := if bits = 0 then 0 else (nElements * bits + 7) / 8

/-- What a page record is read from. -/
structure PageAt (bits : Nat) (p : Bytes) (pos : Nat) (pg : PageInfo) : Prop where
  inside : pos + 16 ≤ p.length
  count : pg.nElements = (signed 4 (ofLe (slice p pos 4))).natAbs
  record : pg.recordOffset = pos % 2 ^ 32
  unpacked : pg.uncompressedBytes = unpackedBytes bits pg.nElements

theorem readPage_inv {bits : Nat} {pos : Nat} {pg : PageInfo}
    (h : readPage bits ⟨p, pos⟩ = some (pg, c)) : PageAt bits p pos pg ∧ c = ⟨p, pos + 16⟩ := by
  obtain ⟨at_, mid₀, h0, h⟩ := bind_some_inv h
  cases h0
  obtain ⟨nElem, mid₁, h1, h⟩ := bind_some_inv h
  obtain ⟨-, rfl, rfl⟩ := int_inv h1
  obtain ⟨size, mid₂, h2, h⟩ := bind_some_inv h
  obtain ⟨-, rfl, rfl⟩ := int_inv h2
  split at h
  · cases h
  · obtain ⟨off, mid₃, h3, h⟩ := bind_some_inv h
    obtain ⟨hlen, rfl, rfl⟩ := nat_inv h3
    cases h
    exact ⟨⟨by omega, rfl, rfl, rfl⟩, rfl⟩

/-- A record that was rewritten for a slot. -/
theorem readPage_written {bits : Nat} {p' : Bytes} {pos : Nat} {pg : PageInfo}
    {slots : List FillSlot} (hat : PageAt bits p pos pg) (hlen : p'.length = p.length)
    (hpos : pos < 2 ^ 32) (hlo : 0 < pg.uncompressedBytes) (hhi : pg.uncompressedBytes < 2 ^ 31)
    (hslot : slotFor slots pg.offset < 2 ^ 64)
    (hw : ∀ w ∈ pageWrites slots pg, slice p' w.1 w.2.length = w.2) :
    readPage bits ⟨p', pos⟩ = some (shownPage slots pg, ⟨p', pos + 16⟩) := by
  have hrec : pg.recordOffset = pos := hat.record.trans (Nat.mod_eq_of_lt hpos)
  have hin := hat.inside
  simp only [pageWrites, List.mem_cons, List.not_mem_nil, or_false, forall_eq_or_imp, forall_eq,
    length_le, hrec] at hw
  obtain ⟨hcount, hsize, hoff⟩ := hw
  -- a page of some bytes has elements, and no more than a negative count can say
  have hpos : 0 < pg.nElements := by
    rcases Nat.eq_zero_or_pos pg.nElements with hzero | hpos
    · rw [hat.unpacked, hzero, unpackedBytes] at hlo
      split at hlo <;> omega
    · exact hpos
  have hmax : pg.nElements ≤ 2 ^ 31 := by
    rw [hat.count]
    have hlt := ofLe_lt (slice p pos 4)
    rw [length_slice, Nat.min_eq_left (by omega)] at hlt
    unfold signed
    split <;> omega
  have hneg : signed 4 (ofLe (slice p' pos 4)) = -(pg.nElements : Int) := by
    rw [hcount, ofLe_le, Nat.mod_eq_of_lt (by omega), signed, if_neg (by omega)]
    omega
  have hsz : signed 4 (ofLe (slice p' (pos + 4) 4)) = (pg.uncompressedBytes : Int) := by
    rw [hsize, ofLe_le, Nat.mod_eq_of_lt (by omega), signed, if_pos (by omega)]
  have hat8 : ofLe (slice p' (pos + 8) 8) = slotFor slots pg.offset := by
    rw [hoff, ofLe_le, Nat.mod_eq_of_lt (by omega)]
  refine bind_some here_eq ?_
  refine bind_some (int_eq (by omega)) ?_
  refine bind_some (int_eq (by omega)) ?_
  rw [hneg, hsz, if_neg (by omega)]
  refine bind_some (nat_eq (by omega)) ?_
  rw [hat8]
  have hun := hat.unpacked
  unfold unpackedBytes at hun
  simp only [shownPage, Int.natAbs_neg, Int.natAbs_natCast, Int.toNat_natCast, ← hun, hat.record,
    decide_eq_true (show -(pg.nElements : Int) < 0 by omega)]
  rfl

/-- Page records in a row: each where it starts, and in ascending order. -/
theorem times_readPage_inv {bits : Nat} (hsmall : p.length < 2 ^ 32) {pos : Nat}
    {pgs : List PageInfo} (h : Walk.times n (readPage bits) ⟨p, pos⟩ = some (pgs, c)) :
    pgs.length = n ∧ c = ⟨p, pos + 16 * n⟩ ∧
      (∀ pg ∈ pgs, PageAt bits p pg.recordOffset pg ∧ pos ≤ pg.recordOffset ∧
        pg.recordOffset + 16 ≤ pos + 16 * n) ∧
      pgs.Pairwise fun a b => a.recordOffset + 16 ≤ b.recordOffset := by
  induction n generalizing pos pgs c with
  | zero =>
      cases h
      exact ⟨rfl, rfl, by simp, .nil⟩
  | succ n ih =>
      obtain ⟨pg, mid₁, h1, h⟩ := bind_some_inv h
      obtain ⟨hat, rfl⟩ := readPage_inv h1
      obtain ⟨rest, mid₂, h2, h⟩ := bind_some_inv h
      obtain ⟨hlen, rfl, hall, hsorted⟩ := ih h2
      cases h
      have hin := hat.inside
      have hrec : pg.recordOffset = pos := hat.record.trans (Nat.mod_eq_of_lt (by omega))
      refine ⟨by simp [hlen], by simp only [LE.mk.injEq, true_and]; omega, ?_, ?_⟩
      · intro q hq
        rcases List.mem_cons.1 hq with rfl | hq
        · rw [hrec]
          exact ⟨hat, Nat.le_refl _, by omega⟩
        · obtain ⟨hq₁, hq₂, hq₃⟩ := hall q hq
          exact ⟨hq₁, by omega, by omega⟩
      · refine List.pairwise_cons.2 ⟨fun q hq => ?_, hsorted⟩
        have := (hall q hq).2.1
        omega

/-- Records in a row, each of which reads as `g` says. -/
theorem times_readPage_again {bits : Nat} {p' : Bytes} (hsmall : p.length < 2 ^ 32)
    {g : PageInfo → PageInfo} {pos : Nat} {pgs : List PageInfo}
    (h : Walk.times n (readPage bits) ⟨p, pos⟩ = some (pgs, c))
    (hg : ∀ pg ∈ pgs, readPage bits ⟨p', pg.recordOffset⟩ =
      some (g pg, ⟨p', pg.recordOffset + 16⟩)) :
    Walk.times n (readPage bits) ⟨p', pos⟩ = some (pgs.map g, ⟨p', pos + 16 * n⟩) := by
  induction n generalizing pos pgs c with
  | zero =>
      cases h
      rfl
  | succ n ih =>
      obtain ⟨pg, mid₁, h1, h⟩ := bind_some_inv h
      obtain ⟨hat, rfl⟩ := readPage_inv h1
      obtain ⟨rest, mid₂, h2, h⟩ := bind_some_inv h
      cases h
      have hin := hat.inside
      have hrec : pg.recordOffset = pos := hat.record.trans (Nat.mod_eq_of_lt (by omega))
      have hfirst := hg pg (by simp)
      rw [hrec] at hfirst
      refine bind_some hfirst (bind_some (ih h2 fun q hq => hg q (by simp [hq])) ?_)
      rw [show pos + 16 * (n + 1) = pos + 16 + 16 * n by omega]
      rfl

/-! ### Where the ranges lie -/

variable {r : ColumnRange} {rs : List ColumnRange} {a b : Nat}

/-- A range's records and then its setting lie from `a` to `b`. -/
structure RangeLaid (a b : Nat) (r : ColumnRange) : Prop where
  pages : ∀ pg ∈ r.pages, a ≤ pg.recordOffset ∧ pg.recordOffset + 16 ≤ r.compressionOffset
  sorted : r.pages.Pairwise fun x y => x.recordOffset + 16 ≤ y.recordOffset
  start : a ≤ r.compressionOffset
  stop : r.compressionOffset + 4 ≤ b

/-- Ranges that lie one after the other from `a` to `b`. -/
def LaidFrom : Nat → List ColumnRange → Nat → Prop
  | a, [], b => a ≤ b
  | a, r :: rs, b => ∃ mid, RangeLaid a mid r ∧ LaidFrom mid rs b

/-- Position `i` is in a record of the range or in its setting. -/
def ColumnRange.Owns (r : ColumnRange) (i : Nat) : Prop :=
  (∃ pg ∈ r.pages, pg.recordOffset ≤ i ∧ i < pg.recordOffset + 16) ∨
    (r.compressionOffset ≤ i ∧ i < r.compressionOffset + 4)

theorem RangeLaid.mono {a' b' : Nat} (h : RangeLaid a b r) (ha : a' ≤ a) (hb : b ≤ b') :
    RangeLaid a' b' r where
  pages pg hpg := ⟨ha.trans (h.pages pg hpg).1, (h.pages pg hpg).2⟩
  sorted := h.sorted
  start := ha.trans h.start
  stop := h.stop.trans hb

theorem RangeLaid.owns (h : RangeLaid a b r) {i : Nat} (hi : r.Owns i) : a ≤ i ∧ i < b := by
  have h1 := h.start
  have h2 := h.stop
  rcases hi with ⟨pg, hpg, hi⟩ | hi
  · have := h.pages pg hpg
    omega
  · omega

theorem LaidFrom.le (h : LaidFrom a rs b) : a ≤ b := by
  induction rs generalizing a with
  | nil => exact h
  | cons r rest ih =>
      obtain ⟨mid, hr, hrest⟩ := h
      have := ih hrest
      have := hr.start
      have := hr.stop
      omega

theorem LaidFrom.owns (h : LaidFrom a rs b) (hr : r ∈ rs) {i : Nat} (hi : r.Owns i) :
    a ≤ i ∧ i < b := by
  induction rs generalizing a with
  | nil => cases hr
  | cons x rest ih =>
      obtain ⟨mid, hx, hrest⟩ := h
      have hend := hrest.le
      have h1 := hx.start
      have h2 := hx.stop
      rcases List.mem_cons.1 hr with rfl | hr
      · have := hx.owns hi
        omega
      · have := ih hrest hr
        omega

theorem LaidFrom.append {c : Nat} {rs' : List ColumnRange} (h : LaidFrom a rs b)
    (h' : LaidFrom b rs' c) : LaidFrom a (rs ++ rs') c := by
  induction rs generalizing a with
  | nil =>
      cases rs' with
      | nil => exact Nat.le_trans h h'
      | cons r rest =>
          obtain ⟨mid, hr, hrest⟩ := h'
          exact ⟨mid, hr.mono h (Nat.le_refl _), hrest⟩
  | cons r rest ih =>
      obtain ⟨mid, hr, hrest⟩ := h
      exact ⟨mid, hr, ih hrest⟩

theorem LaidFrom.mono {a' : Nat} (h : LaidFrom a rs b) (ha : a' ≤ a) : LaidFrom a' rs b :=
  LaidFrom.append (show LaidFrom a' [] a from ha) h

/-! ### One range -/

/-- What was written for the moved ranges is in `p'`, and nothing else from `a` to `b` is changed. -/
structure PagesShown (moved : ColumnRange → Bool) (slots : List FillSlot) (p p' : Bytes)
    (rs : List ColumnRange) (a b : Nat) : Prop where
  same : ∀ i, a ≤ i → i < b → (∀ r ∈ rs, moved r = true → ¬ r.Owns i) → p'[i]? = p[i]?
  written : ∀ r ∈ rs, moved r = true → ∀ w ∈ rangeWrites slots r, slice p' w.1 w.2.length = w.2

/-- The pages of a moved range have bytes, and slots that fit a locator. -/
structure MovedFits (slots : List FillSlot) (r : ColumnRange) : Prop where
  unpacked : ∀ pg ∈ r.pages, 0 < pg.uncompressedBytes ∧ pg.uncompressedBytes < 2 ^ 31
  slot : ∀ pg ∈ r.pages, slotFor slots pg.offset < 2 ^ 64

/-- The header of a list frame that was read. -/
theorem readList_inv {pos : Nat} {f : EnvelopeFrame} (h : readList ⟨p, pos⟩ = some (f, c)) :
    c = ⟨p, pos + 12⟩ ∧ pos + 12 ≤ p.length ∧ f.start = pos := by
  obtain ⟨g, mid, hg, h⟩ := bind_some_inv h
  obtain ⟨start, mid₀, h0, hg⟩ := bind_some_inv hg
  cases h0
  obtain ⟨sz, mid₁, h1, hg⟩ := bind_some_inv hg
  obtain ⟨-, -, rfl⟩ := int_inv h1
  split at hg
  · obtain ⟨items, mid₂, h2, hg⟩ := bind_some_inv hg
    obtain ⟨hlen, -, rfl⟩ := nat_inv h2
    unfold frameAt at hg
    split at hg
    · cases hg
    · cases hg
      cases h
      exact ⟨rfl, by omega, rfl⟩
  · unfold frameAt at hg
    split at hg
    · cases hg
    · cases hg
      cases h

theorem readRange_inv {columns : List ColumnInfo} {cluster col : Nat} (hsmall : p.length < 2 ^ 32)
    {pos : Nat} (h : readRange columns cluster col ⟨p, pos⟩ = some (r, c)) :
    c.p = p ∧ c.pos ≤ p.length ∧ RangeLaid (pos + 12) c.pos r := by
  obtain ⟨f, mid₀, h0, h⟩ := bind_some_inv h
  obtain ⟨rfl, -, -⟩ := readList_inv h0
  obtain ⟨pgs, mid₁, h1, h⟩ := bind_some_inv h
  obtain ⟨-, rfl, hpages, hsorted⟩ := times_readPage_inv hsmall h1
  obtain ⟨u, mid₂, h2, h⟩ := bind_some_inv h
  obtain ⟨-, rfl⟩ := skip_inv h2
  obtain ⟨at_, mid₃, h3, h⟩ := bind_some_inv h
  cases h3
  obtain ⟨settings, mid₄, h4, h⟩ := bind_some_inv h
  obtain ⟨hlen, -, rfl⟩ := int_inv h4
  cases h
  have hco : (pos + 12 + 16 * f.items + 8) % 2 ^ 32 = pos + 12 + 16 * f.items + 8 :=
    Nat.mod_eq_of_lt (by omega)
  refine ⟨rfl, hlen, ⟨fun pg hpg => ?_, hsorted, ?_, ?_⟩⟩
  · have := (hpages pg hpg).2
    show pos + 12 ≤ pg.recordOffset ∧ pg.recordOffset + 16 ≤ (pos + 12 + 16 * f.items + 8) % 2 ^ 32
    omega
  · show pos + 12 ≤ (pos + 12 + 16 * f.items + 8) % 2 ^ 32
    omega
  · show (pos + 12 + 16 * f.items + 8) % 2 ^ 32 + 4 ≤ pos + 12 + 16 * f.items + 8 + 4
    omega

section Again

variable {moved : ColumnRange → Bool} {slots : List FillSlot} {p p' : Bytes}
  {columns : List ColumnInfo}

/-- A range that did not move reads as before; one that did, as its pages' slots. -/
theorem readRange_again (hsmall : p.length < 2 ^ 32) (hlen : p'.length = p.length)
    {cluster col pos : Nat} (h : readRange columns cluster col ⟨p, pos⟩ = some (r, c))
    (hfits : moved r = true → MovedFits slots r)
    (hshown : PagesShown moved slots p p' [r] pos c.pos) :
    readRange columns cluster col ⟨p', pos⟩ = some (shownRange moved slots r, ⟨p', c.pos⟩) := by
  cases hm : moved r with
  | false =>
      have hsame : SameOn p p' pos c.pos := fun i h1 h2 => hshown.same i h1 h2 (by simp [hm])
      simpa [shownRange, hm] using (readRange_forward columns cluster col p pos r c h).again p' hlen
        hsame
  | true =>
      have hlaid := (readRange_inv hsmall h).2.2
      have hwritten := hshown.written r (by simp) hm
      obtain ⟨f, mid₀, h0, h⟩ := bind_some_inv h
      obtain ⟨rfl, -, -⟩ := readList_inv h0
      obtain ⟨pgs, mid₁, h1, h⟩ := bind_some_inv h
      obtain ⟨-, rfl, hpages, -⟩ := times_readPage_inv hsmall h1
      obtain ⟨u, mid₂, h2, h⟩ := bind_some_inv h
      obtain ⟨-, rfl⟩ := skip_inv h2
      obtain ⟨at_, mid₃, h3, h⟩ := bind_some_inv h
      cases h3
      obtain ⟨settings, mid₄, h4, h⟩ := bind_some_inv h
      obtain ⟨hend, -, rfl⟩ := int_inv h4
      cases h
      -- the frame's header is in front of every record
      have hhead : SameOn p p' pos (pos + 12) := by
        intro i hi₁ hi₂
        refine hshown.same i hi₁ (by simp only; omega) fun q hq _ hown => ?_
        obtain rfl := List.mem_singleton.1 hq
        have := hlaid.owns hown
        omega
      have hlist := (readList_forward p pos f _ h0).again p' hlen hhead
      have hrecords : Walk.times f.items (readPage _) ⟨p', pos + 12⟩ =
          some (pgs.map (shownPage slots), _) := times_readPage_again hsmall h1 fun pg hpg => by
          obtain ⟨hat, hlo, hhi⟩ := hpages pg hpg
          have hfit := hfits hm
          exact readPage_written hat hlen (by omega) (hfit.unpacked pg hpg).1
            (hfit.unpacked pg hpg).2 (hfit.slot pg hpg) fun w hw =>
              hwritten w (List.mem_append_left _ (List.mem_flatMap.2 ⟨pg, hpg, hw⟩))
      have hsetting : slice p' (pos + 12 + 16 * f.items + 8) 4 = le 4 0 := by
        have hw := hwritten ((pos + 12 + 16 * f.items + 8) % 2 ^ 32, le 4 0)
          (List.mem_append_right _ (by simp))
        simp only [length_le] at hw
        rwa [Nat.mod_eq_of_lt (by omega)] at hw
      refine bind_some hlist (bind_some hrecords ?_)
      refine bind_some (skip_eq (by omega)) ?_
      refine bind_some here_eq ?_
      refine bind_some (int_eq (by omega)) ?_
      rw [hsetting, ofLe_le]
      simp only [shownRange, hm, if_true]
      rfl

/-! ### All ranges -/

theorem PagesShown.left {rs rs' : List ColumnRange} {a mid b : Nat}
    (h : PagesShown moved slots p p' (rs ++ rs') a b) (hle : mid ≤ b) (hrs' : LaidFrom mid rs' b) :
    PagesShown moved slots p p' rs a mid where
  same i hi₁ hi₂ hfree := h.same i hi₁ (by omega) fun r hr hm hown => by
    rcases List.mem_append.1 hr with hr | hr
    · exact hfree r hr hm hown
    · have := hrs'.owns hr hown
      omega
  written r hr := h.written r (List.mem_append_left _ hr)

theorem PagesShown.right {rs' : List ColumnRange} {mid : Nat}
    (h : PagesShown moved slots p p' (rs ++ rs') a b) (hle : a ≤ mid) (hrs : LaidFrom a rs mid) :
    PagesShown moved slots p p' rs' mid b where
  same i hi₁ hi₂ hfree := h.same i (by omega) hi₂ fun r hr hm hown => by
    rcases List.mem_append.1 hr with hr | hr
    · have := hrs.owns hr hown
      omega
    · exact hfree r hr hm hown
  written r hr := h.written r (List.mem_append_right _ hr)

/-- A walk that yields ranges, forward and in the order they lie in, and yields the shown ranges where
these were written. -/
structure Trips (moved : ColumnRange → Bool) (slots : List FillSlot) (p p' : Bytes)
    (w : Walk (List ColumnRange)) : Prop where
  laid : ∀ pos rs c, w ⟨p, pos⟩ = some (rs, c) → c.p = p ∧ LaidFrom pos rs c.pos
  again : ∀ pos rs c, w ⟨p, pos⟩ = some (rs, c) →
    (∀ r ∈ rs, moved r = true → MovedFits slots r) →
    PagesShown moved slots p p' rs pos c.pos →
    w ⟨p', pos⟩ = some (rs.map (shownRange moved slots), ⟨p', c.pos⟩)

/-- Such walks in a row. -/
theorem counted_trips {w : Nat → Walk (List ColumnRange)} (hw : ∀ i, Trips moved slots p p' (w i))
    (i n : Nat) :
    Trips moved slots p p' (Walk.counted w i n >>= fun rss => pure rss.flatten) := by
  induction n generalizing i with
  | zero =>
      refine ⟨fun pos rs c h => ?_, fun pos rs c h _ _ => ?_⟩
      · cases h
        exact ⟨rfl, Nat.le_refl _⟩
      · cases h
        rfl
  | succ n ih =>
      -- the first walk, then the others
      have hsplit : ∀ {q : Bytes} {pos : Nat} {rs : List ColumnRange} {c : LE},
          (Walk.counted w i (n + 1) >>= fun rss => pure rss.flatten) ⟨q, pos⟩ = some (rs, c) ↔
            ∃ first mid rest, w i ⟨q, pos⟩ = some (first, mid) ∧
              (Walk.counted w (i + 1) n >>= fun rss => pure rss.flatten) mid = some (rest, c) ∧
                rs = first ++ rest := by
        intro q pos rs c
        constructor
        · intro h
          obtain ⟨rss, mid₀, h0, h⟩ := bind_some_inv h
          obtain ⟨first, mid, h1, h2⟩ := bind_some_inv h0
          obtain ⟨rest, mid₂, h2, h3⟩ := bind_some_inv h2
          cases h3
          cases h
          exact ⟨first, mid, rest.flatten, h1, bind_some h2 rfl, rfl⟩
        · rintro ⟨first, mid, rest, h1, h2, rfl⟩
          obtain ⟨rss, mid₂, h2, h3⟩ := bind_some_inv h2
          cases h3
          exact bind_some (bind_some h1 (bind_some h2 rfl)) rfl
      refine ⟨fun pos rs c h => ?_, fun pos rs c h hfits hshown => ?_⟩
      · obtain ⟨first, ⟨q, at_⟩, rest, h1, h2, rfl⟩ := hsplit.1 h
        obtain ⟨hq, hlaid⟩ := (hw i).laid pos first _ h1
        obtain rfl : q = p := hq
        obtain ⟨hp, hrest⟩ := (ih (i + 1)).laid at_ rest c h2
        exact ⟨hp, hlaid.append hrest⟩
      · obtain ⟨first, ⟨q, at_⟩, rest, h1, h2, rfl⟩ := hsplit.1 h
        obtain ⟨hq, hlaid⟩ := (hw i).laid pos first _ h1
        obtain rfl : q = p := hq
        obtain ⟨-, hrest⟩ := (ih (i + 1)).laid at_ rest c h2
        refine hsplit.2 ⟨_, _, _, (hw i).again pos first _ h1 (fun r hr => hfits r (by simp [hr]))
          (hshown.left hrest.le hrest), (ih (i + 1)).again at_ rest c h2
            (fun r hr => hfits r (by simp [hr])) (hshown.right hlaid.le hlaid), List.map_append⟩

theorem readRange_trips (hsmall : p.length < 2 ^ 32) (hlen : p'.length = p.length)
    (cluster col : Nat) :
    Trips moved slots p p' (readRange columns cluster col >>= fun r => pure [r]) := by
  refine ⟨fun pos rs c h => ?_, fun pos rs c h hfits hshown => ?_⟩
  · obtain ⟨r, mid, h1, h2⟩ := bind_some_inv h
    cases h2
    obtain ⟨hp, -, hlaid⟩ := readRange_inv hsmall h1
    exact ⟨hp, c.pos, hlaid.mono (by omega) (Nat.le_refl _), Nat.le_refl _⟩
  · obtain ⟨r, mid, h1, h2⟩ := bind_some_inv h
    cases h2
    exact bind_some (readRange_again hsmall hlen h1 (hfits r (by simp)) hshown) rfl

/-- Walks in a row that each yield one result. -/
theorem counted_singletons {α : Type} (w : Nat → Walk α) (i n : Nat) :
    (Walk.counted (fun k => w k >>= fun a => pure [a]) i n >>= fun rss => pure rss.flatten) =
      Walk.counted w i n := by
  induction n generalizing i with
  | zero => rfl
  | succ n ih =>
      simp only [Walk.counted, bind_assoc, pure_bind, ← ih (i + 1)]
      rfl

/-- Such a walk inside a list frame. -/
theorem list_trips (hlen : p'.length = p.length) {v : Nat → Walk (List ColumnRange)}
    (hv : ∀ n, Trips moved slots p p' (v n)) :
    Trips moved slots p p' (readList >>= fun f => v f.items) := by
  refine ⟨fun pos rs c h => ?_, fun pos rs c h hfits hshown => ?_⟩
  · obtain ⟨f, mid, h1, h2⟩ := bind_some_inv h
    obtain ⟨rfl, -, -⟩ := readList_inv h1
    obtain ⟨hp, hlaid⟩ := (hv f.items).laid _ rs c h2
    exact ⟨hp, hlaid.mono (by omega)⟩
  · obtain ⟨f, mid, h1, h2⟩ := bind_some_inv h
    obtain ⟨rfl, -, -⟩ := readList_inv h1
    obtain ⟨-, hlaid⟩ := (hv f.items).laid _ rs c h2
    -- the frame's header is in front of every range
    have hhead : SameOn p p' pos (pos + 12) := fun i hi₁ hi₂ =>
      hshown.same i hi₁ (by have := hlaid.le; omega) fun r hr _ hown => by
        have := hlaid.owns hr hown
        omega
    have htail : PagesShown moved slots p p' rs (pos + 12) c.pos :=
      ⟨fun i hi₁ hi₂ => hshown.same i (by omega) hi₂, hshown.written⟩
    exact bind_some ((readList_forward p pos f _ h1).again p' hlen hhead)
      ((hv f.items).again _ rs c h2 hfits htail)

/-- The ranges of a cluster. -/
def clusterRanges (columns : List ColumnInfo) (cluster : Nat) : Walk (List ColumnRange) := do
  let cols ← readList
  Walk.counted (readRange columns cluster) 0 cols.items

/-- The ranges of all clusters. -/
def clusters (columns : List ColumnInfo) : Walk (List ColumnRange) := do
  let outer ← readList
  let rss ← Walk.counted (clusterRanges columns) 0 outer.items
  return rss.flatten

theorem clusterRanges_trips (hsmall : p.length < 2 ^ 32) (hlen : p'.length = p.length)
    (cluster : Nat) : Trips moved slots p p' (clusterRanges columns cluster) := by
  refine list_trips hlen fun n => ?_
  rw [← counted_singletons]
  exact counted_trips (fun col => readRange_trips hsmall hlen cluster col) 0 n

theorem clusters_trips (hsmall : p.length < 2 ^ 32) (hlen : p'.length = p.length) :
    Trips moved slots p p' (clusters columns) :=
  list_trips hlen fun n =>
    counted_trips (fun cluster => clusterRanges_trips hsmall hlen cluster) 0 n

end Again

/-! ### The page list -/

/-- Whatever the first walk finds, the second does. -/
def Refines {α : Type} (w v : Walk α) : Prop := ∀ c x, w c = some x → v c = some x

theorem Refines.refl {α : Type} (w : Walk α) : Refines w w := fun _ _ h => h

theorem Refines.bind {α β : Type} {w v : Walk α} {f g : α → Walk β} (hw : Refines w v)
    (hf : ∀ a, Refines (f a) (g a)) : Refines (w >>= f) (v >>= g) := by
  rintro c ⟨b, c'⟩ h
  obtain ⟨a, mid, h1, h2⟩ := bind_some_inv h
  exact bind_some (hw _ _ h1) (hf a _ _ h2)

theorem Refines.times {α : Type} {w v : Walk α} (hw : Refines w v) (n : Nat) :
    Refines (Walk.times n w) (Walk.times n v) := by
  induction n with
  | zero => exact .refl _
  | succ n ih => exact hw.bind fun _ => ih.bind fun _ => .refl _

theorem closeFrame_refines (f : EnvelopeFrame) : Refines (closeFrame f) (leaveFrame f) := by
  intro c x h
  unfold closeFrame at h
  split at h
  · exact h
  · cases h

/-- The cluster summaries as the parse reads them. -/
def summaries : Walk (Nat × List Nat) := do
  let sl ← readList
  let entries ← Walk.times sl.items do
    let r ← readFrame
    Walk.skip 8
    let n ← Walk.nat 8
    leaveFrame r
    return n
  return (sl.items, entries)

theorem nestedSummaries_refines : Refines nestedSummaries summaries :=
  (Refines.refl readList).bind fun _ => (Refines.times ((Refines.refl readFrame).bind fun _ =>
    (Refines.refl (Walk.skip 8)).bind fun _ => (Refines.refl (Walk.nat 8)).bind fun _ =>
      (closeFrame_refines _).bind fun _ => .refl _) _).bind fun _ => .refl _

theorem pageListWalk_eq (columns : List ColumnInfo) :
    pageListWalk columns = do
      let s ← summaries
      let ranges ← clusters columns
      return (s.1, s.2.sum % 2 ^ 64, ranges) := by
  simp only [pageListWalk, summaries, clusters, bind_assoc, pure_bind]
  rfl

/-- The frames of a page list are well nested where the walk relies on it: no summary's frame ends in
front of what is read in it, and the walk ends in front of the checksum. -/
structure PageListNested (columns : List ColumnInfo) (p : Bytes) : Prop where
  summaries : (nestedSummaries ⟨p, 16⟩).isSome = true
  checksum : ∀ x c, pageListWalk columns ⟨p, 16⟩ = some (x, c) → c.pos + 8 ≤ p.length

section Walked

variable {moved : ColumnRange → Bool} {slots : List FillSlot} {p p' : Bytes}
  {columns : List ColumnInfo} {x : Nat × Nat × List ColumnRange} {c : LE}

/-- Where the walk has been: over the summaries, then over the ranges. -/
theorem pageListWalk_inv (hnested : PageListNested columns p)
    (h : pageListWalk columns ⟨p, 16⟩ = some (x, c)) :
    ∃ s mid ranges, RunsOn nestedSummaries p 16 s ⟨p, mid⟩ ∧ 16 ≤ mid ∧
      clusters columns ⟨p, mid⟩ = some (ranges, c) ∧ x = (s.1, s.2.sum % 2 ^ 64, ranges) := by
  obtain ⟨⟨s, mid⟩, hs⟩ := Option.isSome_iff_exists.1 hnested.summaries
  have hrun := nestedSummaries_forward p 16 s mid hs
  have hmid : mid = ⟨p, mid.pos⟩ := by rw [← hrun.bytes]
  rw [pageListWalk_eq] at h
  obtain ⟨s', mid', h1, h⟩ := bind_some_inv h
  rw [nestedSummaries_refines _ _ hs] at h1
  cases h1
  obtain ⟨ranges, mid₂, h2, h3⟩ := bind_some_inv h
  cases h3
  rw [hmid] at h2 hrun
  exact ⟨s, mid.pos, ranges, hrun, hrun.forward, h2, rfl⟩

/-- The ranges of a page list lie one after the other, in front of its checksum. -/
theorem pageListWalk_laid (hsmall : p.length < 2 ^ 32) (hnested : PageListNested columns p)
    (h : pageListWalk columns ⟨p, 16⟩ = some (x, c)) :
    LaidFrom 16 x.2.2 c.pos ∧ c.pos + 8 ≤ p.length := by
  obtain ⟨s, mid, ranges, -, hmid, hrs, rfl⟩ := pageListWalk_inv hnested h
  have htrips : Trips (fun _ => false) [] p p (clusters columns) := clusters_trips hsmall rfl
  exact ⟨(htrips.laid mid ranges c hrs).2.mono hmid, hnested.checksum _ c h⟩

/-- A page list with the records of the moved ranges rewritten: the same clusters and entries, and
the shown ranges. -/
theorem pageListWalk_again (hsmall : p.length < 2 ^ 32) (hlen : p'.length = p.length)
    (hnested : PageListNested columns p) (h : pageListWalk columns ⟨p, 16⟩ = some (x, c))
    (hfits : ∀ r ∈ x.2.2, moved r = true → MovedFits slots r)
    (hshown : PagesShown moved slots p p' x.2.2 16 c.pos) :
    pageListWalk columns ⟨p', 16⟩ =
      some ((x.1, x.2.1, x.2.2.map (shownRange moved slots)), ⟨p', c.pos⟩) := by
  obtain ⟨s, mid, ranges, hrun, hmid, hrs, rfl⟩ := pageListWalk_inv hnested h
  have htrips : Trips moved slots p p' (clusters columns) := clusters_trips hsmall hlen
  obtain ⟨-, hlaid⟩ := htrips.laid mid ranges c hrs
  have hend := hlaid.le
  -- the summaries are in front of every range
  have hfront : SameOn p p' 16 mid := fun i hi₁ hi₂ =>
    hshown.same i hi₁ (by omega) fun r hr _ hown => by
      have := hlaid.owns hr hown
      omega
  have hback : PagesShown moved slots p p' ranges mid c.pos :=
    ⟨fun i hi₁ hi₂ => hshown.same i (by omega) hi₂, hshown.written⟩
  rw [pageListWalk_eq]
  exact bind_some (nestedSummaries_refines _ _ (hrun.again p' hlen hfront))
    (bind_some (htrips.again mid ranges c hrs hfits hback) rfl)

end Walked

end UCache
