/-
Module: UCache.Transpose.PageSlots
Purpose: The slots that the pages of the relocated ranges get, one for each offset, and what is
  written into the page list for them.
Trusted boundary: none
Main exports: slotFor, ColumnRange.movable, pageWrites
-/
import UCache.Lib.Loop
import UCache.Lib.Patches
import UCache.Transpose.RNTupleLayout

namespace UCache

open Lib

/-! ### Slots by offset -/

/-- The slot of the page that was at this offset. -/
def slotFor (slots : List FillSlot) (offset : Nat) : Nat :=
  ((slots.find? fun s => s.origSeek == offset).map FillSlot.vSeek).getD 0

/-- What more slots do not change. -/
theorem slotFor_prefix {slots slots' : List FillSlot} (h : slots <+: slots') {offset : Nat}
    (hmem : offset ∈ slots.map FillSlot.origSeek) : slotFor slots' offset = slotFor slots offset := by
  obtain ⟨more, rfl⟩ := h
  obtain ⟨s, hs, hoff⟩ := List.mem_map.1 hmem
  have hfound : (slots.find? fun s => s.origSeek == offset).isSome :=
    List.find?_isSome.2 ⟨s, hs, by simpa using hoff⟩
  unfold slotFor
  rw [List.find?_append, Option.or_of_isSome hfound]

theorem slotFor_mem {slots : List FillSlot} {offset : Nat}
    (hmem : offset ∈ slots.map FillSlot.origSeek) :
    ∃ s ∈ slots, s.origSeek = offset ∧ slotFor slots offset = s.vSeek := by
  obtain ⟨s, hs, hoff⟩ := List.mem_map.1 hmem
  obtain ⟨t, ht⟩ := Option.isSome_iff_exists.1
    (List.find?_isSome.2 ⟨s, hs, by simpa using hoff⟩ :
      (slots.find? fun s => s.origSeek == offset).isSome)
  refine ⟨t, List.mem_of_find?_eq_some ht, by simpa using List.find?_some ht, ?_⟩
  rw [slotFor, ht]
  rfl

/-! ### What is written -/

/-- A page's record: the count that says it has a checksum, its size and its slot. -/
def pageWrites (slots : List FillSlot) (pg : PageInfo) : List (Nat × Bytes) :=
  [(pg.recordOffset, le 4 (2 ^ 32 - pg.nElements)),
    (pg.recordOffset + 4, le 4 pg.uncompressedBytes),
    (pg.recordOffset + 8, le 8 (slotFor slots pg.offset))]

/-- The records of a range, and its compression setting. -/
def rangeWrites (slots : List FillSlot) (r : ColumnRange) : List (Nat × Bytes) :=
  r.pages.flatMap (pageWrites slots) ++ [(r.compressionOffset, le 4 0)]

/-- Every page of these has a slot, one for each offset, with room for the page and its checksum. -/
structure PagesPlaced (pages : List PageInfo) (st : PagePlacing) : Prop where
  seen : ∀ offset, st.seen.lookup offset =
    (st.slots.find? fun s => s.origSeek == offset).map FillSlot.vSeek
  once : (st.slots.map FillSlot.origSeek).Nodup
  given : ∀ pg ∈ pages, pg.offset ∈ st.slots.map FillSlot.origSeek
  page : ∀ s ∈ st.slots, ∃ pg ∈ pages, pg.offset = s.origSeek ∧
    s.vLen = pg.uncompressedBytes + kSlotChecksumBytes

variable {m : RNTupleMeta} {pages : List PageInfo} {st st' : PagePlacing}

theorem PagesPlaced.slotForPage (h : PagesPlaced pages st) (ri pi : Nat) (pg : PageInfo) :
    PagesPlaced (pages ++ [pg]) (slotForPage st ri pi pg).1 ∧
      st.slots <+: (slotForPage st ri pi pg).1.slots ∧
      (slotForPage st ri pi pg).1.pl = st.pl ∧
      (slotForPage st ri pi pg).2 = slotFor (slotForPage st ri pi pg).1.slots pg.offset := by
  have hseen := h.seen pg.offset
  unfold UCache.slotForPage
  cases hlook : st.seen.lookup pg.offset with
  | some v =>
      rw [hlook] at hseen
      refine ⟨⟨h.seen, h.once, fun q hq => ?_, fun s hs => ?_⟩, List.prefix_refl _, rfl, ?_⟩
      · rcases List.mem_append.1 hq with hq | hq
        · exact h.given q hq
        · obtain rfl : q = pg := by simpa using hq
          obtain ⟨s, hs, -⟩ := Option.map_eq_some_iff.1 hseen.symm
          exact List.mem_map.2 ⟨s, List.mem_of_find?_eq_some hs,
            by simpa using List.find?_some hs⟩
      · obtain ⟨q, hq, hrest⟩ := h.page s hs
        exact ⟨q, List.mem_append_left _ hq, hrest⟩
      · show v = slotFor st.slots pg.offset
        rw [slotFor, ← hseen]
        rfl
  | none =>
      rw [hlook, eq_comm, Option.map_eq_none_iff] at hseen
      have hnew : pg.offset ∉ st.slots.map FillSlot.origSeek := by
        intro hmem
        obtain ⟨s, hs, hoff⟩ := List.mem_map.1 hmem
        have := List.find?_eq_none.1 hseen s hs
        simp [hoff] at this
      refine ⟨⟨fun offset => ?_, ?_, fun q hq => ?_, fun s hs => ?_⟩, List.prefix_append _ _, rfl,
        ?_⟩
      · rw [List.find?_append, List.lookup_cons]
        by_cases hsame : offset = pg.offset
        · subst hsame
          simp [hseen]
        · have hne : (offset == pg.offset) = false := by simpa using hsame
          have hne' : (pg.offset == offset) = false := by simpa using fun h => hsame h.symm
          simp [hne, hne', h.seen]
      · simpa [List.nodup_append, h.once] using fun s hs heq =>
          hnew (List.mem_map.2 ⟨s, hs, heq⟩)
      · rw [List.map_append]
        rcases List.mem_append.1 hq with hq | hq
        · exact List.mem_append_left _ (h.given q hq)
        · obtain rfl : q = pg := by simpa using hq
          exact List.mem_append_right _ (by simp)
      · rcases List.mem_append.1 hs with hs | hs
        · obtain ⟨q, hq, hrest⟩ := h.page s hs
          exact ⟨q, List.mem_append_left _ hq, hrest⟩
        · obtain rfl := List.mem_singleton.1 hs
          exact ⟨pg, by simp, rfl, rfl⟩
      · simp [slotFor, List.find?_append, hseen]

/-- The walk from `st₀` has placed these pages and written this. -/
structure PlacedFrom (before : List PageInfo) (st₀ : PagePlacing) (pages : List PageInfo)
    (writes : List FillSlot → List (Nat × Bytes)) (st : PagePlacing) : Prop where
  placed : PagesPlaced (before ++ pages) st
  grows : st₀.slots <+: st.slots
  pl : st.pl = patches st₀.pl (writes st.slots)

theorem pageWrites_grow {slots slots' : List FillSlot} (h : slots <+: slots')
    (hpages : ∀ pg ∈ pages, pg.offset ∈ slots.map FillSlot.origSeek) :
    pages.flatMap (pageWrites slots') = pages.flatMap (pageWrites slots) := by
  apply List.flatMap_congr
  intro pg hpg
  rw [pageWrites, pageWrites, slotFor_prefix h (hpages pg hpg)]

theorem rangeWrites_prefix {slots slots' : List FillSlot} (h : slots <+: slots')
    {rs : List ColumnRange}
    (hpages : ∀ pg ∈ rs.flatMap ColumnRange.pages, pg.offset ∈ slots.map FillSlot.origSeek) :
    rs.flatMap (rangeWrites slots') = rs.flatMap (rangeWrites slots) := by
  apply List.flatMap_congr
  intro r hr
  rw [rangeWrites, rangeWrites,
    pageWrites_grow h fun pg hpg => hpages pg (List.mem_flatMap.2 ⟨r, hr, hpg⟩)]

theorem placePage_placed {before : List PageInfo} {st₀ : PagePlacing}
    (h : PlacedFrom before st₀ pages (fun slots => pages.flatMap (pageWrites slots)) st) (ri : Nat)
    (p : Nat × PageInfo) :
    PlacedFrom before st₀ (pages ++ [p.2])
      (fun slots => (pages ++ [p.2]).flatMap (pageWrites slots)) (placePage ri st p) := by
  obtain ⟨hplaced, hgrows, hpl, hslot⟩ := h.placed.slotForPage ri p.1 p.2
  rw [List.append_assoc] at hplaced
  refine ⟨⟨hplaced.seen, hplaced.once, hplaced.given, hplaced.page⟩, h.grows.trans hgrows, ?_⟩
  show putLE (putLE (putLE (slotForPage st ri p.1 p.2).1.pl _ 4 _) _ 4 _) _ 8
    (slotForPage st ri p.1 p.2).2 = _
  rw [hslot, hpl, h.pl, List.flatMap_append, patches_append]
  show _ = patches (patches st₀.pl (pages.flatMap (pageWrites (slotForPage st ri p.1 p.2).1.slots))) _
  rw [pageWrites_grow hgrows fun pg hpg => h.placed.given pg (List.mem_append_right _ hpg)]
  rfl

theorem placeRange_placed {rs : List ColumnRange} {st₀ : PagePlacing}
    (h : PlacedFrom [] st₀ (rs.flatMap ColumnRange.pages)
      (fun slots => rs.flatMap (rangeWrites slots)) st) (ri : Nat) :
    PlacedFrom [] st₀ ((rs ++ [m.ranges.getD ri {}]).flatMap ColumnRange.pages)
      (fun slots => (rs ++ [m.ranges.getD ri {}]).flatMap (rangeWrites slots))
      (placeRange m st ri) := by
  have hwalk := @foldl_history _ _ (placePage ri)
    (fun done s => PlacedFrom (rs.flatMap ColumnRange.pages) st (done.map Prod.snd)
      (fun slots => (done.map Prod.snd).flatMap (pageWrites slots)) s)
    (fun d s x hs => by simpa using placePage_placed hs ri x)
    ((List.range (m.ranges.getD ri {}).pages.length).zip (m.ranges.getD ri {}).pages) [] st
    ⟨by simpa using h.placed, List.prefix_refl _, rfl⟩
  simp only [List.nil_append, List.map_snd_zip, List.length_range, Nat.le_refl] at hwalk
  refine ⟨?_, h.grows.trans hwalk.grows, ?_⟩
  · have hplaced := hwalk.placed
    rw [List.nil_append, List.flatMap_append, List.flatMap_singleton]
    exact ⟨hplaced.seen, hplaced.once, hplaced.given, hplaced.page⟩
  · show putLE _ _ 4 0 = _
    rw [hwalk.pl, h.pl]
    show _ = patches st₀.pl ((rs ++ [m.ranges.getD ri {}]).flatMap (rangeWrites
      (List.foldl (placePage ri) st _).slots))
    rw [List.flatMap_append, List.flatMap_singleton, patches_append,
      rangeWrites_prefix hwalk.grows h.placed.given, rangeWrites, patches_append]
    rfl

/-- All relocated ranges: every page placed, and the page list with every record written. -/
theorem placeRanges_placed (m : RNTupleMeta) (ris : List Nat) (start : Nat) (pl : Bytes) :
    PlacedFrom [] { pos := start, pl := pl }
      ((ris.map fun ri => m.ranges.getD ri {}).flatMap ColumnRange.pages)
      (fun slots => (ris.map fun ri => m.ranges.getD ri {}).flatMap (rangeWrites slots))
      (ris.foldl (placeRange m) { pos := start, pl := pl }) := by
  have hwalk := @foldl_history _ _ (placeRange m)
    (fun done s => PlacedFrom [] { pos := start, pl := pl }
      ((done.map fun ri => m.ranges.getD ri {}).flatMap ColumnRange.pages)
      (fun slots => (done.map fun ri => m.ranges.getD ri {}).flatMap (rangeWrites slots)) s)
    (fun d s ri hs => by simpa using placeRange_placed hs ri) ris [] { pos := start, pl := pl }
    ⟨⟨fun _ => rfl, List.nodup_nil, by simp, by simp⟩, List.prefix_refl _, rfl⟩
  exact hwalk

/-! ### Which ranges -/

/-- [SRC RNTupleRewrite.cc:425-434] A range whose pages get slots. -/
def ColumnRange.movable (fileSize : Nat) (codecs : List String) (r : ColumnRange) : Bool :=
  !r.pages.isEmpty && codecs.contains (rnTupleCodecName r.compressionSettings) &&
    r.pages.all (PageInfo.convertible fileSize)

/-- The relocated ranges are those that can move, in their order. -/
theorem relocatedRanges_map (m : RNTupleMeta) (fileSize : Nat) (codecs : List String) :
    (relocatedRanges m fileSize codecs).map (fun ri => m.ranges.getD ri {}) =
      m.ranges.filter (ColumnRange.movable fileSize codecs) := by
  have hall : (List.range m.ranges.length).map (fun ri => m.ranges.getD ri {}) = m.ranges :=
    map_range_eq fun i x hx => by rw [List.getD_eq_getElem?_getD, hx]; rfl
  conv_rhs => rw [← hall, List.filter_map]
  rfl

end UCache
