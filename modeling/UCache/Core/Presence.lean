/-
Module: UCache.Core.Presence
Purpose: The queries and the loops of a handle that consult its three stores of presence: which pages
  of a range are here, which are absent, and which speculative pages a range takes with it.
Trusted boundary: none
Main exports: absentRuns, Presence.presence_queries_agree,
  Presence.cover_test_exact
-/
import UCache.Core.Parking
import UCache.Core.Reading
import UCache.Lib.Spans

namespace UCache

open Lib

/-! ### The absent runs of a range -/

variable {runs : List (Nat × Nat)} {i : Nat}

/-- The bytes of page `i`. -/
def pageSpan (pageSize fileSize i : Nat) : Nat × Nat :=
  (i * pageSize, i * pageSize + min pageSize (fileSize - i * pageSize))

/-- [SRC FileEntry.cc:706-717] One page of `absentRuns`; runs are kept as an offset and a length.
`held i` says that the page is stored, buffered, being flushed or on its way. -/
def addPage (pageSize fileSize : Nat) (held : Nat → Bool) (runs : List (Nat × Nat)) (i : Nat) :
    List (Nat × Nat) :=
  let pLen := min pageSize (fileSize - i * pageSize)
  if held i then runs
  else
    match runs.getLast? with
    | some (s, n) =>
        if s + n = i * pageSize then runs.dropLast ++ [(s, n + pLen)]
        else runs ++ [(i * pageSize, pLen)]
    | none => [(i * pageSize, pLen)]

/-- [SRC FileEntry.cc:695-719] -/
def absentRuns (pageSize fileSize : Nat) (held : Nat → Bool) (off len : Nat) : List (Nat × Nat) :=
  let stop := min (off + len) fileSize
  if len = 0 ∨ stop ≤ off then []
  else
    (List.range' (off / pageSize) ((stop - 1) / pageSize + 1 - off / pageSize)).foldl
      (addPage pageSize fileSize held) []

/-- A run kept as an offset and a length. -/
def spanOf (r : Nat × Nat) : Nat × Nat := (r.1, r.1 + r.2)

section Absent

variable {pageSize fileSize : Nat} {held : Nat → Bool}

/-- A page behind all runs joins the last one when they touch, as spans do. -/
theorem addPage_spans (hends : ∀ r ∈ runs, r.1 + r.2 ≤ i * pageSize) (hi : held i = false) :
    (addPage pageSize fileSize held runs i).map spanOf =
      addSpan (runs.map spanOf) (pageSpan pageSize fileSize i) := by
  unfold addPage
  simp only [hi, Bool.false_eq_true, if_false]
  rcases List.eq_nil_or_concat runs with rfl | ⟨init, ⟨s, n⟩, rfl⟩
  · rfl
  · rw [List.concat_eq_append] at hends ⊢
    have hend := hends (s, n) (by simp)
    simp only at hend
    simp only [List.getLast?_append, List.getLast?_singleton, Option.some_or, addSpan,
      List.map_append, List.map_cons, List.map_nil, pageSpan, spanOf, List.dropLast_concat]
    by_cases htouch : s + n = i * pageSize
    · rw [if_pos htouch, if_pos (by omega)]
      simp only [List.map_append, List.map_cons, List.map_nil, spanOf, ← htouch]
      congr 3
      omega
    · rw [if_neg htouch, if_neg (by omega)]
      simp [spanOf]

/-- Every run is an old one, or it ends with the page. -/
theorem addPage_ends {r : Nat × Nat} (hr : r ∈ addPage pageSize fileSize held runs i) :
    r ∈ runs ∨ r.1 + r.2 = i * pageSize + min pageSize (fileSize - i * pageSize) := by
  unfold addPage at hr
  simp only at hr
  split at hr
  · exact .inl hr
  · split at hr
    · rename_i s n hlast
      split at hr
      · rename_i htouch
        rcases List.mem_append.1 hr with hr | hr
        · exact .inl (List.dropLast_subset _ hr)
        · obtain rfl : r = (s, _) := by simpa using hr
          exact .inr (by simp only; omega)
      · rcases List.mem_append.1 hr with hr | hr
        · exact .inl hr
        · obtain rfl : r = (_, _) := by simpa using hr
          exact .inr rfl
    · obtain rfl : r = (_, _) := by simpa using hr
      exact .inr rfl

/-- The absent pages among some pages in order. -/
theorem foldl_addPage {pages : List Nat} (hpages : pages.Pairwise (· < ·))
    (hends : ∀ r ∈ runs, ∀ i ∈ pages, r.1 + r.2 ≤ i * pageSize) :
    (pages.foldl (addPage pageSize fileSize held) runs).map spanOf =
      ((pages.filter fun i => !held i).map (pageSpan pageSize fileSize)).foldl addSpan
        (runs.map spanOf) := by
  induction pages generalizing runs with
  | nil => rfl
  | cons i rest ih =>
      obtain ⟨hfirst, hrest⟩ := List.pairwise_cons.1 hpages
      rw [List.foldl_cons, List.filter_cons]
      cases hi : held i with
      | true =>
          have hsame : addPage pageSize fileSize held runs i = runs := by simp [addPage, hi]
          rw [hsame, ih hrest fun r hr j hj => hends r hr j (by simp [hj])]
          simp
      | false =>
          rw [ih hrest ?_, addPage_spans (fun r hr => hends r hr i (by simp)) hi]
          · simp
          · intro r hr j hj
            have hij := hfirst j hj
            have hmul : (i + 1) * pageSize ≤ j * pageSize := Nat.mul_le_mul_right _ hij
            rcases addPage_ends hr with hr | hend
            · exact hends r hr j (by simp [hj])
            · rw [Nat.add_mul] at hmul
              omega

/-- The pages of a range that are not held, in order. -/
def absentPages (pageSize fileSize : Nat) (held : Nat → Bool) (off len : Nat) : List Nat :=
  (List.range' (off / pageSize)
    ((min (off + len) fileSize - 1) / pageSize + 1 - off / pageSize)).filter fun i => !held i

theorem absentPages_ascending (pageSize fileSize : Nat) (held : Nat → Bool) (off len : Nat) :
    (absentPages pageSize fileSize held off len).Pairwise (· < ·) :=
  List.Pairwise.filter _ List.pairwise_lt_range'

theorem mem_absentPages (off len i : Nat) : i ∈ absentPages pageSize fileSize held off len ↔
    off / pageSize ≤ i ∧ i ≤ (min (off + len) fileSize - 1) / pageSize ∧ held i = false := by
  rw [absentPages, List.mem_filter, List.mem_range'_1]
  simp only [Bool.not_eq_true', and_assoc]
  generalize (min (off + len) fileSize - 1) / pageSize = last
  generalize off / pageSize = first
  constructor
  · rintro ⟨h1, h2, h3⟩
    exact ⟨h1, by omega, h3⟩
  · rintro ⟨h1, h2, h3⟩
    exact ⟨h1, by omega, h3⟩

/-- The absent runs of a range are its absent pages, coalesced. -/
theorem absentRuns_spans {off len : Nat} (hsome : ¬ (len = 0 ∨ min (off + len) fileSize ≤ off)) :
    (absentRuns pageSize fileSize held off len).map spanOf =
      ((absentPages pageSize fileSize held off len).map (pageSpan pageSize fileSize)).foldl
        addSpan [] := by
  rw [absentRuns, if_neg hsome]
  exact foldl_addPage List.pairwise_lt_range' (by simp)

/-- The absent runs of a range: in order with gaps, in the file, from the range's first page to its
last, and all of it that is not held. -/
theorem absentRuns_spec (hpos : 0 < pageSize) (off len : Nat) :
    Coalesced ((absentRuns pageSize fileSize held off len).map spanOf) ∧
      (∀ r ∈ absentRuns pageSize fileSize held off len, off < fileSize ∧
        off / pageSize * pageSize ≤ r.1 ∧ r.1 + r.2 ≤ fileSize ∧
          r.1 + r.2 ≤ ((off + len - 1) / pageSize + 1) * pageSize) ∧
      ∀ b, off ≤ b → b < off + len → b < fileSize → held (b / pageSize) = false →
        Within ((absentRuns pageSize fileSize held off len).map spanOf) b := by
  by_cases hnone : len = 0 ∨ min (off + len) fileSize ≤ off
  · rw [absentRuns, if_pos hnone]
    refine ⟨⟨by simp, .nil⟩, by simp, ?_⟩
    intro b h1 h2 h3
    omega
  · have heq := @absentRuns_spans pageSize fileSize held off len hnone
    have hmem := @mem_absentPages pageSize fileSize held off len
    have hasc := absentPages_ascending pageSize fileSize held off len
    rw [heq]
    generalize absentPages pageSize fileSize held off len = pages at heq hmem hasc
    have hproper : ∀ s ∈ pages.map (pageSpan pageSize fileSize), s.1 ≤ s.2 := by
      intro s hs
      obtain ⟨i, -, rfl⟩ := List.mem_map.1 hs
      exact Nat.le_add_right _ _
    have hsorted : (pages.map (pageSpan pageSize fileSize)).Pairwise fun a b => a.1 ≤ b.1 :=
      List.pairwise_map.2 (hasc.imp fun h => Nat.mul_le_mul_right _ (Nat.le_of_lt h))
    obtain ⟨hc, hwithin⟩ := foldl_addSpan ⟨by simp, .nil⟩ hproper hsorted (by simp)
    refine ⟨hc, fun r hr => ?_, fun b h1 h2 h3 hheld => ?_⟩
    · have hr : spanOf r ∈ (pages.map (pageSpan pageSize fileSize)).foldl addSpan [] := by
        rw [← heq]
        exact List.mem_map_of_mem hr
      obtain ⟨⟨s, hs, hstart⟩, t, ht, hend⟩ := foldl_addSpan_mem ⟨by simp, .nil⟩ hproper hr
      rw [List.nil_append] at hs ht
      obtain ⟨i, hi, rfl⟩ := List.mem_map.1 hs
      obtain ⟨j, hj, rfl⟩ := List.mem_map.1 ht
      simp only [pageSpan, spanOf] at hstart hend
      have hfirst := Nat.mul_le_mul_right pageSize ((hmem i).1 hi).1
      have hlast := Nat.mul_le_mul_right pageSize ((hmem j).1 hj).2.1
      have hin : (min (off + len) fileSize - 1) / pageSize * pageSize ≤
        min (off + len) fileSize - 1 := Nat.div_mul_le_self _ _
      have hmono : (min (off + len) fileSize - 1) / pageSize * pageSize ≤
          (off + len - 1) / pageSize * pageSize :=
        Nat.mul_le_mul_right _ (Nat.div_le_div_right (by omega))
      rw [Nat.add_mul]
      exact ⟨by omega, by omega, by omega, by omega⟩
    · refine (hwithin b).2 (.inr ⟨_, List.mem_map_of_mem ((hmem (b / pageSize)).2 ⟨?_, ?_, hheld⟩), ?_⟩)
      · exact Nat.div_le_div_right h1
      · exact Nat.div_le_div_right (by omega)
      · have hdiv := Nat.div_add_mod' b pageSize
        have hmod := Nat.mod_lt b hpos
        simp only [pageSpan]
        omega

end Absent

namespace Presence

open FileEntry

/-! ### The queries -/

/-- [SRC PageBitmap.h:53-58] -/
def rangeSet (b : PageBitmap) (first last : Nat) : Bool :=
  (List.range' first (last + 1 - first)).all b.get

/-- Both maps of the stage are empty. -/
def stageEmpty (e : FileEntry) : Bool :=
  (List.range e.meta_.npages).all fun i => (e.buf i).isNone && (e.flushing i).isNone

/-- The page is stored, staged or being written. -/
def here (e : FileEntry) (i : Nat) : Bool :=
  e.meta_.bitmap.get i || (e.buf i).isSome || (e.flushing i).isSome

/-- The sum of a call's offset and length wraps in 64 bits. -/
def wraps (off len : Nat) : Prop := 2 ^ 64 ≤ off + len

instance (off len : Nat) : Decidable (wraps off len) := inferInstanceAs (Decidable (_ ≤ _))

/-- [SRC FileEntry.cc:254-268] -/
def hasRange (e : FileEntry) (off len : Nat) : Bool :=
  if len = 0 ∨ wraps off len ∨ e.meta_.fileSize < off + len then false
  else
    let first := off / e.meta_.pageSize
    let last := (off + len - 1) / e.meta_.pageSize
    if stageEmpty e then rangeSet e.meta_.bitmap first last
    else (List.range' first (last + 1 - first)).all (here e)

/-- [SRC FileEntry.cc:938-943] -/
def pageInFlight (flight : List (Nat × Nat)) (page : Nat) : Bool :=
  flight.any fun r => decide (r.1 ≤ page) && decide (page < r.2)

/-- [SRC FileEntry.cc:695-719] -/
def absentRuns (e : FileEntry) (flight : List (Nat × Nat)) (off len : Nat) (skipInFlight : Bool) :
    List (Nat × Nat) :=
  if wraps off len then []
  else
    UCache.absentRuns e.meta_.pageSize e.meta_.fileSize
      (fun i => here e i || (skipInFlight && pageInFlight flight i)) off len

/-! ### The loops over speculative pages -/

/-- The first page wholly inside a range that starts at `off`. -/
def firstPage (m : MetaData) (off : Nat) : Nat := (off + m.pageSize - 1) / m.pageSize

/-- One past the last page wholly inside a range that ends at `stop`: the file's tail page counts
as whole. -/
def stopPage (m : MetaData) (stop : Nat) : Nat :=
  if stop = m.fileSize then (stop + m.pageSize - 1) / m.pageSize else stop / m.pageSize

/-- The pages that a range takes with it. -/
def takenPages (m : MetaData) (off stop : Nat) : List Nat :=
  List.range' (firstPage m off) (stopPage m stop - firstPage m off)

/-- [SRC FileEntry.cc:592-628] -/
def dropSpeculative (e : FileEntry) (off len : Nat) : FileEntry :=
  let stop := min (off + len) e.meta_.fileSize
  if len = 0 ∨ wraps off len ∨ stop ≤ off then e
  else (takenPages e.meta_ off stop).foldl dropSpecPage e

/-- [SRC FileEntry.cc:644-682] The pages at the two ends that stay are marked as touched. -/
def consumeSpeculative (e : FileEntry) (off len : Nat) : FileEntry :=
  let stop := min (off + len) e.meta_.fileSize
  if len = 0 ∨ wraps off len ∨ stop ≤ off then e
  else
    let edges := [off / e.meta_.pageSize, (stop - 1) / e.meta_.pageSize].filter fun pg =>
      decide (pg < firstPage e.meta_ off) || decide (stopPage e.meta_ stop ≤ pg)
    (takenPages e.meta_ off stop).foldl dropSpecPage (edges.foldl touchSpecPage e)

/-! ### What is asked of them -/

/-- Page `i` has a byte of the range. -/
def Touches (m : MetaData) (off len i : Nat) : Prop :=
  i * m.pageSize < off + len ∧ off < i * m.pageSize + m.pageBytes i

/-- All of page `i` is in the range, the tail page up to the file's end. -/
def Whole (m : MetaData) (off len i : Nat) : Prop :=
  i < m.npages ∧ off ≤ i * m.pageSize ∧ i * m.pageSize + m.pageBytes i ≤ off + len

/-- The page is neither present, staged nor being written and, when that counts, not in flight. -/
def Absent (e : FileEntry) (flight : List (Nat × Nat)) (skipInFlight : Bool) (i : Nat) : Prop :=
  e.meta_.bitmap.get i = false ∧ e.buf i = none ∧ e.flushing i = none ∧
    (skipInFlight = true → ¬ ∃ r ∈ flight, r.1 ≤ i ∧ i < r.2)

/-- Runs in ascending order, with a gap between any two, aligned to pages up to the file's end, whose
bytes are those of the given pages. -/
structure ExactRuns (m : MetaData) (pages : Nat → Prop) (runs : List (Nat × Nat)) : Prop where
  proper : ∀ r ∈ runs, 0 < r.2
  apart : runs.Pairwise fun a b => a.1 + a.2 < b.1
  aligned : ∀ r ∈ runs, m.pageSize ∣ r.1 ∧ (m.pageSize ∣ r.1 + r.2 ∨ r.1 + r.2 = m.fileSize)
  union : ∀ b, (∃ r ∈ runs, r.1 ≤ b ∧ b < r.1 + r.2) ↔
    ∃ i, pages i ∧ i * m.pageSize ≤ b ∧ b < i * m.pageSize + m.pageBytes i

/-- What counts of a staged page beside its touched mark: its bytes, its CRC and its speculative
mark. -/
def BufPage.core (p : BufPage) : Bytes × UInt32 × Bool := (p.data, p.crc, p.spec)

/-- A call changed the staging of page `i`, or its speculative mark. -/
def Changed (e e' : FileEntry) (i : Nat) : Prop :=
  (e'.buf i).map BufPage.core ≠ (e.buf i).map BufPage.core ∨ e'.flushing i ≠ e.flushing i

/-! ### The pages of a range -/

section Range

variable {m : MetaData} {off len i : Nat}

/-- The pages the loops walk over are those with a byte of the range. -/
theorem touches_iff (hp : 0 < m.pageSize) (hlen : 0 < len) (hin : off + len ≤ m.fileSize) :
    off / m.pageSize ≤ i ∧ i ≤ (off + len - 1) / m.pageSize ↔ Touches m off len i := by
  constructor
  · rintro ⟨h1, h2⟩
    exact (page_overlaps hp hlen hin h1 h2).2
  · rintro ⟨h1, h2⟩
    have hbytes := m.pageBytes_le i
    refine ⟨?_, (Nat.le_div_iff_mul_le hp).2 (by omega)⟩
    rw [← Nat.lt_succ_iff, Nat.div_lt_iff_lt_mul hp, Nat.succ_mul]
    omega

theorem Touches.lt_npages (hp : 0 < m.pageSize) (hin : off + len ≤ m.fileSize)
    (h : Touches m off len i) : i < m.npages :=
  MetaData.lt_npages hp (h.1.trans_le hin)

theorem all_range'_iff {first last : Nat} {f : Nat → Bool} :
    (List.range' first (last + 1 - first)).all f = true ↔
      ∀ i, first ≤ i ∧ i ≤ last → f i = true := by
  rw [List.all_eq_true]
  refine forall_congr' fun i => ?_
  rw [List.mem_range'_1]
  refine imp_congr_left ?_
  omega

end Range

/-! ### The two queries agree -/

variable {e : FileEntry}

theorem here_eq_false_iff :
    here e i = false ↔ e.meta_.bitmap.get i = false ∧ e.buf i = none ∧ e.flushing i = none := by
  simp [here, and_assoc]

/-- Both loops of `hasRange` look for a page that is not here. -/
theorem hasRange_iff {off len : Nat} (hp : 0 < e.meta_.pageSize) :
    hasRange e off len = true ↔ 0 < len ∧ ¬ wraps off len ∧ off + len ≤ e.meta_.fileSize ∧
      ∀ i, Touches e.meta_ off len i → here e i = true := by
  by_cases hguard : len = 0 ∨ wraps off len ∨ e.meta_.fileSize < off + len
  · simp only [hasRange, if_pos hguard, Bool.false_eq_true, false_iff]
    rintro ⟨hlen, hwrap, hin, -⟩
    exact hguard.elim hlen.ne' fun h => h.elim hwrap (Nat.not_lt.2 hin)
  simp only [hasRange, if_neg hguard]
  simp only [not_or, Nat.not_lt] at hguard
  obtain ⟨hlen, hwrap, hin⟩ := hguard
  have hlen : 0 < len := Nat.pos_of_ne_zero hlen
  simp only [hlen, hwrap, hin, not_false_eq_true, true_and]
  have htouch (i : Nat) := touches_iff (i := i) hp hlen hin
  split
  · rename_i hempty
    simp only [rangeSet, all_range'_iff, htouch]
    refine forall_congr' fun i => imp_congr_right fun hi => ?_
    -- With nothing staged a page is here when its bit is set.
    have hi := List.all_eq_true.1 hempty i (List.mem_range.2 (hi.lt_npages hp hin))
    simp only [Bool.and_eq_true, Option.isNone_iff_eq_none] at hi
    simp [here, hi]
  · simp only [all_range'_iff, htouch]

/-- The bytes of a page, as the coalescing of runs counts them. -/
theorem pageSpan_eq (m : MetaData) (i : Nat) :
    pageSpan m.pageSize m.fileSize i = (i * m.pageSize, i * m.pageSize + m.pageBytes i) := by
  simp only [pageSpan, MetaData.pageBytes, Prod.mk.injEq, true_and]
  omega

theorem held_eq_false_iff {flight : List (Nat × Nat)} {skip : Bool} :
    (here e i || (skip && pageInFlight flight i)) = false ↔ Absent e flight skip i := by
  rw [Bool.or_eq_false_iff, here_eq_false_iff, Absent]
  cases skip <;> simp [pageInFlight, and_assoc]

/-- The runs are the maximal stretches of the absent pages of the range. -/
theorem absentRuns_exact {e : FileEntry} (flight : List (Nat × Nat)) {off len : Nat} (skip : Bool)
    (hp : 0 < e.meta_.pageSize) (hlen : 0 < len) (hin : off + len ≤ e.meta_.fileSize)
    (hsize : e.meta_.fileSize < 2 ^ 64) :
    ExactRuns e.meta_ (fun i => Touches e.meta_ off len i ∧ Absent e flight skip i)
      (absentRuns e flight off len skip) := by
  have hwrap : ¬ wraps off len := by
    unfold wraps
    omega
  rw [absentRuns, if_neg hwrap]
  generalize hheld : (fun i => here e i || (skip && pageInFlight flight i)) = held
  have hmin : min (off + len) e.meta_.fileSize = off + len := Nat.min_eq_left hin
  have heq := @absentRuns_spans e.meta_.pageSize e.meta_.fileSize held off len (by omega)
  -- The absent pages of the loop are those of the statement.
  have hmem (i : Nat) : i ∈ absentPages e.meta_.pageSize e.meta_.fileSize held off len ↔
      Touches e.meta_ off len i ∧ Absent e flight skip i := by
    rw [mem_absentPages, hmin, ← and_assoc, touches_iff hp hlen hin, ← hheld]
    exact and_congr_right' held_eq_false_iff
  have hasc := absentPages_ascending e.meta_.pageSize e.meta_.fileSize held off len
  generalize absentPages e.meta_.pageSize e.meta_.fileSize held off len = pages at heq hmem hasc
  have hspan : ∀ s ∈ pages.map (pageSpan e.meta_.pageSize e.meta_.fileSize), s.1 < s.2 := by
    intro s hs
    obtain ⟨i, hi, rfl⟩ := List.mem_map.1 hs
    have hlt := ((hmem i).1 hi).1.2
    have := ((hmem i).1 hi).1.lt_npages hp hin
    have := MetaData.start_lt this
    rw [pageSpan_eq]
    unfold MetaData.pageBytes
    omega
  have hsorted : (pages.map (pageSpan e.meta_.pageSize e.meta_.fileSize)).Pairwise
      fun a b => a.1 ≤ b.1 :=
    List.pairwise_map.2 (hasc.imp fun h => Nat.mul_le_mul_right _ (Nat.le_of_lt h))
  have hnil : Coalesced [] := ⟨by simp, .nil⟩
  obtain ⟨hc, hwithin⟩ := foldl_addSpan hnil (fun s hs => (hspan s hs).le) hsorted (by simp)
  have hstrict := foldl_addSpan_strict hnil (by simp) hspan
  have hends (r : Nat × Nat) (hr : r ∈ UCache.absentRuns e.meta_.pageSize e.meta_.fileSize held off len) :
      (∃ i ∈ pages, r.1 = i * e.meta_.pageSize) ∧
        ∃ i ∈ pages, r.1 + r.2 = i * e.meta_.pageSize + e.meta_.pageBytes i := by
    have hr := List.mem_map_of_mem (f := spanOf) hr
    rw [heq] at hr
    obtain ⟨⟨s, hs, hstart⟩, t, ht, hend⟩ :=
      foldl_addSpan_mem hnil (fun s hs => (hspan s hs).le) hr
    obtain ⟨i, hi, rfl⟩ := List.mem_map.1 hs
    obtain ⟨j, hj, rfl⟩ := List.mem_map.1 ht
    rw [pageSpan_eq] at hstart hend
    exact ⟨⟨i, hi, hstart.symm⟩, j, hj, hend.symm⟩
  rw [← heq] at hc hwithin hstrict
  refine ⟨?_, ?_, ?_, ?_⟩
  · intro r hr
    have := hstrict (spanOf r) (List.mem_map_of_mem hr)
    unfold spanOf at this
    omega
  · exact List.pairwise_map.1 hc.apart
  · intro r hr
    obtain ⟨⟨i, hi, hstart⟩, j, hj, hend⟩ := hends r hr
    have hin := ((hmem j).1 hj).1.lt_npages hp hin
    have := MetaData.start_lt hin
    refine ⟨⟨i, hstart.trans (Nat.mul_comm _ _)⟩, ?_⟩
    by_cases hfull : j * e.meta_.pageSize + e.meta_.pageSize ≤ e.meta_.fileSize
    · left
      refine ⟨j + 1, ?_⟩
      rw [hend, Nat.mul_add, Nat.mul_one, Nat.mul_comm e.meta_.pageSize j]
      unfold MetaData.pageBytes
      omega
    · right
      rw [hend]
      unfold MetaData.pageBytes
      omega
  · intro b
    have hruns : (∃ r ∈ UCache.absentRuns e.meta_.pageSize e.meta_.fileSize held off len,
        r.1 ≤ b ∧ b < r.1 + r.2) ↔ Within ((UCache.absentRuns e.meta_.pageSize e.meta_.fileSize
          held off len).map spanOf) b := by
      simp [Within, spanOf]
    rw [hruns, hwithin]
    simp [Within, pageSpan_eq, hmem, and_assoc]

/-- There is no run when no page is to be listed. -/
theorem ExactRuns.eq_nil_iff {m : MetaData} {pages : Nat → Prop} (h : ExactRuns m pages runs)
    (hpages : ∀ i, pages i → i < m.npages) : runs = [] ↔ ∀ i, ¬ pages i := by
  constructor
  · rintro rfl i hi
    have hpos : 0 < m.pageBytes i := by
      have := MetaData.start_lt (hpages i hi)
      have := MetaData.pageSize_pos_of_lt (hpages i hi)
      unfold MetaData.pageBytes
      omega
    obtain ⟨r, hr, -⟩ := (h.union (i * m.pageSize)).2 ⟨i, hi, Nat.le_refl _, by omega⟩
    cases hr
  · intro hnone
    rw [List.eq_nil_iff_forall_not_mem]
    intro r hr
    have hpos := h.proper r hr
    obtain ⟨i, hi, -⟩ := (h.union r.1).1 ⟨r, hr, Nat.le_refl _, by omega⟩
    exact hnone i hi

theorem hasRange_iff_absentRuns (flight : List (Nat × Nat)) {off len : Nat}
    (hp : 0 < e.meta_.pageSize) (hlen : 0 < len) (hin : off + len ≤ e.meta_.fileSize)
    (hsize : e.meta_.fileSize < 2 ^ 64) :
    hasRange e off len = true ↔ absentRuns e flight off len false = [] := by
  have hruns := absentRuns_exact flight false hp hlen hin hsize
  have hwrap : ¬ wraps off len := by
    unfold wraps
    omega
  rw [hasRange_iff hp, hruns.eq_nil_iff fun i hi => hi.1.lt_npages hp hin]
  simp only [hlen, hwrap, hin, not_false_eq_true, true_and]
  refine forall_congr' fun i => ?_
  have habsent : Absent e flight false i ↔ here e i = false := by
    rw [← held_eq_false_iff, Bool.false_and, Bool.or_false]
  rw [habsent, not_and, Bool.not_eq_false]

/-! ### What the loops take -/

theorem mem_takenPages {m : MetaData} {off stop : Nat} (hp : 0 < m.pageSize)
    (hstop : stop ≤ m.fileSize) (hi : i ∈ takenPages m off stop) :
    i < m.npages ∧ off ≤ i * m.pageSize ∧ i * m.pageSize + m.pageBytes i ≤ stop := by
  rw [takenPages, List.mem_range'_1] at hi
  have hfirst : off ≤ i * m.pageSize := by
    have hle := (Nat.div_le_iff_le_mul_add_pred hp).1 hi.1
    rw [Nat.mul_comm] at hle
    omega
  have hbytes := m.pageBytes_le i
  have hlast : i < stopPage m stop := by omega
  unfold stopPage at hlast
  split at hlast
  · -- The range ends with the file: the short last page is taken as well.
    rename_i hend
    have hle := Nat.mul_le_mul_right m.pageSize hlast
    have := Nat.div_mul_le_self (stop + m.pageSize - 1) m.pageSize
    rw [Nat.succ_mul] at hle
    refine ⟨MetaData.lt_npages hp (by omega), hfirst, ?_⟩
    unfold MetaData.pageBytes
    omega
  · have hle := Nat.mul_le_mul_right m.pageSize hlast
    have := Nat.div_mul_le_self stop m.pageSize
    rw [Nat.succ_mul] at hle
    exact ⟨MetaData.lt_npages hp (by omega), hfirst, by omega⟩

theorem dropSpecPage_other {j : Nat} (h : i ≠ j) : (e.dropSpecPage j).buf i = e.buf i := by
  unfold dropSpecPage
  split
  · split
    · exact Function.update_of_ne h _ _
    · rfl
  · rfl

theorem dropSpecPage_flushing (e : FileEntry) (j : Nat) :
    (e.dropSpecPage j).flushing = e.flushing := by
  unfold dropSpecPage
  split
  · split <;> rfl
  · rfl

/-- A walk that drops speculative pages leaves every other page alone. -/
theorem dropPages_other {pages : List Nat} (hi : i ∉ pages) (e : FileEntry) :
    (pages.foldl dropSpecPage e).buf i = e.buf i := by
  induction pages generalizing e with
  | nil => rfl
  | cons j pages ih =>
      rw [List.mem_cons, not_or] at hi
      exact (ih hi.2 _).trans (dropSpecPage_other hi.1)

theorem dropPages_flushing (pages : List Nat) (e : FileEntry) :
    (pages.foldl dropSpecPage e).flushing = e.flushing := by
  induction pages generalizing e with
  | nil => rfl
  | cons j pages ih => exact (ih _).trans (dropSpecPage_flushing e j)

/-- Touching a page changes neither its bytes nor its speculative mark. -/
theorem touchPages_core (pages : List Nat) (e : FileEntry) (i : Nat) :
    ((pages.foldl touchSpecPage e).buf i).map BufPage.core = (e.buf i).map BufPage.core ∧
      (pages.foldl touchSpecPage e).flushing = e.flushing ∧
      (pages.foldl touchSpecPage e).meta_ = e.meta_ := by
  induction pages generalizing e with
  | nil => exact ⟨rfl, rfl, rfl⟩
  | cons j pages ih =>
      obtain ⟨hcore, hflush, hmeta⟩ := ih (e.touchSpecPage j)
      have hstep : ((e.touchSpecPage j).buf i).map BufPage.core = (e.buf i).map BufPage.core ∧
          (e.touchSpecPage j).flushing = e.flushing ∧ (e.touchSpecPage j).meta_ = e.meta_ := by
        unfold touchSpecPage
        split
        · rename_i p hp
          split
          · refine ⟨?_, rfl, rfl⟩
            by_cases hij : i = j
            · subst hij
              simp [hp, BufPage.core]
            · simp [Function.update_of_ne hij]
          · exact ⟨rfl, rfl, rfl⟩
        · exact ⟨rfl, rfl, rfl⟩
      exact ⟨hcore.trans hstep.1, hflush.trans hstep.2.1, hmeta.trans hstep.2.2⟩

variable {e : FileEntry} {off len i : Nat}

theorem dropSpeculative_changed (hp : 0 < e.meta_.pageSize)
    (h : Changed e (dropSpeculative e off len) i) : Whole e.meta_ off len i := by
  unfold dropSpeculative at h
  simp only at h
  split at h
  · simp [Changed] at h
  · by_cases hi : i ∈ takenPages e.meta_ off (min (off + len) e.meta_.fileSize)
    · obtain ⟨hlt, hlow, hhigh⟩ := mem_takenPages hp (Nat.min_le_right _ _) hi
      exact ⟨hlt, hlow, hhigh.trans (Nat.min_le_left _ _)⟩
    · simp [Changed, dropPages_other hi, dropPages_flushing] at h

theorem consumeSpeculative_changed (hp : 0 < e.meta_.pageSize)
    (h : Changed e (consumeSpeculative e off len) i) : Whole e.meta_ off len i := by
  unfold consumeSpeculative at h
  simp only at h
  split at h
  · simp [Changed] at h
  · by_cases hi : i ∈ takenPages e.meta_ off (min (off + len) e.meta_.fileSize)
    · obtain ⟨hlt, hlow, hhigh⟩ := mem_takenPages hp (Nat.min_le_right _ _) hi
      exact ⟨hlt, hlow, hhigh.trans (Nat.min_le_left _ _)⟩
    · generalize hedges : List.filter _ _ = edges at h
      obtain ⟨hcore, hflush, -⟩ := touchPages_core edges e i
      simp [Changed, dropPages_other hi, dropPages_flushing, hcore, hflush] at h

/-! ### The same loops by their pages -/

theorem takeWhile_range' {p : Nat → Bool} {first n k : Nat} (hk : k ≤ n)
    (htrue : ∀ i, first ≤ i → i < first + k → p i = true)
    (hfalse : k < n → p (first + k) = false) :
    (List.range' first n).takeWhile p = List.range' first k := by
  induction k generalizing first n with
  | zero =>
      cases n with
      | zero => rfl
      | succ n =>
          have hstop := hfalse (Nat.succ_pos n)
          rw [Nat.add_zero] at hstop
          simp [List.range'_succ, hstop]
  | succ k ih =>
      cases n with
      | zero => omega
      | succ n =>
          have hhead := htrue first (Nat.le_refl _) (by omega)
          rw [List.range'_succ, List.takeWhile_cons_of_pos hhead, List.range'_succ]
          refine congrArg _ (ih (by omega) (fun i h1 h2 => htrue i (by omega) (by omega)) fun hlt => ?_)
          rw [Nat.add_right_comm]
          exact hfalse (by omega)

/-- A page at or behind the rounded end does not end in the range. -/
theorem not_whole_of_stopPage_le {m : MetaData} {stop : Nat} (hp : 0 < m.pageSize)
    (hstop : stop ≤ m.fileSize) (hi : i < m.npages) (hle : stopPage m stop ≤ i) :
    ¬ i * m.pageSize + m.pageBytes i ≤ stop := by
  have hstart := MetaData.start_lt hi
  unfold stopPage at hle
  split at hle
  · rename_i hend
    have hlast := Nat.mul_le_mul_right m.pageSize hle
    have := @Nat.lt_div_mul_add (stop + m.pageSize - 1) m.pageSize hp
    omega
  · have hlast := Nat.mul_le_mul_right m.pageSize hle
    have := @Nat.lt_div_mul_add stop m.pageSize hp
    unfold MetaData.pageBytes
    omega

/-- The rounded bounds give the pages that lie wholly in the range. -/
theorem takenPages_eq {m : MetaData} {off stop : Nat} (hp : 0 < m.pageSize)
    (hstop : stop ≤ m.fileSize) : takenPages m off stop = wholePages m off stop := by
  have hpages : stopPage m stop ≤ m.npages := by
    rcases Nat.eq_zero_or_pos (stopPage m stop) with hzero | hpos
    · omega
    · have hmem : stopPage m stop - 1 ∈ takenPages m 0 stop := by
        have hfirst : firstPage m 0 = 0 := Nat.div_eq_of_lt (by omega)
        rw [takenPages, List.mem_range'_1, hfirst]
        omega
      have := (mem_takenPages hp hstop hmem).1
      omega
  symm
  refine takeWhile_range' (Nat.sub_le_sub_right hpages _) ?_ ?_
  · intro i h1 h2
    obtain ⟨hi, -, hend⟩ := mem_takenPages hp hstop (List.mem_range'_1.2 ⟨h1, h2⟩)
    have hpos := MetaData.start_lt hi
    unfold MetaData.pageBytes at hend ⊢
    simp only [Bool.and_eq_true, decide_eq_true_eq]
    omega
  · intro hlt
    have hout := not_whole_of_stopPage_le (i := firstPage m off + (stopPage m stop - firstPage m off))
      hp hstop (by unfold firstPage at hlt ⊢; omega) (by omega)
    rw [Bool.and_eq_false_iff]
    exact .inr (decide_eq_false hout)

/-- It is the loop over the pages wholly inside the range. -/
theorem dropSpeculative_eq (hp : 0 < e.meta_.pageSize) (hwrap : ¬ wraps off len) :
    dropSpeculative e off len = e.dropSpeculative off len := by
  have hpages := @takenPages_eq e.meta_ off _ hp (Nat.min_le_right (off + len) e.meta_.fileSize)
  unfold dropSpeculative FileEntry.dropSpeculative
  simp only [hwrap, false_or]
  split
  · -- Nothing ends in an empty range.
    rename_i hnone
    have hnil : wholePages e.meta_ off (min (off + len) e.meta_.fileSize) = [] := by
      rw [List.eq_nil_iff_forall_not_mem]
      intro i hi
      rw [← hpages] at hi
      obtain ⟨hlt, hlow, hhigh⟩ := mem_takenPages hp (Nat.min_le_right _ _) hi
      have := MetaData.start_lt hlt
      unfold MetaData.pageBytes at hhigh
      omega
    rw [hnil]
    rfl
  · rw [hpages]

theorem consumeSpeculative_eq (hp : 0 < e.meta_.pageSize) (hwrap : ¬ wraps off len) :
    consumeSpeculative e off len = e.consumeSpeculative off len := by
  have hpages := @takenPages_eq e.meta_ off _ hp (Nat.min_le_right (off + len) e.meta_.fileSize)
  unfold consumeSpeculative FileEntry.consumeSpeculative
  simp only [hwrap, false_or]
  split
  · rfl
  · rw [← hpages]
    congr 2
    refine List.filter_congr fun pg _ => ?_
    rw [Bool.eq_iff_iff]
    simp only [takenPages, List.mem_range'_1, Bool.or_eq_true, decide_eq_true_eq]
    omega

/-! ### Cover by what is in flight -/

/-- One turn of the loop in `coveredByFlight`: from a page short of `stop` to the end of the first
range that holds it. -/
def coverTurn (flight : List (Nat × Nat)) (stop page : Nat) : Option Nat :=
  if stop ≤ page then none
  else (flight.find? fun r => decide (r.1 ≤ page) && decide (page < r.2)).map Prod.snd

theorem coverTurn_advances {flight : List (Nat × Nat)} {stop page next : Nat}
    (h : coverTurn flight stop page = some next) : page < stop ∧ page < next := by
  unfold coverTurn at h
  split at h
  · cases h
  · rename_i hlt
    obtain ⟨r, hr, rfl⟩ := Option.map_eq_some_iff.1 h
    have hhit := List.find?_some hr
    simp only [Bool.and_eq_true, decide_eq_true_eq] at hhit
    exact ⟨by omega, hhit.2⟩

/-- There is no endless run of turns. -/
theorem coverTurn_wf (flight : List (Nat × Nat)) (stop : Nat) :
    WellFounded fun next page => coverTurn flight stop page = some next :=
  Subrelation.wf
    (fun {next page} h => by
      obtain ⟨hstop, hnext⟩ := coverTurn_advances h
      show stop - next < stop - page
      omega)
    (measure fun page => stop - page).wf

/-- `coveredByFlight` is what the loop comes to when its turns end. -/
theorem coveredByFlight_turn (flight : List (Nat × Nat)) (page stop : Nat) :
    coveredByFlight flight page stop =
      match coverTurn flight stop page with
      | some next => coveredByFlight flight next stop
      | none => decide (stop ≤ page) := by
  unfold coverTurn
  by_cases hstop : stop ≤ page
  · have hcovered : coveredByFlight flight page stop = true :=
      coveredByFlight_iff.2 fun i _ _ => by omega
    rw [hcovered, if_pos hstop, decide_eq_true hstop]
  · rw [if_neg hstop]
    obtain ⟨fuel, hfuel⟩ : ∃ fuel, stop - page = fuel + 1 := ⟨stop - page - 1, by omega⟩
    rw [coveredByFlight, hfuel, coverLoop, if_neg hstop]
    cases hfind : flight.find? fun r => decide (r.1 ≤ page) && decide (page < r.2) with
    | none => exact (decide_eq_false hstop).symm
    | some r =>
        have hhit := List.find?_some hfind
        simp only [Bool.and_eq_true, decide_eq_true_eq] at hhit
        have hloop := @coverLoop_iff flight stop fuel r.2 (by omega)
        exact Bool.eq_iff_iff.2 (hloop.trans coveredByFlight_iff.symm)

theorem pageInFlight_iff {flight : List (Nat × Nat)} {page : Nat} :
    pageInFlight flight page = true ↔ OnWire flight page := by
  simp [pageInFlight, OnWire]

/-- [SRC FileEntry.cc:918-943] The cover test is exact: its loop ends, its answer is whether every page
is in some range of the flight, and for a single page it is that of `pageInFlight`. -/
theorem cover_test_exact (flight : List (Nat × Nat)) (firstPage endPage : Nat) :
    (WellFounded fun next page => coverTurn flight endPage page = some next) ∧
      (∀ page, coveredByFlight flight page endPage =
        match coverTurn flight endPage page with
        | some next => coveredByFlight flight next endPage
        | none => decide (endPage ≤ page)) ∧
      (coveredByFlight flight firstPage endPage = true ↔
        ∀ i, firstPage ≤ i → i < endPage → ∃ r ∈ flight, r.1 ≤ i ∧ i < r.2) ∧
      (∀ i, pageInFlight flight i = coveredByFlight flight i (i + 1)) := by
  refine ⟨coverTurn_wf flight endPage, fun page => coveredByFlight_turn flight page endPage,
    coveredByFlight_iff, fun i => ?_⟩
  rw [Bool.eq_iff_iff, pageInFlight_iff, coveredByFlight_iff]
  constructor
  · intro hwire j hij hji
    obtain rfl : j = i := by omega
    exact hwire
  · intro hall
    exact hall i (Nat.le_refl i) (Nat.lt_succ_self i)

/-- The queries give one answer: a range is here when it has no absent run; the absent runs are
exact, with and without what is in flight; and dropping or consuming a range touches the staging of
its whole pages only.  A file's size is an `off_t`: rounding an offset in it up does not wrap. -/
theorem presence_queries_agree (e : FileEntry) (flight : List (Nat × Nat)) (off len : Nat)
    (hp : 0 < e.meta_.pageSize) (hsize : e.meta_.fileSize + e.meta_.pageSize ≤ 2 ^ 64) (hlen : 0 < len)
    (hin : off + len ≤ e.meta_.fileSize) :
    (hasRange e off len = true ↔ absentRuns e flight off len false = []) ∧
      (∀ skip, ExactRuns e.meta_ (fun i => Touches e.meta_ off len i ∧ Absent e flight skip i)
        (absentRuns e flight off len skip)) ∧
      (∀ i, Changed e (dropSpeculative e off len) i → Whole e.meta_ off len i) ∧
      (∀ i, Changed e (consumeSpeculative e off len) i → Whole e.meta_ off len i) :=
  ⟨hasRange_iff_absentRuns flight hp hlen hin (by omega),
    fun skip => absentRuns_exact flight skip hp hlen hin (by omega),
    fun _ => dropSpeculative_changed hp, fun _ => consumeSpeculative_changed hp⟩

/-- A file of two pages and 808 bytes: the first page present, the last one read ahead. -/
def partly : FileEntry :=
  { ofMeta {} [] { MetaData.fresh [] 9000 4096 0 with bitmap := (PageBitmap.reset 3).set 0 } false with
    buf := fun i =>
      if i = 2 then some { data := List.replicate 808 7, crc := 0, spec := true } else none }

/-- A range from inside the first page to the end of the file, the middle page in flight. -/
theorem partly_agrees :
    (hasRange partly 100 8900 = true ↔ absentRuns partly [(1, 2)] 100 8900 false = []) ∧
      (∀ skip, ExactRuns partly.meta_
        (fun i => Touches partly.meta_ 100 8900 i ∧ Absent partly [(1, 2)] skip i)
        (absentRuns partly [(1, 2)] 100 8900 skip)) ∧
      (∀ i, Changed partly (dropSpeculative partly 100 8900) i → Whole partly.meta_ 100 8900 i) ∧
      (∀ i, Changed partly (consumeSpeculative partly 100 8900) i →
        Whole partly.meta_ 100 8900 i) :=
  presence_queries_agree partly [(1, 2)] 100 8900 (by decide) (by decide) (by decide) (by decide)

example : absentRuns partly [(1, 2)] 100 8900 false = [(4096, 4096)] ∧
    absentRuns partly [(1, 2)] 100 8900 true = [] := by decide

end Presence

end UCache
