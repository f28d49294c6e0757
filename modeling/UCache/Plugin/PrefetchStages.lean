/-
Module: UCache.Plugin.PrefetchStages
Purpose: What read-ahead keeps of the elements it fetches: exactly the pages it predicted and the
  cache lacks, each once, and nothing of what is read only to join two of them.
Trusted boundary: none
Main exports: prefetchParts, noteStages, readahead_stages_predicted
-/
import UCache.Core.Parking
import UCache.Plugin.PrefetchReads

namespace UCache

open Lib

/-! ### The requests -/

/-- [SRC Prefetch.cc:794-863] The elements of each vector read, in the order in which they are
sent. -/
def prefetchParts (pageSize fileSize bridge : Nat) (held : Nat → Bool) (cand : List Cand) :
    List (List Elem) :=
  let absent := absentOf pageSize fileSize held cand
  elemParts (prefetchElems pageSize bridge absent.length absent)

/-- The ranges of the elements that are kept. -/
def stagesOf (elems : List Elem) : List (Nat × Nat) := elems.flatMap Elem.stage

/-- [SRC Prefetch.cc:882-884] What is announced before a request goes out. -/
def noteStages (pageSize fileSize : Nat) (flight : List (Nat × Nat)) (part : List Elem) :
    List (Nat × Nat) :=
  (stagesOf part).foldl (fun f r => f ++ (clipPages pageSize fileSize r).toList) flight

/-- The parts are the elements, cut into pieces. -/
theorem elemParts_flatten (elems : List Elem) : (elemParts elems).flatten = elems := by
  have htake : ∀ n, ((List.range n).map fun k =>
      (elems.drop (k * kMaxReadvElems)).take kMaxReadvElems).flatten =
        elems.take (n * kMaxReadvElems) := by
    intro n
    induction n with
    | zero => simp
    | succ n ih =>
        rw [List.range_succ, List.map_append, List.flatten_append, ih, Nat.succ_mul, List.take_add]
        simp
  unfold elemParts
  rw [htake, List.take_of_length_le]
  unfold kMaxReadvElems
  omega

/-! ### Ranges of whole pages -/

/-- The position is a page boundary, or the end of the file. -/
def PageEdge (pageSize fileSize b : Nat) : Prop := pageSize ∣ b ∨ b = fileSize

/-- Ranges, as offsets and lengths, of whole pages one behind the other: the last page of the file may
be short. -/
structure Laid (pageSize fileSize : Nat) (ranges : List (Nat × Nat)) : Prop where
  pos : ∀ r ∈ ranges, 0 < r.2
  start : ∀ r ∈ ranges, pageSize ∣ r.1
  stop : ∀ r ∈ ranges, PageEdge pageSize fileSize (r.1 + r.2)
  apart : ranges.Pairwise fun a b => a.1 + a.2 ≤ b.1

/-- Some range has the position. -/
def Staged (ranges : List (Nat × Nat)) (b : Nat) : Prop := Within (ranges.map spanOf) b

theorem staged_iff {ranges : List (Nat × Nat)} {b : Nat} :
    Staged ranges b ↔ ∃ r ∈ ranges, r.1 ≤ b ∧ b < r.1 + r.2 := by
  simp [Staged, Within, spanOf]

theorem staged_append {ranges more : List (Nat × Nat)} {b : Nat} :
    Staged (ranges ++ more) b ↔ Staged ranges b ∨ Staged more b := by
  simp only [staged_iff, List.mem_append, or_and_right, exists_or]

theorem staged_flatMap {α : Type} {l : List α} {f : α → List (Nat × Nat)} {b : Nat} :
    Staged (l.flatMap f) b ↔ ∃ x ∈ l, Staged (f x) b := by
  simp only [staged_iff, List.mem_flatMap]
  grind

theorem Laid.append {pageSize fileSize n : Nat} {ranges more : List (Nat × Nat)}
    (h : Laid pageSize fileSize ranges) (h' : Laid pageSize fileSize more)
    (hbefore : ∀ r ∈ ranges, r.1 + r.2 ≤ n) (hbehind : ∀ r ∈ more, n ≤ r.1) :
    Laid pageSize fileSize (ranges ++ more) := by
  constructor
  · exact fun r hr => (List.mem_append.1 hr).elim (h.pos r) (h'.pos r)
  · exact fun r hr => (List.mem_append.1 hr).elim (h.start r) (h'.start r)
  · exact fun r hr => (List.mem_append.1 hr).elim (h.stop r) (h'.stop r)
  · refine List.pairwise_append.2 ⟨h.apart, h'.apart, fun a ha b hb => ?_⟩
    exact (hbefore a ha).trans (hbehind b hb)

/-! ### What is kept of a group -/

section Group

variable {pageSize fileSize : Nat} (hpos : 0 < pageSize) (hpage : pageSize ≤ kMaxReadvElem)

include hpos hpage

/-- A run that starts on a page boundary is cut on page boundaries. -/
theorem cutRun_edges {fuel pos stop : Nat} (hstart : pageSize ∣ pos)
    (hstop : PageEdge pageSize fileSize stop) :
    ∀ w ∈ cutRun pageSize fuel pos stop,
      pageSize ∣ w.off ∧ PageEdge pageSize fileSize (w.off + w.len) := by
  induction fuel generalizing pos with
  | zero => simp [cutRun]
  | succ fuel ih =>
      unfold cutRun
      split
      · rename_i hlt
        intro w hw
        by_cases hlong : kMaxReadvElem < stop - pos
        · obtain ⟨hcut, hgt, hle⟩ := readvElemEnd_of_long hpos hpage hlong
          have hdvd : pageSize ∣ readvElemEnd pos stop pageSize := hcut ▸ Nat.dvd_mul_left _ _
          rcases List.mem_cons.1 hw with rfl | hw
          · refine ⟨hstart, .inl ?_⟩
            simp only
            rwa [Nat.add_sub_cancel' hgt.le]
          · exact ih hdvd w hw
        · have hend : readvElemEnd pos stop pageSize = stop := by
            unfold readvElemEnd
            rw [if_pos (by omega)]
          rw [hend] at hw
          rcases List.mem_cons.1 hw with rfl | hw
          · refine ⟨hstart, ?_⟩
            simp only
            rwa [Nat.add_sub_cancel' hlt.le]
          · cases fuel <;> simp [cutRun] at hw
      · simp

omit hpos hpage

theorem mem_stageOf {keep : List (Nat × Nat)} {w : WireElem} {q : Nat × Nat} :
    q ∈ stageOf keep w ↔ ∃ r ∈ keep, max r.1 w.off < min (r.1 + r.2) (w.off + w.len) ∧
      q = (max r.1 w.off, min (r.1 + r.2) (w.off + w.len) - max r.1 w.off) := by
  simp only [stageOf, List.mem_filterMap]
  refine exists_congr fun r => and_congr_right fun _ => ?_
  split
  · rename_i hlt
    simp only [Option.some.injEq, hlt, true_and, eq_comm]
  · rename_i hge
    simp [hge]

/-- What is kept of one element: whole pages inside it, those bytes of it that are to be kept. -/
theorem stageOf_laid {keep : List (Nat × Nat)} (hkeep : Laid pageSize fileSize keep) {w : WireElem}
    (hstart : pageSize ∣ w.off) (hstop : PageEdge pageSize fileSize (w.off + w.len)) :
    Laid pageSize fileSize (stageOf keep w) ∧
      (∀ q ∈ stageOf keep w, w.off ≤ q.1 ∧ q.1 + q.2 ≤ w.off + w.len) ∧
      ∀ b, Staged (stageOf keep w) b ↔ Staged keep b ∧ w.off ≤ b ∧ b < w.off + w.len := by
  refine ⟨⟨?_, ?_, ?_, ?_⟩, ?_, fun b => ?_⟩
  · intro q hq
    obtain ⟨r, -, hlt, rfl⟩ := mem_stageOf.1 hq
    exact Nat.sub_pos_of_lt hlt
  · intro q hq
    obtain ⟨r, hr, -, rfl⟩ := mem_stageOf.1 hq
    rcases max_choice r.1 w.off with hmax | hmax
    · simp only [hmax]
      exact hkeep.start r hr
    · simp only [hmax]
      exact hstart
  · intro q hq
    obtain ⟨r, hr, hlt, rfl⟩ := mem_stageOf.1 hq
    simp only [Nat.add_sub_cancel' hlt.le]
    rcases min_choice (r.1 + r.2) (w.off + w.len) with hmin | hmin
    · rw [hmin]
      exact hkeep.stop r hr
    · rw [hmin]
      exact hstop
  · refine List.pairwise_filterMap.2 (hkeep.apart.imp fun hab q hq q' hq' => ?_)
    simp only [Option.ite_none_right_eq_some, Option.some.injEq] at hq hq'
    obtain ⟨h1, rfl⟩ := hq
    obtain ⟨h2, rfl⟩ := hq'
    simp only
    omega
  · intro q hq
    obtain ⟨r, -, hlt, rfl⟩ := mem_stageOf.1 hq
    simp only
    omega
  · rw [staged_iff, staged_iff]
    constructor
    · rintro ⟨q, hq, hin⟩
      obtain ⟨r, hr, hlt, rfl⟩ := mem_stageOf.1 hq
      simp only at hin
      exact ⟨⟨r, hr, by omega, by omega⟩, by omega, by omega⟩
    · rintro ⟨⟨r, hr, h1, h2⟩, h3, h4⟩
      refine ⟨_, mem_stageOf.2 ⟨r, hr, by omega, rfl⟩, ?_⟩
      simp only
      omega

/-- What is kept of elements one behind the other is what they have of the ranges. -/
theorem stages_laid {keep : List (Nat × Nat)} (hkeep : Laid pageSize fileSize keep)
    {wires : List WireElem} (hedges : ∀ w ∈ wires,
      pageSize ∣ w.off ∧ PageEdge pageSize fileSize (w.off + w.len))
    (hapart : wires.Pairwise fun a b => a.off + a.len ≤ b.off) :
    Laid pageSize fileSize (wires.flatMap (stageOf keep)) ∧
      ∀ b, Staged (wires.flatMap (stageOf keep)) b ↔ Staged keep b ∧ Brings wires b := by
  have hone := fun w hw => stageOf_laid hkeep (hedges w hw).1 (hedges w hw).2
  constructor
  · constructor
    · intro q hq
      obtain ⟨w, hw, hq⟩ := List.mem_flatMap.1 hq
      exact (hone w hw).1.pos q hq
    · intro q hq
      obtain ⟨w, hw, hq⟩ := List.mem_flatMap.1 hq
      exact (hone w hw).1.start q hq
    · intro q hq
      obtain ⟨w, hw, hq⟩ := List.mem_flatMap.1 hq
      exact (hone w hw).1.stop q hq
    · refine List.pairwise_flatMap.2 ⟨fun w hw => (hone w hw).1.apart, ?_⟩
      refine hapart.imp_of_mem ?_
      intro v w hv hw hvw a ha b hb
      have h1 := ((hone v hv).2.1 a ha).2
      have h2 := ((hone w hw).2.1 b hb).1
      omega
  · intro b
    constructor
    · intro h
      obtain ⟨q, hq, hin⟩ := staged_iff.1 h
      obtain ⟨w, hw, hq⟩ := List.mem_flatMap.1 hq
      obtain ⟨hk, hwb⟩ := ((hone w hw).2.2 b).1 (staged_iff.2 ⟨q, hq, hin⟩)
      exact ⟨hk, w, hw, hwb⟩
    · rintro ⟨hk, w, hw, hwb⟩
      obtain ⟨q, hq, hin⟩ := staged_iff.1 (((hone w hw).2.2 b).2 ⟨hk, hwb⟩)
      exact staged_iff.2 ⟨q, List.mem_flatMap.2 ⟨w, hw, hq⟩, hin⟩

theorem mem_groupElems {start stop : Nat} {keep : List (Nat × Nat)} {el : Elem}
    (h : el ∈ groupElems pageSize start stop keep) :
    el.wire ∈ cutRun pageSize (stop - start) start stop ∧ el.stage = stageOf keep el.wire := by
  obtain ⟨w, hw, hel⟩ := List.mem_filterMap.1 h
  split at hel
  · cases hel
  · cases hel
    exact ⟨hw, rfl⟩

/-- A piece that is left out keeps nothing. -/
theorem stagesOf_groupElems (start stop : Nat) (keep : List (Nat × Nat)) :
    stagesOf (groupElems pageSize start stop keep) =
      (cutRun pageSize (stop - start) start stop).flatMap (stageOf keep) := by
  unfold groupElems stagesOf
  induction cutRun pageSize (stop - start) start stop with
  | nil => rfl
  | cons w rest ih =>
      rw [List.filterMap_cons, List.flatMap_cons, ← ih]
      by_cases hstage : stageOf keep w = []
      · simp [hstage]
      · simp [hstage]

end Group

/-- Joined ranges end where one of them does. -/
theorem joinGap_edge {pageSize fileSize bridge start stop : Nat} {rest : List (Nat × Nat)}
    (hstop : PageEdge pageSize fileSize stop)
    (hrest : ∀ r ∈ rest, PageEdge pageSize fileSize (r.1 + r.2)) :
    PageEdge pageSize fileSize (joinGap bridge start stop rest).2.1 := by
  induction rest generalizing stop with
  | nil => exact hstop
  | cons r rest ih =>
      unfold joinGap
      split
      · exact ih (hrest r (by simp)) fun q hq => hrest q (by simp [hq])
      · exact hstop

/-! ### What is kept of all elements -/

/-- The elements keep the ranges, as whole pages, each part in the element that brings it. -/
structure KeepsStages (pageSize fileSize : Nat) (absent : List (Nat × Nat)) (elems : List Elem) :
    Prop where
  laid : Laid pageSize fileSize (stagesOf elems)
  inside : ∀ el ∈ elems, ∀ r ∈ el.stage,
    el.wire.off ≤ r.1 ∧ r.1 + r.2 ≤ el.wire.off + el.wire.len
  exact : ∀ b, Staged (stagesOf elems) b ↔ Staged absent b

theorem Laid.split {pageSize fileSize : Nat} {ranges more : List (Nat × Nat)}
    (h : Laid pageSize fileSize (ranges ++ more)) :
    Laid pageSize fileSize ranges ∧ Laid pageSize fileSize more := by
  obtain ⟨h1, h2, -⟩ := List.pairwise_append.1 h.apart
  exact ⟨⟨fun r hr => h.pos r (by simp [hr]), fun r hr => h.start r (by simp [hr]),
      fun r hr => h.stop r (by simp [hr]), h1⟩,
    ⟨fun r hr => h.pos r (by simp [hr]), fun r hr => h.start r (by simp [hr]),
      fun r hr => h.stop r (by simp [hr]), h2⟩⟩

/-- Ranges without a position from `n` on end by `n`. -/
theorem Laid.ends {pageSize fileSize n : Nat} {ranges : List (Nat × Nat)}
    (h : Laid pageSize fileSize ranges) (hn : ∀ b, Staged ranges b → b < n) :
    ∀ r ∈ ranges, r.1 + r.2 ≤ n := by
  intro r hr
  have hpos := h.pos r hr
  have := hn (r.1 + r.2 - 1) (staged_iff.2 ⟨r, hr, by omega, by omega⟩)
  omega

/-- Ranges without a position before `n` start from `n` on. -/
theorem Laid.starts {pageSize fileSize n : Nat} {ranges : List (Nat × Nat)}
    (h : Laid pageSize fileSize ranges) (hn : ∀ b, Staged ranges b → n ≤ b) :
    ∀ r ∈ ranges, n ≤ r.1 := by
  intro r hr
  have hpos := h.pos r hr
  exact hn r.1 (staged_iff.2 ⟨r, hr, le_refl _, by omega⟩)

section Kept

variable {pageSize fileSize : Nat} (hpos : 0 < pageSize) (hpage : pageSize ≤ kMaxReadvElem)

include hpos hpage

theorem groupElems_keeps {start stop : Nat} {keep : List (Nat × Nat)}
    (hkeep : Laid pageSize fileSize keep) (hle : start ≤ stop) (hstart : pageSize ∣ start)
    (hstop : PageEdge pageSize fileSize stop)
    (hin : ∀ r ∈ keep, start ≤ r.1 ∧ r.1 + r.2 ≤ stop) :
    KeepsStages pageSize fileSize keep (groupElems pageSize start stop keep) := by
  have hfrom := cutRun_from hpos hpage hle (le_refl _)
  have hedges := @cutRun_edges pageSize fileSize hpos hpage (stop - start) start stop hstart hstop
  obtain ⟨hlaid, hexact⟩ := stages_laid hkeep hedges hfrom.apart
  rw [← stagesOf_groupElems] at hlaid hexact
  refine ⟨hlaid, ?_, fun b => (hexact b).trans (and_iff_left_of_imp fun hb => ?_)⟩
  · intro el hel r hr
    obtain ⟨hwire, hstage⟩ := mem_groupElems hel
    rw [hstage] at hr
    exact (stageOf_laid hkeep (hedges _ hwire).1 (hedges _ hwire).2).2.1 r hr
  · obtain ⟨r, hr, h1, h2⟩ := staged_iff.1 hb
    have := hin r hr
    exact hfrom.brings.2 ⟨by omega, by omega⟩

/-- The elements for ranges of whole pages keep just these. -/
theorem prefetchElems_keeps (bridge : Nat) {fuel : Nat} {absent : List (Nat × Nat)}
    (hlaid : Laid pageSize fileSize absent) (hin : ∀ r ∈ absent, r.1 + r.2 ≤ fileSize)
    (hfuel : absent.length ≤ fuel) :
    KeepsStages pageSize fileSize absent (prefetchElems pageSize bridge fuel absent) := by
  induction fuel generalizing absent with
  | zero =>
      obtain rfl := List.eq_nil_of_length_eq_zero (by omega : absent.length = 0)
      exact ⟨hlaid, by simp [prefetchElems], fun b => Iff.rfl⟩
  | succ fuel ih =>
      cases absent with
      | nil => exact ⟨hlaid, by simp [prefetchElems], fun b => Iff.rfl⟩
      | cons r rest =>
          obtain ⟨hfirst, hrest⟩ := List.pairwise_cons.1 hlaid.apart
          obtain ⟨heq, hle, hend, hmore, hback⟩ := @joinGap_spec bridge r.1 (r.1 + r.2) fileSize rest
            hrest hfirst (fun q hq => hin q (by simp [hq])) (hin r (by simp))
          have hstop := @joinGap_edge pageSize fileSize bridge r.1 (r.1 + r.2) rest
            (hlaid.stop r (by simp)) fun q hq => hlaid.stop q (by simp [hq])
          rw [prefetchElems]
          generalize joinGap bridge r.1 (r.1 + r.2) rest = g at heq hle hend hmore hback hstop
          obtain ⟨more, stop, behind⟩ := g
          simp only at heq hle hend hmore hback hstop ⊢
          subst heq
          obtain ⟨hjoined, hbehind⟩ := @Laid.split pageSize fileSize (r :: more) behind hlaid
          have hgroup := groupElems_keeps hpos hpage hjoined (by omega : r.1 ≤ stop)
            (hlaid.start r (by simp)) hstop (by
              intro q hq
              rcases List.mem_cons.1 hq with rfl | hq
              · exact ⟨le_refl _, hle⟩
              · obtain ⟨h1, h2⟩ := hmore q hq
                exact ⟨by omega, h2⟩)
          have hothers := ih hbehind (fun q hq => hin q (by simp [hq])) (by simp at hfuel; omega)
          refine ⟨?_, ?_, fun b => ?_⟩
          · rw [stagesOf, List.flatMap_append]
            refine hgroup.laid.append hothers.laid (n := stop) (hgroup.laid.ends ?_)
              (hothers.laid.starts ?_)
            · intro b hb
              obtain ⟨q, hq, h1, h2⟩ := staged_iff.1 ((hgroup.exact b).1 hb)
              rcases List.mem_cons.1 hq with rfl | hq
              · omega
              · have := (hmore q hq).2
                omega
            · intro b hb
              obtain ⟨q, hq, h1, h2⟩ := staged_iff.1 ((hothers.exact b).1 hb)
              have := hback q hq
              omega
          · intro el hel
            rcases List.mem_append.1 hel with hel | hel
            · exact hgroup.inside el hel
            · exact hothers.inside el hel
          · rw [stagesOf, List.flatMap_append, staged_append, ← List.cons_append, staged_append]
            exact or_congr (hgroup.exact b) (hothers.exact b)

end Kept

/-! ### What is predicted -/

/-- Page `i` is to be fetched: a predicted basket has a byte of it, and it is neither present, staged
nor on its way. -/
def Wanted (e : FileEntry) (flight : List (Nat × Nat)) (cand : List Cand) (i : Nat) : Prop :=
  (∃ c ∈ cand, Presence.Touches e.meta_ c.seek c.size i) ∧ Presence.Absent e flight true i

/-- A basket inside the file. -/
structure Cand.Inside (fileSize : Nat) (c : Cand) : Prop where
  seek : c.seek < fileSize
  stop : c.seek + c.size ≤ fileSize
  size : c.size < 2 ^ 31

section Predicted

variable {m : MetaData} (hpos : 0 < m.pageSize) (hmax : m.pageSize ≤ 2 ^ 20)

include hpos

/-- A page has a byte of a range when the page of some byte of the range is that page. -/
theorem touches_iff_byte {off len i : Nat} (hin : off + len ≤ m.fileSize) (hlen : 0 < len) :
    Presence.Touches m off len i ↔ ∃ b, off ≤ b ∧ b < off + len ∧ b / m.pageSize = i := by
  rw [← Presence.touches_iff hpos hlen hin]
  constructor
  · rintro ⟨h1, h2⟩
    have hi := (Nat.le_div_iff_mul_le hpos).1 h2
    rcases Nat.lt_or_ge (i * m.pageSize) off with hlt | hge
    · have hlast := (Nat.div_lt_iff_lt_mul hpos).1 (Nat.lt_succ_of_le h1)
      refine ⟨off, le_refl _, by omega, Nat.le_antisymm h1 ?_⟩
      exact (Nat.le_div_iff_mul_le hpos).2 hlt.le
    · exact ⟨i * m.pageSize, hge, by omega, Nat.mul_div_cancel _ hpos⟩
  · rintro ⟨b, h1, h2, rfl⟩
    exact ⟨Nat.div_le_div_right h1, Nat.div_le_div_right (by omega)⟩

/-- The pages of a range, by the page boundaries around it. -/
theorem touches_iff_edges {off len i : Nat} (hoff : off < m.fileSize)
    (hin : off + len ≤ m.fileSize) :
    Presence.Touches m off len i ↔
      off / m.pageSize ≤ i ∧ i * m.pageSize < (off + len + m.pageSize - 1) / m.pageSize * m.pageSize := by
  have hfloor := Nat.div_add_mod' off m.pageSize
  have hmod := Nat.mod_lt off hpos
  have hedge : i * m.pageSize < (off + len + m.pageSize - 1) / m.pageSize * m.pageSize ↔
      i * m.pageSize < off + len := by
    rw [Nat.mul_lt_mul_right hpos, Nat.lt_iff_add_one_le, Nat.le_div_iff_mul_le hpos, Nat.add_mul]
    omega
  have hfirst : off / m.pageSize ≤ i ↔ off < i * m.pageSize + m.pageSize := by
    rw [← Nat.lt_succ_iff, Nat.div_lt_iff_lt_mul hpos, Nat.succ_mul]
  rw [hedge, hfirst]
  unfold Presence.Touches MetaData.pageBytes
  omega

include hmax

/-- The rounded span of a basket: the bytes of its pages, up to the file's end. -/
theorem roundSpan_pages {c : Cand} (hc : c.Inside m.fileSize) :
    m.pageSize ∣ (roundSpan m.pageSize m.fileSize c.seek c.size).1 ∧
      (roundSpan m.pageSize m.fileSize c.seek c.size).1 ≤
        (roundSpan m.pageSize m.fileSize c.seek c.size).2 ∧
      (roundSpan m.pageSize m.fileSize c.seek c.size).2 ≤ m.fileSize ∧
      ∀ i, Presence.Touches m c.seek c.size i ↔
        ∃ b, (roundSpan m.pageSize m.fileSize c.seek c.size).1 ≤ b ∧
          b < (roundSpan m.pageSize m.fileSize c.seek c.size).2 ∧ b / m.pageSize = i := by
  obtain ⟨seek, size⟩ := c
  obtain ⟨hseek, hstop, hsize⟩ := hc
  simp only at hseek hstop hsize ⊢
  have hfloor := Nat.div_add_mod' seek m.pageSize
  have hmod := Nat.mod_lt seek hpos
  have hceil := Nat.div_add_mod' (seek + size + m.pageSize - 1) m.pageSize
  have hmod' := Nat.mod_lt (seek + size + m.pageSize - 1) hpos
  have hpages := fun i => @touches_iff_edges m hpos seek size i hseek hstop
  simp only [hpages]
  unfold roundSpan
  simp only
  by_cases hnone : min ((seek + size + m.pageSize - 1) / m.pageSize * m.pageSize) m.fileSize ≤
      seek / m.pageSize * m.pageSize
  · -- an empty basket on a page boundary
    rw [if_pos (.inl hnone)]
    have heq : seek / m.pageSize * m.pageSize = seek := by omega
    refine ⟨heq ▸ Nat.dvd_mul_left _ _, by simp only; omega, hstop, fun i => ⟨?_, ?_⟩⟩
    · rintro ⟨h1, h2⟩
      have := Nat.mul_le_mul_right m.pageSize h1
      omega
    · rintro ⟨b, h1, h2, -⟩
      simp only at h1 h2
      omega
  · rw [if_neg (by omega)]
    refine ⟨Nat.dvd_mul_left _ _, by simp only; omega, by simp only; omega, fun i => ⟨?_, ?_⟩⟩
    · rintro ⟨h1, h2⟩
      have h3 := Nat.mul_le_mul_right m.pageSize h1
      have h4 := ((@touches_iff_edges m hpos seek size i hseek hstop).2 ⟨h1, h2⟩).1
      exact ⟨i * m.pageSize, h3, by simp only; omega, Nat.mul_div_cancel _ hpos⟩
    · rintro ⟨b, h1, h2, rfl⟩
      simp only at h1 h2
      have hb := Nat.div_mul_le_self b m.pageSize
      have h3 := Nat.div_le_div_right (c := m.pageSize) h1
      rw [Nat.mul_div_cancel _ hpos] at h3
      exact ⟨h3, by omega⟩

end Predicted

/-- The page of a position. -/
theorem page_of_byte {m : MetaData} (hp : 0 < m.pageSize) {i b : Nat} :
    (i * m.pageSize ≤ b ∧ b < i * m.pageSize + m.pageBytes i) ↔
      b < m.fileSize ∧ b / m.pageSize = i := by
  unfold MetaData.pageBytes
  constructor
  · rintro ⟨h1, h2⟩
    refine ⟨by omega, ?_⟩
    rw [Nat.div_eq_iff hp]
    omega
  · rintro ⟨h1, rfl⟩
    have hdiv := Nat.div_add_mod' b m.pageSize
    have hmod := Nat.mod_lt b hp
    omega

section Absent

variable {e : FileEntry} (hpos : 0 < e.meta_.pageSize) (hmax : e.meta_.pageSize ≤ 2 ^ 20)
  (hsize : e.meta_.fileSize < 2 ^ 64) (flight : List (Nat × Nat)) {cand : List Cand}
  (hcand : ∀ c ∈ cand, c.Inside e.meta_.fileSize)

/-- The page is here or on its way: what `absentRuns` passes over for read-ahead. -/
def heldPages (e : FileEntry) (flight : List (Nat × Nat)) (i : Nat) : Bool :=
  Presence.here e i || (true && Presence.pageInFlight flight i)

include hpos hsize

/-- The absent runs of one coalesced range. -/
theorem absentRuns_pages {r : Nat × Nat} (hle : r.1 ≤ r.2) (hin : r.2 ≤ e.meta_.fileSize) :
    let absent := absentRuns e.meta_.pageSize e.meta_.fileSize (heldPages e flight) r.1 (r.2 - r.1)
    (∀ q ∈ absent, 0 < q.2 ∧ e.meta_.pageSize ∣ q.1 ∧
      PageEdge e.meta_.pageSize e.meta_.fileSize (q.1 + q.2)) ∧
    ∀ b, Staged absent b ↔ b < e.meta_.fileSize ∧
      (∃ x, (r.1 ≤ x ∧ x < r.2) ∧ x / e.meta_.pageSize = b / e.meta_.pageSize) ∧
        Presence.Absent e flight true (b / e.meta_.pageSize) := by
  intro absent
  rcases Nat.eq_or_lt_of_le hle with heq | hlt
  · have hnil : absent = [] := by
      simp only [absent, heq, Nat.sub_self, absentRuns, true_or, if_true]
    rw [hnil]
    refine ⟨by simp, fun b => ⟨fun h => absurd h (by simp [staged_iff]), ?_⟩⟩
    rintro ⟨-, ⟨x, hx, -⟩, -⟩
    omega
  · have hstop : r.1 + (r.2 - r.1) = r.2 := Nat.add_sub_cancel' hle
    have hexact := @Presence.absentRuns_exact e flight r.1 (r.2 - r.1) true hpos (by omega)
      (by omega) hsize
    have hwrap : ¬ Presence.wraps r.1 (r.2 - r.1) := by
      unfold Presence.wraps
      omega
    rw [Presence.absentRuns, if_neg hwrap] at hexact
    refine ⟨fun q hq => ⟨hexact.proper q hq, hexact.aligned q hq⟩, fun b => ?_⟩
    rw [staged_iff]
    refine (hexact.union b).trans ?_
    have hbytes := fun i => @touches_iff_byte e.meta_ hpos r.1 (r.2 - r.1) i (by omega) (by omega)
    simp only [hstop] at hbytes ⊢
    constructor
    · rintro ⟨i, ⟨htouch, habsent⟩, hin⟩
      obtain ⟨hb, rfl⟩ := (page_of_byte hpos).1 hin
      obtain ⟨x, h1, h2, h3⟩ := (hbytes _).1 htouch
      exact ⟨hb, ⟨x, ⟨h1, h2⟩, h3⟩, habsent⟩
    · rintro ⟨hb, ⟨x, ⟨h1, h2⟩, h3⟩, habsent⟩
      exact ⟨_, ⟨(hbytes _).2 ⟨x, h1, h2, h3⟩, habsent⟩, (page_of_byte hpos).2 ⟨hb, rfl⟩⟩

include hmax hcand

/-- What read-ahead lacks: whole pages one behind the other, in the file, just those that are
wanted. -/
theorem absentOf_exact :
    let absent := absentOf e.meta_.pageSize e.meta_.fileSize (heldPages e flight) cand
    Laid e.meta_.pageSize e.meta_.fileSize absent ∧
      (∀ r ∈ absent, r.1 + r.2 ≤ e.meta_.fileSize) ∧
      ∀ b, Staged absent b ↔ b < e.meta_.fileSize ∧ Wanted e flight cand (b / e.meta_.pageSize) := by
  intro absent
  obtain ⟨hapart, hends, -⟩ := @absentOf_spec e.meta_.pageSize e.meta_.fileSize
    (heldPages e flight) hpos cand fun c hc => by
      have := (hcand c hc).size
      omega
  have hround := fun c hc => roundSpan_pages hpos hmax (hcand c hc)
  obtain ⟨hperm, hsorted⟩ := sorted_spans
    (cand.map fun c => roundSpan e.meta_.pageSize e.meta_.fileSize c.seek c.size)
  have hspan : ∀ s ∈ (cand.map fun c => roundSpan e.meta_.pageSize e.meta_.fileSize c.seek
      c.size).insertionSort fun a b => a.1 < b.1 ∨ a.1 = b.1 ∧ a.2 ≤ b.2,
        s.1 ≤ s.2 ∧ s.2 ≤ e.meta_.fileSize := by
    intro s hs
    obtain ⟨c, hc, rfl⟩ := List.mem_map.1 (hperm.mem_iff.1 hs)
    exact ⟨(hround c hc).2.1, (hround c hc).2.2.1⟩
  obtain ⟨hco, hwithin⟩ := foldl_addSpan ⟨by simp, .nil⟩ (fun s hs => (hspan s hs).1) hsorted
    (by simp)
  have hfile := @foldl_addSpan_ends _ [] _ (by simp) fun s hs => (hspan s hs).2
  have hrun := fun r hr => absentRuns_pages hpos hsize flight (hco.proper r hr) (hfile r hr)
  have hmem : ∀ q, q ∈ absent ↔ ∃ r ∈ _, q ∈ _ := fun q => List.mem_flatMap
  refine ⟨⟨?_, ?_, ?_, hapart⟩, hends, fun b => ?_⟩
  · intro q hq
    obtain ⟨r, hr, hq⟩ := (hmem q).1 hq
    exact ((hrun r hr).1 q hq).1
  · intro q hq
    obtain ⟨r, hr, hq⟩ := (hmem q).1 hq
    exact ((hrun r hr).1 q hq).2.1
  · intro q hq
    obtain ⟨r, hr, hq⟩ := (hmem q).1 hq
    exact ((hrun r hr).1 q hq).2.2
  · refine (staged_flatMap (b := b)).trans ?_
    constructor
    · rintro ⟨r, hr, hin⟩
      obtain ⟨hb, ⟨x, hx, hpage⟩, habsent⟩ := ((hrun r hr).2 b).1 hin
      obtain ⟨s, hs, hxs⟩ := ((hwithin x).1 ⟨r, hr, hx⟩).resolve_left (by simp)
      obtain ⟨c, hc, rfl⟩ := List.mem_map.1 (hperm.mem_iff.1 hs)
      exact ⟨hb, ⟨c, hc, ((hround c hc).2.2.2 _).2 ⟨x, hxs.1, hxs.2, hpage⟩⟩, habsent⟩
    · rintro ⟨hb, ⟨c, hc, htouch⟩, habsent⟩
      obtain ⟨x, h1, h2, hpage⟩ := ((hround c hc).2.2.2 _).1 htouch
      obtain ⟨r, hr, hx⟩ := (hwithin x).2 (.inr ⟨_, hperm.mem_iff.2 (List.mem_map_of_mem hc), h1, h2⟩)
      exact ⟨r, hr, ((hrun r hr).2 b).2 ⟨hb, ⟨x, hx, hpage⟩, habsent⟩⟩

end Absent

/-! ### What is announced -/

section Announced

variable {pageSize fileSize : Nat} (hpos : 0 < pageSize) (hsize : fileSize < 2 ^ 64)

include hpos hsize

/-- The pages of a noted range are those of its bytes. -/
theorem clipPages_pages {r : Nat × Nat} (hr : 0 < r.2) (hin : r.1 + r.2 ≤ fileSize) (i : Nat) :
    (∃ p ∈ (clipPages pageSize fileSize r).toList, p.1 ≤ i ∧ i < p.2) ↔
      ∃ b, r.1 ≤ b ∧ b < r.1 + r.2 ∧ b / pageSize = i := by
  have hclip : clipPages pageSize fileSize r =
      some (r.1 / pageSize, (r.1 + r.2 + pageSize - 1) / pageSize) := by
    have hsum : add64 r.1 r.2 = r.1 + r.2 := Nat.mod_eq_of_lt (by omega)
    unfold clipPages
    rw [hsum, if_neg (by omega)]
    simp only
    rw [Nat.min_eq_left hin, if_neg (by omega)]
  have hlast : (r.1 + r.2 + pageSize - 1) / pageSize = (r.1 + r.2 - 1) / pageSize + 1 := by
    rw [← Nat.add_div_right _ hpos]
    congr 1
    omega
  rw [hclip, hlast]
  simp only [Option.toList_some, List.mem_singleton, exists_eq_left, Nat.lt_succ_iff]
  constructor
  · rintro ⟨h1, h2⟩
    have h3 := (Nat.le_div_iff_mul_le hpos).1 h2
    rcases Nat.lt_or_ge (i * pageSize) r.1 with hlt | hge
    · refine ⟨r.1, le_refl _, by omega, Nat.le_antisymm h1 ?_⟩
      exact (Nat.le_div_iff_mul_le hpos).2 hlt.le
    · exact ⟨i * pageSize, hge, by omega, Nat.mul_div_cancel _ hpos⟩
  · rintro ⟨b, h1, h2, rfl⟩
    exact ⟨Nat.div_le_div_right h1, Nat.div_le_div_right (by omega)⟩

/-- Ranges noted one after the other add their pages to the registry, and no others. -/
theorem pageInFlight_note {ranges : List (Nat × Nat)} (hr : ∀ r ∈ ranges, 0 < r.2)
    (hin : ∀ r ∈ ranges, r.1 + r.2 ≤ fileSize) (f : List (Nat × Nat)) (i : Nat) :
    Presence.pageInFlight
        (ranges.foldl (fun f r => f ++ (clipPages pageSize fileSize r).toList) f) i = true ↔
      Presence.pageInFlight f i = true ∨ ∃ b, Staged ranges b ∧ b / pageSize = i := by
  have hflight : ∀ g : List (Nat × Nat), Presence.pageInFlight g i = true ↔
      ∃ p ∈ g, p.1 ≤ i ∧ i < p.2 := by
    intro g
    simp [Presence.pageInFlight]
  induction ranges generalizing f with
  | nil => simp [staged_iff]
  | cons r rest ih =>
      have hone := clipPages_pages hpos hsize (hr r (by simp)) (hin r (by simp)) i
      have hrest := ih (fun q hq => hr q (List.mem_cons_of_mem _ hq))
        (fun q hq => hin q (List.mem_cons_of_mem _ hq)) (f ++ (clipPages pageSize fileSize r).toList)
      refine hrest.trans ?_
      rw [hflight, hflight f]
      simp only [List.mem_append, or_and_right, exists_or, hone, or_assoc]
      refine or_congr_right ?_
      simp only [staged_iff, List.mem_cons, or_and_right, exists_or, exists_eq_left, and_assoc]

end Announced

/-! ### Read-ahead stages what it predicted -/

/-- The elements of read-ahead's requests keep whole pages, each in the element that brings it and
none twice: those that are wanted.  The rest of an element is not kept, and not announced. -/
structure StagesPredicted (e : FileEntry) (flight : List (Nat × Nat)) (cand : List Cand)
    (parts : List (List Elem)) : Prop where
  laid : Laid e.meta_.pageSize e.meta_.fileSize (stagesOf parts.flatten)
  exact : ∀ b, Staged (stagesOf parts.flatten) b ↔
    b < e.meta_.fileSize ∧ Wanted e flight cand (b / e.meta_.pageSize)
  inside : ∀ el ∈ parts.flatten, ∀ r ∈ el.stage,
    el.wire.off ≤ r.1 ∧ r.1 + r.2 ≤ el.wire.off + el.wire.len
  padding : ∀ el ∈ parts.flatten, ∀ b, el.wire.off ≤ b → b < el.wire.off + el.wire.len →
    ¬ Wanted e flight cand (b / e.meta_.pageSize) → ¬ Staged (stagesOf parts.flatten) b ∧
      ∀ part ∈ parts, ∀ f, Presence.pageInFlight
        (noteStages e.meta_.pageSize e.meta_.fileSize f part) (b / e.meta_.pageSize) =
          Presence.pageInFlight f (b / e.meta_.pageSize)
  announced : ∀ part ∈ parts, ∀ f i,
    Presence.pageInFlight (noteStages e.meta_.pageSize e.meta_.fileSize f part) i = true ↔
      Presence.pageInFlight f i = true ∨
        ∃ b, Staged (stagesOf part) b ∧ b / e.meta_.pageSize = i
  elements : ∀ el ∈ parts.flatten, 0 < el.wire.len ∧ el.wire.len ≤ kMaxReadvElem
  count : ∀ part ∈ parts, part.length ≤ kMaxReadvElems

/-- Read-ahead stages exactly what it predicted, for every cache and in-flight state, every bridge
setting and every list of baskets inside the file. -/
theorem readahead_stages_predicted (e : FileEntry)
    (hpage : Config.validPageSize e.meta_.pageSize = true) (hsize : e.meta_.fileSize < 2 ^ 64)
    (flight : List (Nat × Nat)) (bridge : Nat) (cand : List Cand)
    (hcand : ∀ c ∈ cand, c.Inside e.meta_.fileSize) :
    StagesPredicted e flight cand (prefetchParts e.meta_.pageSize e.meta_.fileSize bridge
      (heldPages e flight) cand) := by
  obtain ⟨hlo, hhi, -⟩ := MetaFile.validPageSize_iff.1 hpage
  have hpos : 0 < e.meta_.pageSize := by omega
  have hmax : e.meta_.pageSize ≤ kMaxReadvElem := by
    unfold kMaxReadvElem
    omega
  obtain ⟨hlaid, hin, hwanted⟩ := absentOf_exact hpos (by omega) hsize flight hcand
  have hkeeps := prefetchElems_keeps hpos hmax bridge hlaid hin (le_refl _)
  obtain ⟨heach, -, -⟩ := prefetchElems_spec hpos hmax bridge hlaid.apart hin (le_refl _)
  unfold prefetchParts
  simp only
  generalize absentOf e.meta_.pageSize e.meta_.fileSize (heldPages e flight) cand = absent at *
  generalize prefetchElems e.meta_.pageSize bridge absent.length absent = elems at *
  have hflat := elemParts_flatten elems
  have hexact : ∀ b, Staged (stagesOf elems) b ↔
      b < e.meta_.fileSize ∧ Wanted e flight cand (b / e.meta_.pageSize) := fun b =>
    (hkeeps.exact b).trans (hwanted b)
  have hpart : ∀ part ∈ elemParts elems, ∀ r ∈ stagesOf part, r ∈ stagesOf elems := by
    intro part hp r hr
    obtain ⟨el, hel, hr⟩ := List.mem_flatMap.1 hr
    exact List.mem_flatMap.2 ⟨el, hflat ▸ List.mem_flatten.2 ⟨part, hp, hel⟩, hr⟩
  have hends := hkeeps.laid.ends fun b hb => ((hexact b).1 hb).1
  have hnoted : ∀ part ∈ elemParts elems, ∀ f i,
      Presence.pageInFlight (noteStages e.meta_.pageSize e.meta_.fileSize f part) i = true ↔
        Presence.pageInFlight f i = true ∨
          ∃ b, Staged (stagesOf part) b ∧ b / e.meta_.pageSize = i := fun part hp f i =>
    pageInFlight_note hpos hsize (fun r hr => hkeeps.laid.pos r (hpart part hp r hr))
      (fun r hr => hends r (hpart part hp r hr)) f i
  constructor
  · rw [hflat]
    exact hkeeps.laid
  · rw [hflat]
    exact hexact
  · rw [hflat]
    exact hkeeps.inside
  · rw [hflat]
    intro el hel b _ _ hnot
    refine ⟨fun h => hnot ((hexact b).1 h).2, fun part hp f => ?_⟩
    rw [Bool.eq_iff_iff, hnoted part hp]
    refine or_iff_left ?_
    rintro ⟨x, hx, hpg⟩
    -- a staged byte of the same page would make the page a wanted one
    obtain ⟨r, hr, hxr⟩ := staged_iff.1 hx
    have := ((hexact x).1 (staged_iff.2 ⟨r, hpart part hp r hr, hxr⟩)).2
    rw [hpg] at this
    exact hnot this
  · exact hnoted
  · rw [hflat]
    intro el hel
    obtain ⟨h1, h2, -⟩ := heach el.wire (List.mem_map_of_mem hel)
    exact ⟨h1, h2⟩
  · exact fun part hp => ((elemParts_spec elems).1 part hp).1

/-- Two baskets of a file of five pages, one page of which is here and is read over. -/
def halfRead : FileEntry :=
  FileEntry.ofMeta {} []
    { MetaData.fresh [] 20000 4096 0 with bitmap := (PageBitmap.reset 5).set 1 } false

/-- Two baskets in one bridged request. -/
theorem bridged_baskets_staged :
    StagesPredicted halfRead [] [{ seek := 100, size := 9000 }, { seek := 16000, size := 4000 }]
      (prefetchParts 4096 20000 8192 (heldPages halfRead [])
        [{ seek := 100, size := 9000 }, { seek := 16000, size := 4000 }]) :=
  readahead_stages_predicted halfRead (by decide) (by decide) [] 8192
    [{ seek := 100, size := 9000 }, { seek := 16000, size := 4000 }] (by
      intro c hc
      simp only [List.mem_cons, List.not_mem_nil, or_false] at hc
      rcases hc with rfl | rfl <;> exact ⟨by decide, by decide, by decide⟩)

end UCache
