/-
Module: UCache.Plugin.PrefetchReads
Purpose: The vector reads of read-ahead, and when the reads that are sent for what a request misses
  are ones the origin accepts.
Trusted boundary: none
Main exports: prefetchElems, vector_reads_legal, full_vector_read_too_long
-/
import UCache.Core.MetaImage
import UCache.Core.Presence
import UCache.Plugin.VectorReads

namespace UCache

open Lib

/-! ### What read-ahead keeps -/

/-- A predicted basket. -/
structure Cand where
  seek : Nat
  size : Nat
deriving DecidableEq, Repr

/-- [SRC Prefetch.cc:798-819] What the predicted baskets lack, whole pages of it. -/
def absentOf (pageSize fileSize : Nat) (held : Nat → Bool) (cand : List Cand) : List (Nat × Nat) :=
  let ivals := cand.map fun c => roundSpan pageSize fileSize c.seek c.size
  let sorted := ivals.insertionSort fun a b => a.1 < b.1 ∨ a.1 = b.1 ∧ a.2 ≤ b.2
  (sorted.foldl addSpan []).flatMap fun r => absentRuns pageSize fileSize held r.1 (r.2 - r.1)

/-! ### What crosses the network -/

/-- [SRC Prefetch.cc:679-689] An element, and the parts of it that are kept. -/
structure Elem where
  wire : WireElem
  stage : List (Nat × Nat)
deriving DecidableEq, Repr

/-- [SRC Prefetch.cc:832-838] The ranges that are joined to the one before across small gaps: those,
where they end, and the rest. -/
def joinGap (bridge start : Nat) :
    Nat → List (Nat × Nat) → List (Nat × Nat) × Nat × List (Nat × Nat)
  | stop, [] => ([], stop, [])
  | stop, r :: rest =>
      if stop ≤ r.1 ∧ r.1 - stop ≤ bridge ∧ r.1 + r.2 - start ≤ kMaxReadvElem then
        let next := joinGap bridge start (r.1 + r.2) rest
        (r :: next.1, next.2)
      else ([], stop, r :: rest)

/-- [SRC Prefetch.cc:845-849] The parts of an element that are kept. -/
def stageOf (keep : List (Nat × Nat)) (w : WireElem) : List (Nat × Nat) :=
  keep.filterMap fun r =>
    let s0 := max r.1 w.off
    let e0 := min (r.1 + r.2) (w.off + w.len)
    if s0 < e0 then some (s0, e0 - s0) else none

/-- [SRC Prefetch.cc:842-853] Ranges that are read in one, cut; a piece of nothing but padding is
left out. -/
def groupElems (pageSize start stop : Nat) (keep : List (Nat × Nat)) : List Elem :=
  (cutRun pageSize (stop - start) start stop).filterMap fun w =>
    if stageOf keep w = [] then none else some { wire := w, stage := stageOf keep w }

/-- [SRC Prefetch.cc:827-854] Each turn takes one range at least, so as many turns as there are
ranges are enough. -/
def prefetchElems (pageSize bridge : Nat) : Nat → List (Nat × Nat) → List Elem
  | 0, _ => []
  | _, [] => []
  | fuel + 1, r :: rest =>
      let g := joinGap bridge r.1 (r.1 + r.2) rest
      groupElems pageSize r.1 g.2.1 (r :: g.1) ++ prefetchElems pageSize bridge fuel g.2.2

/-- [SRC Prefetch.cc:861-863] -/
def elemParts (elems : List Elem) : List (List Elem) :=
  (List.range ((elems.length + kMaxReadvElems - 1) / kMaxReadvElems)).map fun k =>
    (elems.drop (k * kMaxReadvElems)).take kMaxReadvElems

/-- [SRC Prefetch.cc:794-896] The vector reads for the predicted baskets, in the order in which they
are sent. -/
def prefetchReads (pageSize fileSize bridge : Nat) (held : Nat → Bool) (cand : List Cand) :
    List (List WireElem) :=
  let absent := absentOf pageSize fileSize held cand
  (elemParts (prefetchElems pageSize bridge absent.length absent)).map (List.map Elem.wire)

/-! ### Where the ranges lie -/

section Absent

variable {pageSize fileSize : Nat} {held : Nat → Bool}

/-- A rounded span starts on a page boundary, unless there is nothing of it in the file. -/
theorem roundSpan_start (hpos : 0 < pageSize) {off len : Nat} (hlen : len + 2 * pageSize < 2 ^ 32) :
    pageSize ∣ (roundSpan pageSize fileSize off len).1 ∨
      fileSize ≤ (roundSpan pageSize fileSize off len).1 := by
  have hfloor := Nat.div_add_mod' off pageSize
  have hmod := Nat.mod_lt off hpos
  have hceil := Nat.div_mul_le_self (off + len + pageSize - 1) pageSize
  have hup := @Nat.lt_div_mul_add (off + len + pageSize - 1) pageSize hpos
  unfold roundSpan
  simp only
  split
  · rename_i hback
    simp only
    by_cases hfs : fileSize ≤ off
    · exact .inr hfs
    · left
      have heq : off / pageSize * pageSize = off := by omega
      exact heq ▸ Nat.dvd_mul_left _ _
  · exact .inl (Nat.dvd_mul_left _ _)

/-- What read-ahead lacks: ranges in order, inside the file, with all that is predicted and not
held. -/
theorem absentOf_spec (hpos : 0 < pageSize) {cand : List Cand}
    (hcand : ∀ c ∈ cand, c.size + 2 * pageSize < 2 ^ 32) :
    ((absentOf pageSize fileSize held cand).Pairwise fun a b => a.1 + a.2 ≤ b.1) ∧
      (∀ r ∈ absentOf pageSize fileSize held cand, r.1 + r.2 ≤ fileSize) ∧
      ∀ c ∈ cand, ∀ b, c.seek ≤ b → b < c.seek + c.size → b < fileSize →
        held (b / pageSize) = false →
          Within ((absentOf pageSize fileSize held cand).map spanOf) b := by
  have hspans : ∀ s ∈ cand.map fun c => roundSpan pageSize fileSize c.seek c.size,
      s.1 ≤ s.2 ∧ (pageSize ∣ s.1 ∨ fileSize ≤ s.1) := by
    intro s hs
    obtain ⟨c, hc, rfl⟩ := List.mem_map.1 hs
    exact ⟨(roundSpan_spec pageSize fileSize c.seek c.size).2.1, roundSpan_start hpos (hcand c hc)⟩
  have hcovers : ∀ c ∈ cand, ∀ b, c.seek ≤ b → b < c.seek + c.size → b < fileSize →
      Within (cand.map fun c => roundSpan pageSize fileSize c.seek c.size) b := by
    intro c hc b h1 h2 h3
    obtain ⟨h4, h5, h6⟩ := roundSpan_spec pageSize fileSize c.seek c.size
    exact ⟨_, List.mem_map_of_mem hc, by omega, by omega⟩
  unfold absentOf
  simp only
  generalize cand.map (fun c => roundSpan pageSize fileSize c.seek c.size) = spans at hspans hcovers
  obtain ⟨hperm, hsorted⟩ := sorted_spans spans
  generalize spans.insertionSort (fun a b => a.1 < b.1 ∨ a.1 = b.1 ∧ a.2 ≤ b.2) = sorted
    at hperm hsorted
  have hproper : ∀ s ∈ sorted, s.1 ≤ s.2 := fun s hs => (hspans s (hperm.mem_iff.1 hs)).1
  obtain ⟨hc, hwithin⟩ := foldl_addSpan ⟨by simp, .nil⟩ hproper hsorted (by simp)
  have hstart : ∀ r ∈ sorted.foldl addSpan [], pageSize ∣ r.1 ∨ fileSize ≤ r.1 := by
    intro r hr
    obtain ⟨⟨s, hs, hsr⟩, -⟩ := foldl_addSpan_mem ⟨by simp, .nil⟩ hproper hr
    rw [← hsr]
    exact (hspans s (hperm.mem_iff.1 (by simpa using hs))).2
  change ((sorted.foldl addSpan []).flatMap _).Pairwise _ ∧ _
  refine ⟨List.pairwise_flatMap.2 ⟨fun r hr => ?_, ?_⟩, ?_, ?_⟩
  · have hin := (@absentRuns_spec pageSize fileSize held hpos r.1 (r.2 - r.1)).1.apart
    exact (List.pairwise_map.1 hin).imp fun h => Nat.le_of_lt h
  · refine hc.apart.imp_of_mem ?_
    intro q r hq hr hlt a ha b hb
    obtain ⟨-, -, -, hend⟩ := (absentRuns_spec hpos q.1 (q.2 - q.1)).2.1 a ha
    obtain ⟨hfs, hfirst, -⟩ := (absentRuns_spec hpos r.1 (r.2 - r.1)).2.1 b hb
    have hq := hc.proper q hq
    rw [Nat.add_sub_cancel' hq] at hend
    obtain ⟨k, hk⟩ := (hstart r hr).resolve_right (by omega)
    have hpage : (q.2 - 1) / pageSize < k := by
      rw [Nat.div_lt_iff_lt_mul hpos, Nat.mul_comm]
      omega
    have hmul := Nat.mul_le_mul_right pageSize (Nat.succ_le_of_lt hpage)
    rw [hk, Nat.mul_div_cancel_left _ hpos] at hfirst
    rw [Nat.succ_eq_add_one] at hmul
    omega
  · intro a ha
    obtain ⟨r, -, ha⟩ := List.mem_flatMap.1 ha
    exact ((absentRuns_spec hpos r.1 (r.2 - r.1)).2.1 a ha).2.2.1
  · intro c hcmem b h1 h2 h3 hheld
    have hb : Within (sorted.foldl addSpan []) b := by
      refine (hwithin b).2 (.inr ?_)
      obtain ⟨s, hs, hin⟩ := hcovers c hcmem b h1 h2 h3
      exact ⟨s, hperm.mem_iff.2 hs, hin⟩
    obtain ⟨r, hr, hin⟩ := hb
    obtain ⟨s, hs, hin⟩ := (absentRuns_spec hpos r.1 (r.2 - r.1)).2.2 b hin.1 (by omega) h3 hheld
    obtain ⟨a, ha, rfl⟩ := List.mem_map.1 hs
    exact ⟨spanOf a, List.mem_map_of_mem (List.mem_flatMap.2 ⟨r, hr, ha⟩), hin⟩

end Absent

/-! ### Elements -/

/-- What is joined comes first, and ends before the rest begins. -/
theorem joinGap_spec {bridge start stop fileSize : Nat} {rest : List (Nat × Nat)}
    (hapart : rest.Pairwise fun a b => a.1 + a.2 ≤ b.1) (hstop : ∀ r ∈ rest, stop ≤ r.1)
    (hin : ∀ r ∈ rest, r.1 + r.2 ≤ fileSize) (hfile : stop ≤ fileSize) :
    rest = (joinGap bridge start stop rest).1 ++ (joinGap bridge start stop rest).2.2 ∧
      stop ≤ (joinGap bridge start stop rest).2.1 ∧
      (joinGap bridge start stop rest).2.1 ≤ fileSize ∧
      (∀ r ∈ (joinGap bridge start stop rest).1,
        stop ≤ r.1 ∧ r.1 + r.2 ≤ (joinGap bridge start stop rest).2.1) ∧
      ∀ r ∈ (joinGap bridge start stop rest).2.2, (joinGap bridge start stop rest).2.1 ≤ r.1 := by
  induction rest generalizing stop with
  | nil => exact ⟨rfl, le_refl _, hfile, by simp [joinGap], by simp [joinGap]⟩
  | cons r rest ih =>
      obtain ⟨hfirst, hrest⟩ := List.pairwise_cons.1 hapart
      have hr := hstop r (by simp)
      unfold joinGap
      split
      · obtain ⟨heq, hle, hend, hmore, hback⟩ := ih hrest hfirst
          (fun q hq => hin q (by simp [hq])) (hin r (by simp))
        simp only
        refine ⟨congrArg (r :: ·) heq, by omega, hend, ?_, hback⟩
        intro q hq
        rcases List.mem_cons.1 hq with rfl | hq
        · exact ⟨hr, hle⟩
        · obtain ⟨h1, h2⟩ := hmore q hq
          exact ⟨by omega, h2⟩
      · exact ⟨rfl, le_refl _, hfile, by simp, hstop⟩

theorem groupElems_wires (pageSize start stop : Nat) (keep : List (Nat × Nat)) :
    (groupElems pageSize start stop keep).map Elem.wire =
      (cutRun pageSize (stop - start) start stop).filter fun w => !(stageOf keep w).isEmpty := by
  unfold groupElems
  induction cutRun pageSize (stop - start) start stop with
  | nil => rfl
  | cons w rest ih =>
      rw [List.filterMap_cons, List.filter_cons]
      by_cases hstage : stageOf keep w = []
      · simp [hstage, ih]
      · simp [hstage, ih]

/-- An element that has a byte of a kept range keeps part of it. -/
theorem stageOf_ne_nil {keep : List (Nat × Nat)} {w : WireElem} {r : Nat × Nat} (hr : r ∈ keep)
    {b : Nat} (hrb : r.1 ≤ b ∧ b < r.1 + r.2) (hwb : w.off ≤ b ∧ b < w.off + w.len) :
    stageOf keep w ≠ [] := by
  have hmem : (max r.1 w.off, min (r.1 + r.2) (w.off + w.len) - max r.1 w.off) ∈
      stageOf keep w := by
    refine List.mem_filterMap.2 ⟨r, hr, ?_⟩
    simp only
    rw [if_pos (by omega)]
  exact List.ne_nil_of_mem hmem

section Elements

variable {pageSize fileSize : Nat} (hpos : 0 < pageSize) (hpage : pageSize ≤ kMaxReadvElem)

include hpos hpage

/-- The elements for ranges in order: legal, in order, inside the file, from the first range on, and
they bring the ranges. -/
theorem prefetchElems_spec (bridge : Nat) {fuel : Nat} {absent : List (Nat × Nat)}
    (hapart : absent.Pairwise fun a b => a.1 + a.2 ≤ b.1)
    (hin : ∀ r ∈ absent, r.1 + r.2 ≤ fileSize) (hfuel : absent.length ≤ fuel) :
    let wires := (prefetchElems pageSize bridge fuel absent).map Elem.wire
    (∀ w ∈ wires, 0 < w.len ∧ w.len ≤ kMaxReadvElem ∧ w.off + w.len ≤ fileSize ∧
      ∀ n, (∀ r ∈ absent, n ≤ r.1) → n ≤ w.off) ∧
    (wires.Pairwise fun a b => a.off + a.len ≤ b.off) ∧
    ∀ b, Within (absent.map spanOf) b → Brings wires b := by
  induction fuel generalizing absent with
  | zero =>
      obtain rfl := List.eq_nil_of_length_eq_zero (by omega : absent.length = 0)
      exact ⟨by simp [prefetchElems], .nil, by simp⟩
  | succ fuel ih =>
      cases absent with
      | nil => exact ⟨by simp [prefetchElems], .nil, by simp⟩
      | cons r rest =>
          obtain ⟨hfirst, hrest⟩ := List.pairwise_cons.1 hapart
          obtain ⟨heq, hle, hend, hmore, hback⟩ := @joinGap_spec bridge r.1 (r.1 + r.2) fileSize rest
            hrest hfirst (fun q hq => hin q (by simp [hq])) (hin r (by simp))
          simp only [prefetchElems, List.map_append]
          generalize joinGap bridge r.1 (r.1 + r.2) rest = g at heq hle hend hmore hback
          obtain ⟨more, stop, behind⟩ := g
          simp only at heq hle hend hmore hback ⊢
          subst heq
          have hfrom : ElemsFrom r.1 (cutRun pageSize (stop - r.1) r.1 stop) stop :=
            cutRun_from hpos hpage (by omega) (le_refl _)
          have hsub := groupElems_wires pageSize r.1 stop (r :: more)
          obtain ⟨heach, hpair, hbrings⟩ := ih (List.pairwise_append.1 hrest).2.1
            (fun q hq => hin q (by simp [hq])) (by simp at hfuel; omega)
          refine ⟨?_, List.pairwise_append.2 ⟨?_, hpair, ?_⟩, ?_⟩
          · intro w hw
            rcases List.mem_append.1 hw with hw | hw
            · rw [hsub] at hw
              obtain ⟨h1, h2, h3, h4⟩ := hfrom.mem (List.mem_filter.1 hw).1
              exact ⟨h3, h4, by omega, fun n hn => (hn r (by simp)).trans h1⟩
            · obtain ⟨h1, h2, h3, h4⟩ := heach w hw
              exact ⟨h1, h2, h3, fun n hn => h4 n fun q hq => hn q (by simp [hq])⟩
          · rw [hsub]
            exact hfrom.apart.filter _
          · intro v hv w hw
            rw [hsub] at hv
            have h1 := (hfrom.mem (List.mem_filter.1 hv).1).2.1
            have h2 := (heach w hw).2.2.2 stop hback
            omega
          · rintro b ⟨s, hs, hin⟩
            obtain ⟨q, hq, rfl⟩ := List.mem_map.1 hs
            rw [← List.cons_append, List.mem_append] at hq
            rcases hq with hq | hq
            · have hbound : r.1 ≤ q.1 ∧ q.1 + q.2 ≤ stop := by
                rcases List.mem_cons.1 hq with rfl | hq
                · exact ⟨le_refl _, hle⟩
                · obtain ⟨h1, h2⟩ := hmore q hq
                  exact ⟨by omega, h2⟩
              simp only [spanOf] at hin
              obtain ⟨w, hw, hwb⟩ := hfrom.brings.2 (⟨by omega, by omega⟩ : r.1 ≤ b ∧ b < stop)
              refine ⟨w, List.mem_append_left _ ?_, hwb⟩
              rw [hsub]
              exact List.mem_filter.2 ⟨hw, by simpa using stageOf_ne_nil hq hin hwb⟩
            · obtain ⟨w, hw, hwb⟩ := hbrings b ⟨spanOf q, List.mem_map_of_mem hq, hin⟩
              exact ⟨w, List.mem_append_right _ hw, hwb⟩

end Elements

/-- The parts are pieces of the elements, none too long, and all of them. -/
theorem elemParts_spec (elems : List Elem) :
    (∀ p ∈ elemParts elems, p.length ≤ kMaxReadvElems ∧ p.Sublist elems) ∧
      ∀ e ∈ elems, ∃ p ∈ elemParts elems, e ∈ p := by
  constructor
  · intro p hp
    obtain ⟨k, -, rfl⟩ := List.mem_map.1 hp
    exact ⟨List.length_take_le _ _, (List.take_sublist _ _).trans (List.drop_sublist _ _)⟩
  · intro e he
    obtain ⟨j, hj, rfl⟩ := List.mem_iff_getElem.1 he
    have hdiv := Nat.div_add_mod' j kMaxReadvElems
    have hmod := Nat.mod_lt j (by decide : 0 < kMaxReadvElems)
    have hk : j / kMaxReadvElems < (elems.length + kMaxReadvElems - 1) / kMaxReadvElems := by
      unfold kMaxReadvElems
      omega
    refine ⟨_, List.mem_map.2 ⟨j / kMaxReadvElems, List.mem_range.2 hk, rfl⟩, ?_⟩
    refine List.mem_iff_getElem?.2 ⟨j % kMaxReadvElems, ?_⟩
    rw [List.getElem?_take_of_lt hmod, List.getElem?_drop, hdiv, List.getElem?_eq_getElem hj]

/-- The reads of read-ahead are legal, and bring what is predicted and not held. -/
theorem prefetchReads_spec {pageSize fileSize : Nat} (hpos : 0 < pageSize)
    (hpage : pageSize ≤ kMaxReadvElem) (bridge : Nat) (held : Nat → Bool) {cand : List Cand}
    (hcand : ∀ c ∈ cand, c.size + 2 * pageSize < 2 ^ 32) :
    (∀ wire ∈ prefetchReads pageSize fileSize bridge held cand, LegalRead fileSize wire) ∧
      ∀ c ∈ cand, ∀ b, c.seek ≤ b → b < c.seek + c.size → b < fileSize →
        held (b / pageSize) = false →
          ∃ wire ∈ prefetchReads pageSize fileSize bridge held cand, Brings wire b := by
  obtain ⟨hapart, hin, hcovers⟩ := @absentOf_spec pageSize fileSize held hpos cand hcand
  obtain ⟨heach, hpair, hbrings⟩ := prefetchElems_spec hpos hpage bridge hapart hin (le_refl _)
  obtain ⟨hparts, hall⟩ := elemParts_spec (prefetchElems pageSize bridge
    (absentOf pageSize fileSize held cand).length (absentOf pageSize fileSize held cand))
  constructor
  · intro wire hwire
    obtain ⟨p, hp, rfl⟩ := List.mem_map.1 hwire
    obtain ⟨hlen, hsub⟩ := hparts p hp
    have hsub := hsub.map Elem.wire
    refine ⟨by simpa using hlen, ?_, hpair.sublist hsub, ?_⟩
    · intro w hw
      obtain ⟨h1, h2, -⟩ := heach w (hsub.subset hw)
      exact ⟨h1, h2⟩
    · exact fun w hw => (heach w (hsub.subset hw)).2.2.1
  · intro c hc b h1 h2 h3 hheld
    obtain ⟨w, hw, hwb⟩ := hbrings b (hcovers c hc b h1 h2 h3 hheld)
    obtain ⟨e, he, rfl⟩ := List.mem_map.1 hw
    obtain ⟨p, hp, hep⟩ := hall e he
    exact ⟨p.map Elem.wire, List.mem_map_of_mem hp, e.wire, List.mem_map_of_mem hep, hwb⟩

/-! ### Every vector read -/

/-- A chunk that is not answered from the cache is among the misses. -/
theorem mem_plainMisses {hasRange readCached : Nat → Bool} {n i : Nat} :
    i ∈ plainMisses hasRange readCached n ↔ i < n ∧ (hasRange i && readCached i) = false := by
  simp only [plainMisses, List.mem_append, List.mem_filter, List.mem_range]
  cases hasRange i <;> cases readCached i <;> simp

/-- Which vector reads the origin accepts.  The read for the chunks that a plain or stitched request
misses, and each read of a slot request, bring what is missing, and are legal exactly when the
maximal page-rounded ranges of what they ask for are cut into at most 1024 elements; the reads of
read-ahead always are. -/
theorem vector_reads_legal {pageSize : Nat} (hpage : Config.validPageSize pageSize = true)
    (fileSize : Nat) :
    (∀ readsData userChunks missIdx, (∀ c ∈ userChunks, c.off + c.len ≤ fileSize) →
      (LegalRead fileSize (issueMissVRead pageSize fileSize readsData userChunks missIdx) ∧
        (∀ i ∈ missIdx, ∀ c, userChunks[i]? = some c → ∀ k < c.len,
          Brings (issueMissVRead pageSize fileSize readsData userChunks missIdx) (c.off + k)) ↔
        elemsNeeded pageSize fileSize ((missIdx.filterMap (userChunks[·]?)).map
          (missSpan pageSize fileSize readsData)) ≤ kMaxReadvElems)) ∧
    (∀ hasRange readCached n i, i < n → (hasRange i && readCached i) = false →
      i ∈ plainMisses hasRange readCached n) ∧
    (∀ items, (∀ it ∈ items, PartItem.Rounded pageSize fileSize it) →
      ((∀ p ∈ formParts items, LegalRead fileSize (issuePart pageSize p).wire) ∧
        (∀ it ∈ items, ∃ p ∈ formParts items, ∀ k < it.len,
          Brings (issuePart pageSize p).wire (it.off + k)) ↔
        ∀ p ∈ formParts items,
          elemsNeeded pageSize fileSize (partSpans p) ≤ kMaxReadvElems)) ∧
    ∀ bridge held cand, (∀ c ∈ cand, c.size < 2 ^ 31) →
      (∀ wire ∈ prefetchReads pageSize fileSize bridge held cand, LegalRead fileSize wire) ∧
        ∀ c ∈ cand, ∀ b, c.seek ≤ b → b < c.seek + c.size → b < fileSize →
          held (b / pageSize) = false →
            ∃ wire ∈ prefetchReads pageSize fileSize bridge held cand, Brings wire b := by
  obtain ⟨hmin, hmax, -⟩ := MetaFile.validPageSize_iff.1 hpage
  have hpos : 0 < pageSize := by omega
  have helem : pageSize ≤ kMaxReadvElem := by
    unfold kMaxReadvElem
    omega
  refine ⟨fun readsData userChunks missIdx hin => ?_, fun _ _ _ _ hi hmiss =>
    mem_plainMisses.2 ⟨hi, hmiss⟩, fun items hitems => ?_, fun bridge held cand hcand => ?_⟩
  · obtain ⟨hbrings, hlegal⟩ := issueMissVRead_spec hpos helem readsData hin missIdx
    exact ⟨fun h => hlegal.1 h.1, fun h => ⟨hlegal.2 h, hbrings⟩⟩
  · obtain ⟨hperm, hsorted⟩ := formParts_spec items
    have hpart : ∀ p ∈ formParts items, ∀ it ∈ p, it.Rounded pageSize fileSize := fun p hp it hit =>
      hitems it (hperm.mem_iff.1 (List.mem_flatten.2 ⟨p, hp, hit⟩))
    have hspec := fun p hp => issuePart_spec hpos helem (hpart p hp) (hsorted p hp)
    refine ⟨fun h p hp => (hspec p hp).2.1 (h.1 p hp), fun h => ⟨fun p hp =>
      (hspec p hp).2.2 (h p hp), fun it hit => ?_⟩⟩
    obtain ⟨p, hp, hitp⟩ := List.mem_flatten.1 (hperm.mem_iff.2 hit)
    exact ⟨p, hp, (hspec p hp).1 it hitp⟩
  · refine prefetchReads_spec hpos helem bridge held fun c hc => ?_
    have := hcand c hc
    omega

/-- One small chunk of a file of 4 MiB: one page is read. -/
theorem vector_reads_legal_small :
    LegalRead (2 ^ 22) (issueMissVRead 65536 (2 ^ 22) (fun _ _ => false)
      [{ off := 100, len := 1000 }] [0]) ∧
    elemsNeeded 65536 (2 ^ 22) [missSpan 65536 (2 ^ 22) (fun _ _ => false)
      { off := 100, len := 1000 }] ≤ kMaxReadvElems := by
  have hwire : issueMissVRead 65536 (2 ^ 22) (fun _ _ => false) [{ off := 100, len := 1000 }] [0] =
      [{ off := 0, len := 65536 }] := by decide +kernel
  have hmiss := (vector_reads_legal (by decide : Config.validPageSize 65536 = true) (2 ^ 22)).1
    (fun _ _ => false) [{ off := 100, len := 1000 }] [0] (by decide)
  rw [hwire] at hmiss ⊢
  have hlegal : LegalRead (2 ^ 22) [{ off := 0, len := 65536 }] :=
    ⟨by decide, by decide, by simp, by decide⟩
  refine ⟨hlegal, hmiss.1 ⟨hlegal, ?_⟩⟩
  intro i hi c hc k hk
  obtain rfl : i = 0 := by simpa using hi
  obtain rfl : ({ off := 100, len := 1000 } : Chunk) = c := by simpa using hc
  exact ⟨{ off := 0, len := 65536 }, by simp, by simp only; omega, by simp only at hk ⊢; omega⟩

/-! ### Requests that need too many elements -/

/-- A chunk of the full size, 100 bytes behind a page boundary; chunks 4 MiB apart. -/
def fullChunk (i : Nat) : Chunk where
  off := i * 2 ^ 22 + 100
  len := kMaxReadvElem

/-- What is fetched for such a chunk is one page longer than an element can be. -/
def fullSpan (i : Nat) : Nat × Nat := (i * 2 ^ 22, i * 2 ^ 22 + 33 * 65536)

theorem kMaxReadvElem_eq : kMaxReadvElem = 2097136 := by decide

theorem roundSpan_of {pageSize fileSize off len start stop : Nat}
    (hstart : off / pageSize * pageSize = start)
    (hstop : min ((off + len + pageSize - 1) / pageSize * pageSize) fileSize = stop)
    (hlt : start < stop) (hfits : stop - start < 2 ^ 32) :
    roundSpan pageSize fileSize off len = (start, stop) := by
  subst hstart hstop
  rw [roundSpan, if_neg (by omega)]

theorem missSpan_fullChunk {i : Nat} (hi : i < 1024) :
    missSpan 65536 (2 ^ 32) (fun _ _ => false) (fullChunk i) = fullSpan i := by
  have hfirst : (i * 2 ^ 22 + 100) / 65536 * 65536 = i * 2 ^ 22 := by omega
  have hlast : min ((i * 2 ^ 22 + 100 + kMaxReadvElem + 65536 - 1) / 65536 * 65536) (2 ^ 32) =
      i * 2 ^ 22 + 33 * 65536 := by
    rw [kMaxReadvElem_eq]
    omega
  rw [missSpan, if_neg (by decide)]
  exact roundSpan_of hfirst hlast (by omega) (by omega)

theorem piecesOf_fullSpan (i : Nat) : piecesOf 65536 (fullSpan i) = 2 := by
  rw [piecesOf, fullSpan, kMaxReadvElem_eq]
  dsimp only
  rw [if_neg (by omega), if_neg (by omega)]
  omega

/-- Every full chunk takes two elements. -/
theorem length_fullChunks {n : Nat} (hn : n ≤ 1024) :
    (issueMissVRead 65536 (2 ^ 32) (fun _ _ => false) ((List.range n).map fullChunk)
      (List.range n)).length = 2 * n := by
  have hall := filterMap_range ((List.range n).map fullChunk)
  rw [List.length_map, List.length_range] at hall
  have hspans : ((List.range n).map fullChunk).map (missSpan 65536 (2 ^ 32) fun _ _ => false) =
      (List.range n).map fullSpan := by
    rw [List.map_map]
    refine List.map_congr_left fun i hi => ?_
    rw [Function.comp_apply]
    exact missSpan_fullChunk (Nat.lt_of_lt_of_le (List.mem_range.1 hi) hn)
  have hapart : ((List.range n).map fullSpan).Pairwise fun a b => a.2 < b.1 :=
    List.pairwise_map.2 (List.pairwise_lt_range.imp fun h => by simp only [fullSpan]; omega)
  have hproper : ∀ r ∈ (List.range n).map fullSpan, r.1 ≤ r.2 := by
    intro r hr
    obtain ⟨i, -, rfl⟩ := List.mem_map.1 hr
    simp only [fullSpan]
    omega
  have hco : Coalesced ((List.range n).map fullSpan) := ⟨hproper, hapart⟩
  have hsort : ((List.range n).map fullSpan).insertionSort
      (fun a b => a.1 < b.1 ∨ a.1 = b.1 ∧ a.2 ≤ b.2) = (List.range n).map fullSpan := by
    refine List.Pairwise.insertionSort_eq (hapart.imp_of_mem ?_)
    intro a b ha hb h
    have := hproper a ha
    omega
  have hfold : ((List.range n).map fullSpan).foldl addSpan [] = (List.range n).map fullSpan :=
    @foldl_addSpan_apart _ [] (by simpa using hco)
  unfold issueMissVRead
  simp only
  rw [hall, hspans, hsort, hfold]
  obtain ⟨-, -, -, hlength⟩ := @cutRuns_spec 65536 (by decide) (by decide) _ hco
  rw [hlength, List.map_map]
  have hmap : (List.range n).map (piecesOf 65536 ∘ fullSpan) = (List.range n).map fun _ => 2 := by
    refine List.map_congr_left fun i _ => ?_
    rw [Function.comp_apply]
    exact piecesOf_fullSpan i
  rw [hmap]
  simp [Nat.mul_comm]

/-- A whole file of 4 GiB less one byte in one read. -/
def wholeFile : PartItem where
  slot := false
  index := 0
  off := 0
  len := 2 ^ 32 - 1
  rs := 0
  re := 2 ^ 32 - 1

/-- A vector read of 1024 full chunks of a file of 4 GiB that is not cached is sent on with more
elements than a vector read can have; so is one read of all of a file that is served from slots. -/
theorem full_vector_read_too_long :
    (((List.range 1024).map fullChunk).length ≤ kMaxReadvElems ∧
      (∀ c ∈ (List.range 1024).map fullChunk, c.len ≤ kMaxReadvElem ∧ c.off + c.len ≤ 2 ^ 32) ∧
      ¬ LegalRead (2 ^ 32) (issueMissVRead 65536 (2 ^ 32) (fun _ _ => false)
        ((List.range 1024).map fullChunk) (plainMisses (fun _ => false) (fun _ => false) 1024))) ∧
    (wholeFile.Rounded 65536 (2 ^ 32 - 1) ∧ formParts [wholeFile] = [[wholeFile]] ∧
      ¬ LegalRead (2 ^ 32 - 1) (issuePart 65536 [wholeFile]).wire) := by
  refine ⟨⟨by simp [kMaxReadvElems], ?_, ?_⟩, ⟨by decide, by decide⟩, ?_, ?_⟩
  · intro c hc
    obtain ⟨i, hi, rfl⟩ := List.mem_map.1 hc
    have hi := List.mem_range.1 hi
    refine ⟨le_refl _, ?_⟩
    unfold fullChunk kMaxReadvElem
    simp only
    omega
  · intro h
    have hmisses : plainMisses (fun _ => false) (fun _ => false) 1024 = List.range 1024 := by
      simp [plainMisses]
    have hcount := h.count
    rw [hmisses, length_fullChunks (le_refl _)] at hcount
    exact absurd hcount (by decide)
  · simp [formParts, addItem]
  · intro h
    have hcount := h.count
    rw [issuePart] at hcount
    have hruns : [wholeFile].foldl addRun [] = [(0, 2 ^ 32 - 1)] := rfl
    rw [hruns, List.flatMap_singleton, length_cutRun (by decide) (by decide)] at hcount
    exact absurd hcount (by decide)

end UCache
