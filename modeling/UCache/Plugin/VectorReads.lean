/-
Module: UCache.Plugin.VectorReads
Purpose: The vector reads that are sent to the origin for what a request misses: which elements they
  have, how many, and which bytes they bring.
Trusted boundary: none
Main exports: issueMissVRead, plainMisses, LegalRead
-/
import UCache.Core.MetaFile
import UCache.Lib.Spans
import UCache.Plugin.Stitched
import UCache.Plugin.VirtualImage

namespace UCache

open Lib

/-! ### Cutting a run -/

/-- Elements one behind the other, each legal. -/
def ElemsFrom : Nat → List WireElem → Nat → Prop
  | a, [], b => a = b
  | a, w :: rest, b => w.off = a ∧ 0 < w.len ∧ w.len ≤ kMaxReadvElem ∧ ElemsFrom (a + w.len) rest b

/-- How many elements a range is cut into: the first ends at the last page boundary it can reach,
and so do the others until what is left fits. -/
def piecesOf (pageSize : Nat) (r : Nat × Nat) : Nat :=
  if r.2 ≤ r.1 then 0
  else if r.2 - r.1 ≤ kMaxReadvElem then 1
  else
    let cut := (r.1 + kMaxReadvElem) / pageSize * pageSize
    let most := kMaxReadvElem / pageSize * pageSize
    2 + (r.2 - cut - kMaxReadvElem + most - 1) / most

section Cutting

variable {pageSize : Nat} (hpos : 0 < pageSize) (hpage : pageSize ≤ kMaxReadvElem)

include hpos hpage

/-- A cut of a range that is too long for one element. -/
theorem readvElemEnd_of_long {pos stop : Nat} (hlong : kMaxReadvElem < stop - pos) :
    readvElemEnd pos stop pageSize = (pos + kMaxReadvElem) / pageSize * pageSize ∧
      pos < readvElemEnd pos stop pageSize ∧ readvElemEnd pos stop pageSize ≤ pos + kMaxReadvElem := by
  have hmod := Nat.mod_lt (pos + kMaxReadvElem) hpos
  have hdiv := Nat.div_add_mod' (pos + kMaxReadvElem) pageSize
  have hcut : pos + kMaxReadvElem - (pos + kMaxReadvElem) % pageSize =
      (pos + kMaxReadvElem) / pageSize * pageSize := by omega
  have hend : readvElemEnd pos stop pageSize = (pos + kMaxReadvElem) / pageSize * pageSize := by
    unfold readvElemEnd
    rw [if_neg (by omega)]
    simp only
    rw [hcut, if_neg (by omega)]
    omega
  rw [hend]
  exact ⟨rfl, by omega, by omega⟩

theorem cutRun_from {fuel pos stop : Nat} (hle : pos ≤ stop) (hfuel : stop - pos ≤ fuel) :
    ElemsFrom pos (cutRun pageSize fuel pos stop) stop := by
  induction fuel generalizing pos with
  | zero => exact (by omega : pos = stop)
  | succ fuel ih =>
      unfold cutRun
      split
      · rename_i hlt
        have hends : pos < readvElemEnd pos stop pageSize ∧
            readvElemEnd pos stop pageSize ≤ stop ∧
              readvElemEnd pos stop pageSize ≤ pos + kMaxReadvElem := by
          by_cases hlong : kMaxReadvElem < stop - pos
          · obtain ⟨-, h1, h2⟩ := readvElemEnd_of_long hpos hpage hlong
            exact ⟨h1, by omega, h2⟩
          · have : readvElemEnd pos stop pageSize = stop := by
              unfold readvElemEnd
              rw [if_pos (by omega)]
            omega
        refine ⟨rfl, by simp only; omega, by simp only; omega, ?_⟩
        have hnext : pos + (readvElemEnd pos stop pageSize - pos) = readvElemEnd pos stop pageSize := by
          omega
        simp only [hnext]
        exact ih (by omega) (by omega)
      · exact (by omega : pos = stop)

/-- From a page boundary on, all cuts are the same number of pages apart. -/
theorem length_cutRun_aligned {fuel pos stop : Nat} (hdvd : pageSize ∣ pos) (hlt : pos < stop)
    (hfuel : stop - pos ≤ fuel) :
    (cutRun pageSize fuel pos stop).length =
      1 + (stop - pos - kMaxReadvElem + kMaxReadvElem / pageSize * pageSize - 1) /
        (kMaxReadvElem / pageSize * pageSize) := by
  have hmost : 0 < kMaxReadvElem / pageSize * pageSize :=
    Nat.mul_pos (Nat.div_pos hpage hpos) hpos
  have hmax : kMaxReadvElem / pageSize * pageSize ≤ kMaxReadvElem := Nat.div_mul_le_self _ _
  induction fuel generalizing pos with
  | zero => omega
  | succ fuel ih =>
      unfold cutRun
      rw [if_pos hlt]
      simp only [List.length_cons]
      by_cases hlong : kMaxReadvElem < stop - pos
      · have hcut : readvElemEnd pos stop pageSize = pos + kMaxReadvElem / pageSize * pageSize := by
          rw [(readvElemEnd_of_long hpos hpage hlong).1]
          obtain ⟨q, rfl⟩ := hdvd
          rw [Nat.mul_add_div hpos, Nat.add_mul, Nat.mul_comm q]
        have hmul : pageSize ∣ pos + kMaxReadvElem / pageSize * pageSize :=
          Nat.dvd_add hdvd (Nat.dvd_mul_left _ _)
        rw [hcut, ih hmul (by omega) (by omega)]
        generalize kMaxReadvElem / pageSize * pageSize = most at *
        rcases Nat.lt_or_ge (stop - pos - kMaxReadvElem) (most + 1) with hnear | hfar
        · have h1 : stop - (pos + most) - kMaxReadvElem + most - 1 = most - 1 := by omega
          have h2 : stop - pos - kMaxReadvElem + most - 1 = (stop - pos - kMaxReadvElem - 1) + most := by
            omega
          rw [h1, h2, Nat.add_div_right _ hmost, Nat.div_eq_of_lt (by omega),
            Nat.div_eq_of_lt (by omega)]
        · have h2 : stop - pos - kMaxReadvElem + most - 1 =
              (stop - (pos + most) - kMaxReadvElem + most - 1) + most := by omega
          rw [h2, Nat.add_div_right _ hmost]
          omega
      · have hend : readvElemEnd pos stop pageSize = stop := by
          unfold readvElemEnd
          rw [if_pos (by omega)]
        have hzero : stop - pos - kMaxReadvElem + kMaxReadvElem / pageSize * pageSize - 1 <
            kMaxReadvElem / pageSize * pageSize := by omega
        rw [hend, Nat.div_eq_of_lt hzero]
        cases fuel <;> simp [cutRun]

theorem length_cutRun (r : Nat × Nat) :
    (cutRun pageSize (r.2 - r.1) r.1 r.2).length = piecesOf pageSize r := by
  obtain ⟨pos, stop⟩ := r
  unfold piecesOf
  simp only
  split
  · rename_i hle
    rw [Nat.sub_eq_zero_of_le hle]
    rfl
  · rename_i hlt
    obtain ⟨fuel, hfuel⟩ : ∃ fuel, stop - pos = fuel + 1 := ⟨stop - pos - 1, by omega⟩
    rw [hfuel, cutRun, if_pos (by omega)]
    simp only [List.length_cons]
    split
    · have hend : readvElemEnd pos stop pageSize = stop := by
        unfold readvElemEnd
        rw [if_pos (by omega)]
      rw [hend]
      cases fuel <;> simp [cutRun]
    · obtain ⟨hcut, h1, h2⟩ := @readvElemEnd_of_long _ hpos hpage pos stop (by omega)
      rw [length_cutRun_aligned hpos hpage (hcut ▸ Nat.dvd_mul_left _ _) (by omega) (by omega), hcut]
      omega

end Cutting

/-! ### A read for sorted spans -/

/-- The elements bring the byte. -/
def Brings (wire : List WireElem) (b : Nat) : Prop := ∃ w ∈ wire, w.off ≤ b ∧ b < w.off + w.len

/-- [SRC Prefetch.cc:35] What the protocol takes in one vector read. -/
def kMaxReadvElems : Nat := 1024

/-- A vector read the origin accepts. -/
structure LegalRead (fileSize : Nat) (wire : List WireElem) : Prop where
  count : wire.length ≤ kMaxReadvElems
  each : ∀ w ∈ wire, 0 < w.len ∧ w.len ≤ kMaxReadvElem
  apart : wire.Pairwise fun a b => a.off + a.len ≤ b.off
  inside : ∀ w ∈ wire, w.off + w.len ≤ fileSize

/-- Sorted spans coalesced and cut. -/
def spanWire (pageSize : Nat) (spans : List (Nat × Nat)) : List WireElem :=
  (spans.foldl addSpan []).flatMap fun r => cutRun pageSize (r.2 - r.1) r.1 r.2

open Classical in
/-- How many elements the spans need: each maximal range of their bytes is cut on its own. -/
noncomputable def elemsNeeded (pageSize fileSize : Nat) (spans : List (Nat × Nat)) : Nat :=
  ∑ r ∈ runsOf (Within spans) fileSize, piecesOf pageSize r

namespace ElemsFrom

theorem le {a b : Nat} {wire : List WireElem} (h : ElemsFrom a wire b) : a ≤ b := by
  induction wire generalizing a with
  | nil => exact Nat.le_of_eq h
  | cons w rest ih =>
      have := ih h.2.2.2
      omega

theorem mem {a b : Nat} {wire : List WireElem} (h : ElemsFrom a wire b) {w : WireElem}
    (hw : w ∈ wire) : a ≤ w.off ∧ w.off + w.len ≤ b ∧ 0 < w.len ∧ w.len ≤ kMaxReadvElem := by
  induction wire generalizing a with
  | nil => cases hw
  | cons v rest ih =>
      obtain ⟨hoff, hpos, hmax, hrest⟩ := h
      rcases List.mem_cons.1 hw with rfl | hw
      · have := hrest.le
        exact ⟨by omega, by omega, hpos, hmax⟩
      · obtain ⟨h1, h2⟩ := ih hrest hw
        exact ⟨by omega, h2⟩

theorem apart {a b : Nat} {wire : List WireElem} (h : ElemsFrom a wire b) :
    wire.Pairwise fun v w => v.off + v.len ≤ w.off := by
  induction wire generalizing a with
  | nil => exact .nil
  | cons v rest ih =>
      obtain ⟨hoff, -, -, hrest⟩ := h
      refine .cons (fun w hw => ?_) (ih hrest)
      have := (hrest.mem hw).1
      omega

theorem brings {a b : Nat} {wire : List WireElem} (h : ElemsFrom a wire b) {p : Nat} :
    Brings wire p ↔ a ≤ p ∧ p < b := by
  constructor
  · rintro ⟨w, hw, h1, h2⟩
    obtain ⟨h3, h4, -⟩ := h.mem hw
    omega
  · rintro ⟨h1, h2⟩
    induction wire generalizing a with
    | nil => exact absurd h (by simp only [ElemsFrom]; omega)
    | cons v rest ih =>
        obtain ⟨hoff, -, -, hrest⟩ := h
        by_cases hv : p < a + v.len
        · exact ⟨v, by simp, by omega, by omega⟩
        · obtain ⟨w, hw, hin⟩ := ih hrest (by omega)
          exact ⟨w, by simp [hw], hin⟩

end ElemsFrom

section Spans

variable {pageSize fileSize : Nat} (hpos : 0 < pageSize) (hpage : pageSize ≤ kMaxReadvElem)

include hpos hpage

/-- The cuts of ranges with gaps: legal elements in order, with the ranges' bytes. -/
theorem cutRuns_spec {runs : List (Nat × Nat)} (hc : Coalesced runs) :
    let wire := runs.flatMap fun r => cutRun pageSize (r.2 - r.1) r.1 r.2
    (∀ w ∈ wire, 0 < w.len ∧ w.len ≤ kMaxReadvElem) ∧
      (wire.Pairwise fun a b => a.off + a.len ≤ b.off) ∧
      (∀ b, Brings wire b ↔ Within runs b) ∧
      wire.length = (runs.map (piecesOf pageSize)).sum := by
  have hfrom : ∀ r ∈ runs, ElemsFrom r.1 (cutRun pageSize (r.2 - r.1) r.1 r.2) r.2 := fun r hr =>
    cutRun_from hpos hpage (hc.proper r hr) (le_refl _)
  intro wire
  refine ⟨?_, ?_, fun b => ?_, ?_⟩
  · intro w hw
    obtain ⟨r, hr, hw⟩ := List.mem_flatMap.1 hw
    exact ((hfrom r hr).mem hw).2.2
  · refine List.pairwise_flatMap.2 ⟨fun r hr => (hfrom r hr).apart, ?_⟩
    refine hc.apart.imp_of_mem ?_
    intro a b ha hb hlt v hv w hw
    have h1 := ((hfrom a ha).mem hv).2.1
    have h2 := ((hfrom b hb).mem hw).1
    omega
  · constructor
    · rintro ⟨w, hw, hin⟩
      obtain ⟨r, hr, hw⟩ := List.mem_flatMap.1 hw
      exact ⟨r, hr, (hfrom r hr).brings.1 ⟨w, hw, hin⟩⟩
    · rintro ⟨r, hr, hin⟩
      obtain ⟨w, hw, hin⟩ := (hfrom r hr).brings.2 hin
      exact ⟨w, List.mem_flatMap.2 ⟨r, hr, hw⟩, hin⟩
  · rw [List.length_flatMap]
    exact congrArg List.sum (List.map_congr_left fun r _ => length_cutRun hpos hpage r)

/-- A read for sorted spans inside the file brings their bytes, and is legal when it needs no more
elements than one read can have. -/
theorem spanWire_spec {spans : List (Nat × Nat)} (hproper : ∀ s ∈ spans, s.1 ≤ s.2)
    (hsorted : spans.Pairwise fun a b => a.1 ≤ b.1) (hin : ∀ s ∈ spans, s.2 ≤ fileSize) :
    (∀ b, Brings (spanWire pageSize spans) b ↔ Within spans b) ∧
      (LegalRead fileSize (spanWire pageSize spans) ↔
        elemsNeeded pageSize fileSize spans ≤ kMaxReadvElems) := by
  obtain ⟨hc, hwithin⟩ := foldl_addSpan ⟨by simp, .nil⟩ hproper hsorted (by simp)
  obtain ⟨heach, hapart, hbrings, hlength⟩ := cutRuns_spec hpos hpage hc
  have hwithin : ∀ b, Within (spans.foldl addSpan []) b ↔ Within spans b := by
    intro b
    rw [hwithin]
    simp
  have hbytes : ∀ b, Brings (spanWire pageSize spans) b ↔ Within spans b := fun b =>
    (hbrings b).trans (hwithin b)
  have hends : ∀ b, Within spans b → b < fileSize := by
    rintro b ⟨s, hs, h1, h2⟩
    have := hin s hs
    omega
  have hcount : (spanWire pageSize spans).length = elemsNeeded pageSize fileSize spans := by
    have hruns : ∀ r ∈ spans.foldl addSpan [], r.2 ≤ fileSize := by
      intro r hr
      obtain ⟨-, s, hs, hsr⟩ := foldl_addSpan_mem ⟨by simp, .nil⟩ hproper hr
      rw [← hsr]
      exact hin s (by simpa using hs)
    have hsum := hc.sum_runsOf hruns (f := piecesOf pageSize) (by
      intro r hr
      rw [piecesOf, if_pos hr])
    rw [spanWire, hlength, hsum, elemsNeeded, funext fun b => propext (hwithin b)]
  refine ⟨hbytes, ?_, ?_⟩
  · intro h
    rw [← hcount]
    exact h.count
  · intro h
    refine ⟨by rw [hcount]; exact h, heach, hapart, ?_⟩
    intro w hw
    have hlen := (heach w hw).1
    have hlast := hends _ ((hbytes (w.off + w.len - 1)).1 ⟨w, hw, by omega, by omega⟩)
    omega

end Spans

/-! ### Misses of a vector read -/

/-- [SRC UCacheFile.cc:1115-1121] What is fetched for a chunk: whole pages, or the chunk itself when
the file is read directly. -/
def missSpan (pageSize fileSize : Nat) (readsData : Nat → Nat → Bool) (c : Chunk) : Nat × Nat :=
  if readsData c.off c.len then (c.off, c.off + c.len) else roundSpan pageSize fileSize c.off c.len

/-- [SRC UCacheFile.cc:1106-1141] The elements of the read for the chunks in `missIdx`. -/
def issueMissVRead (pageSize fileSize : Nat) (readsData : Nat → Nat → Bool)
    (userChunks : List Chunk) (missIdx : List Nat) : List WireElem :=
  let ivals :=
    (missIdx.filterMap (userChunks[·]?)).map (missSpan pageSize fileSize readsData)
  let sorted := ivals.insertionSort fun a b => a.1 < b.1 ∨ a.1 = b.1 ∧ a.2 ≤ b.2
  (sorted.foldl addSpan []).flatMap fun r => cutRun pageSize (r.2 - r.1) r.1 r.2

/-- [SRC UCacheFile.cc:2174-2177, 2253-2266] The chunks that a plain vector read of `n` chunks
misses: those the cache does not have, and those it had and could not read. -/
def plainMisses (hasRange readCached : Nat → Bool) (n : Nat) : List Nat :=
  ((List.range n).filter fun i => !hasRange i) ++
    (List.range n).filter fun i => hasRange i && !readCached i

theorem filterMap_range {α : Type} (l : List α) :
    (List.range l.length).filterMap (l[·]?) = l := by
  induction l with
  | nil => rfl
  | cons x rest ih =>
      rw [List.length_cons, List.range_succ_eq_map, List.filterMap_cons]
      simp only [List.getElem?_cons_zero, List.filterMap_map]
      exact congrArg (x :: ·) ih

/-- The residual pieces of a stitched read go the same way, all of them. -/
theorem missWire_eq (pageSize fileSize : Nat) (resid : List Residual) :
    missWire pageSize fileSize resid =
      issueMissVRead pageSize fileSize (fun _ _ => false)
        (resid.map fun r => { off := r.off, len := r.len }) (List.range resid.length) := by
  have hall := filterMap_range (resid.map fun r => ({ off := r.off, len := r.len } : Chunk))
  rw [List.length_map] at hall
  unfold missWire issueMissVRead
  rw [hall, List.map_map]
  rfl

theorem roundSpan_inside {pageSize fileSize off len : Nat} (h : off + len ≤ fileSize) :
    (roundSpan pageSize fileSize off len).1 ≤ off ∧
      off + len ≤ (roundSpan pageSize fileSize off len).2 ∧
        (roundSpan pageSize fileSize off len).2 ≤ fileSize := by
  obtain ⟨h1, -, h3⟩ := roundSpan_spec pageSize fileSize off len
  refine ⟨h1, by omega, ?_⟩
  unfold roundSpan
  simp only
  split
  · exact h
  · exact Nat.min_le_right _ _

theorem missSpan_inside {pageSize fileSize : Nat} {readsData : Nat → Nat → Bool} {c : Chunk}
    (h : c.off + c.len ≤ fileSize) :
    (missSpan pageSize fileSize readsData c).1 ≤ c.off ∧
      c.off + c.len ≤ (missSpan pageSize fileSize readsData c).2 ∧
        (missSpan pageSize fileSize readsData c).2 ≤ fileSize := by
  unfold missSpan
  split
  · exact ⟨le_refl _, le_refl _, h⟩
  · exact roundSpan_inside h

/-- Spans in the order in which the source sorts pairs. -/
theorem sorted_spans (spans : List (Nat × Nat)) :
    (spans.insertionSort fun a b => a.1 < b.1 ∨ a.1 = b.1 ∧ a.2 ≤ b.2).Perm spans ∧
      (spans.insertionSort fun a b => a.1 < b.1 ∨ a.1 = b.1 ∧ a.2 ≤ b.2).Pairwise
        fun a b => a.1 ≤ b.1 := by
  have : Std.Total fun a b : Nat × Nat => a.1 < b.1 ∨ a.1 = b.1 ∧ a.2 ≤ b.2 :=
    ⟨fun a b => by omega⟩
  have : IsTrans (Nat × Nat) fun a b => a.1 < b.1 ∨ a.1 = b.1 ∧ a.2 ≤ b.2 :=
    ⟨fun a b c => by omega⟩
  exact ⟨List.perm_insertionSort _ _,
    (List.pairwise_insertionSort _ spans).imp fun h => by omega⟩

/-- The read for the missed chunks brings them whole, and is legal exactly when they need no more
elements than one read can have. -/
theorem issueMissVRead_spec {pageSize fileSize : Nat} (hpos : 0 < pageSize)
    (hpage : pageSize ≤ kMaxReadvElem) (readsData : Nat → Nat → Bool) {userChunks : List Chunk}
    (hin : ∀ c ∈ userChunks, c.off + c.len ≤ fileSize) (missIdx : List Nat) :
    (∀ i ∈ missIdx, ∀ c, userChunks[i]? = some c → ∀ k < c.len,
      Brings (issueMissVRead pageSize fileSize readsData userChunks missIdx) (c.off + k)) ∧
    (LegalRead fileSize (issueMissVRead pageSize fileSize readsData userChunks missIdx) ↔
      elemsNeeded pageSize fileSize ((missIdx.filterMap (userChunks[·]?)).map
        (missSpan pageSize fileSize readsData)) ≤ kMaxReadvElems) := by
  have hmem : ∀ s ∈ (missIdx.filterMap (userChunks[·]?)).map (missSpan pageSize fileSize readsData),
      s.1 ≤ s.2 ∧ s.2 ≤ fileSize := by
    intro s hs
    obtain ⟨c, hc, rfl⟩ := List.mem_map.1 hs
    obtain ⟨i, -, hi⟩ := List.mem_filterMap.1 hc
    obtain ⟨h1, h2, h3⟩ := @missSpan_inside pageSize fileSize readsData c
      (hin c (List.mem_of_getElem? hi))
    exact ⟨by omega, h3⟩
  have hcovers : ∀ i ∈ missIdx, ∀ c, userChunks[i]? = some c → ∀ k < c.len,
      Within ((missIdx.filterMap (userChunks[·]?)).map (missSpan pageSize fileSize readsData))
        (c.off + k) := by
    intro i hi c hc k hk
    obtain ⟨h1, h2, -⟩ := @missSpan_inside pageSize fileSize readsData c
      (hin c (List.mem_of_getElem? hc))
    exact ⟨_, List.mem_map.2 ⟨c, List.mem_filterMap.2 ⟨i, hi, hc⟩, rfl⟩, by omega, by omega⟩
  unfold issueMissVRead
  simp only
  generalize (missIdx.filterMap (userChunks[·]?)).map (missSpan pageSize fileSize readsData) = spans
    at hmem hcovers
  obtain ⟨hperm, hsorted⟩ := sorted_spans spans
  have hwithin : ∀ b, Within (spans.insertionSort fun a b => a.1 < b.1 ∨ a.1 = b.1 ∧ a.2 ≤ b.2) b ↔
      Within spans b := fun b =>
    exists_congr fun s => and_congr_left fun _ => hperm.mem_iff
  obtain ⟨hbrings, hlegal⟩ := spanWire_spec hpos hpage (fun s hs => (hmem s (hperm.mem_iff.1 hs)).1)
    hsorted fun s hs => (hmem s (hperm.mem_iff.1 hs)).2
  refine ⟨fun i hi c hc k hk => ?_, ?_⟩
  · exact (hbrings _).2 ((hwithin _).2 (hcovers i hi c hc k hk))
  · rw [elemsNeeded, funext fun b => propext (hwithin b)] at hlegal
    exact hlegal

/-! ### Parts of a slot request -/

/-- [SRC ColdRun.cc:1603-1606, 1628-1629] An item for bytes inside the file, rounded to whole pages. -/
structure PartItem.Rounded (pageSize fileSize : Nat) (it : PartItem) : Prop where
  span : (it.rs, it.re) = roundSpan pageSize fileSize it.off it.len
  inside : it.off + it.len ≤ fileSize

theorem PartItem.Rounded.bounds {pageSize fileSize : Nat} {it : PartItem}
    (h : it.Rounded pageSize fileSize) :
    it.rs ≤ it.off ∧ it.off + it.len ≤ it.re ∧ it.re ≤ fileSize := by
  have hin := @roundSpan_inside pageSize fileSize it.off it.len h.inside
  rwa [← h.span] at hin

/-- The ranges a part asks for. -/
def partSpans (items : List PartItem) : List (Nat × Nat) := items.map fun it => (it.rs, it.re)

theorem issuePart_wire (pageSize : Nat) (items : List PartItem) :
    (issuePart pageSize items).wire = spanWire pageSize (partSpans items) := by
  rw [spanWire, partSpans, List.foldl_map]
  rfl

/-- The read of a part brings its items whole, and is legal exactly when they need no more elements
than one read can have. -/
theorem issuePart_spec {pageSize fileSize : Nat} (hpos : 0 < pageSize)
    (hpage : pageSize ≤ kMaxReadvElem) {items : List PartItem}
    (hitems : ∀ it ∈ items, it.Rounded pageSize fileSize)
    (hsorted : items.Pairwise fun a b => a.rs ≤ b.rs) :
    (∀ it ∈ items, ∀ k < it.len, Brings (issuePart pageSize items).wire (it.off + k)) ∧
    (LegalRead fileSize (issuePart pageSize items).wire ↔
      elemsNeeded pageSize fileSize (partSpans items) ≤ kMaxReadvElems) := by
  have hbounds : ∀ s ∈ partSpans items, s.1 ≤ s.2 ∧ s.2 ≤ fileSize := by
    intro s hs
    obtain ⟨it, hit, rfl⟩ := List.mem_map.1 hs
    obtain ⟨h1, h2, h3⟩ := (hitems it hit).bounds
    exact ⟨by simp only; omega, h3⟩
  rw [issuePart_wire]
  obtain ⟨hbrings, hlegal⟩ := spanWire_spec hpos hpage (fun s hs => (hbounds s hs).1)
    (List.pairwise_map.2 hsorted) fun s hs => (hbounds s hs).2
  refine ⟨fun it hit k hk => (hbrings _).2 ?_, hlegal⟩
  obtain ⟨h1, h2, -⟩ := (hitems it hit).bounds
  exact ⟨(it.rs, it.re), List.mem_map.2 ⟨it, hit, rfl⟩, by simp only; omega, by simp only; omega⟩

/-- The walk that forms the parts keeps the items in order. -/
theorem foldl_addItem (items : List PartItem) (st : Parting) :
    (items.foldl addItem st).parts.flatten ++ (items.foldl addItem st).part =
      st.parts.flatten ++ st.part ++ items := by
  induction items generalizing st with
  | nil => simp
  | cons it rest ih =>
      rw [List.foldl_cons, ih]
      unfold addItem
      simp only
      split <;> simp

/-- The parts are the items, in order, cut into runs. -/
theorem formParts_spec (items : List PartItem) :
    (formParts items).flatten.Perm items ∧
      ∀ p ∈ formParts items, p.Pairwise fun a b => a.rs ≤ b.rs := by
  have hflat : (formParts items).flatten = items.mergeSort fun a b => decide (a.rs ≤ b.rs) := by
    have hwalk := foldl_addItem (items.mergeSort fun a b => decide (a.rs ≤ b.rs)) {}
    unfold formParts
    simp only
    split
    · rename_i hempty
      rw [List.isEmpty_iff.1 hempty] at hwalk
      simpa using hwalk
    · simpa using hwalk
  have hsorted : ((formParts items).flatten).Pairwise fun a b => a.rs ≤ b.rs := by
    rw [hflat]
    refine (List.pairwise_mergeSort ?_ ?_ items).imp fun h => of_decide_eq_true h
    · intro a b c
      simp only [decide_eq_true_eq]
      omega
    · intro a b
      simp only [Bool.or_eq_true, decide_eq_true_eq]
      omega
  refine ⟨?_, (List.pairwise_flatten.1 hsorted).1⟩
  rw [hflat]
  exact List.mergeSort_perm _ _

end UCache
