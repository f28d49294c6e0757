/-
Module: UCache.Plugin.MissedChunks
Purpose: What a plain vector read misses, in the 64-bit words of the source: the guard that lets
  a list of chunks through, the elements that are fetched for its misses, and the bytes that each
  missed chunk gets of them.
Trusted boundary: none
Main exports: roundSpan64, missSpan64, misses_filled_iff
-/
import UCache.Core.MetaImage
import UCache.Core.Presence
import UCache.Plugin.VectorReads

namespace UCache

open Lib

/-! ### The request, in words -/

/-- [SRC ReadRounding.h:30-50] `roundSpan` with its sums in 64 bits. -/
def roundSpan64 (pageSize fileSize off len : Nat) : Nat × Nat :=
  let start := off / pageSize * pageSize
  let stop := min ((off + len + pageSize - 1) % 2 ^ 64 / pageSize * pageSize) fileSize
  if stop ≤ start ∨ 2 ^ 32 - 1 < stop - start then (off, add64 off len) else (start, stop)

/-- [SRC UCacheFile.cc:1115-1121] What is fetched for a chunk: whole pages, or the chunk itself when
the file is read directly. -/
def missSpan64 (pageSize fileSize : Nat) (readsData : Nat → Nat → Bool) (c : Chunk) : Nat × Nat :=
  if readsData c.off c.len then (c.off, add64 c.off c.len)
  else roundSpan64 pageSize fileSize c.off c.len

/-- [SRC UCacheFile.cc:1106-1141] The elements of the read for the chunks in `missIdx`.  A run is cut
only where more than `kMaxReadvElem` bytes of it follow, so no sum of the cutting leaves a word. -/
def issueMissVRead64 (pageSize fileSize : Nat) (readsData : Nat → Nat → Bool)
    (userChunks : List Chunk) (missIdx : List Nat) : List WireElem :=
  let ivals :=
    (missIdx.filterMap (userChunks[·]?)).map (missSpan64 pageSize fileSize readsData)
  let sorted := ivals.insertionSort fun a b => a.1 < b.1 ∨ a.1 = b.1 ∧ a.2 ≤ b.2
  (sorted.foldl addSpan []).flatMap fun r => cutRun pageSize (r.2 - r.1) r.1 r.2

/-- [SRC UCacheFile.cc:2355-2361] The chunks are relayed to the origin as they are. -/
def relaysVector (fileSize : Nat) (chunks : List Chunk) : Bool :=
  chunks.any fun c => decide (c.len = 0 ∨ fileSize < add64 c.off c.len)

/-- [SRC UCacheFile.cc:2174-2177, 2253-2266] The chunks that are missed, by their numbers; `readCached`
says for which of the others the cache's read succeeds. -/
def missIdx (e : FileEntry) (readCached : Nat → Bool) (chunks : List Chunk) : List Nat :=
  plainMisses
    (fun i => match chunks[i]? with
      | some c => Presence.hasRange e c.off c.len
      | none => false)
    readCached chunks.length

/-! ### The answer -/

/-- One buffer for each element, as long as the element. -/
structure FullAnswer (wire : List WireElem) (answer : List (WireElem × Bytes)) : Prop where
  elems : answer.map Prod.fst = wire
  full : ∀ wb ∈ answer, wb.2.length = wb.1.len

/-- Byte `k` of `b`, which is read at `off`, comes from the element that has its position. -/
def FromElement (answer : List (WireElem × Bytes)) (off : Nat) (b : Bytes) (k : Nat) : Prop :=
  ∃ wb ∈ answer, (wb.1.off ≤ off + k ∧ off + k < wb.1.off + wb.1.len) ∧
    b[k]? = wb.2[off + k - wb.1.off]?

/-- [SRC UCacheFile.cc:976-995] With a miss there is something to fetch, and a full answer fills every
missed chunk, each byte from an element that covers it. -/
def MissesFilled (chunks : List Chunk) (misses : List Nat) (wire : List WireElem) : Prop :=
  misses ≠ [] → wire ≠ [] ∧
    ∀ answer, FullAnswer wire answer → ∀ i ∈ misses, ∀ c, chunks[i]? = some c →
      ∃ b, scatterFrom (findWire c.off answer) c.off c.len = some b ∧ b.length = c.len ∧
        ∀ k < c.len, FromElement answer c.off b k

/-- What the elements put into a chunk: all its bytes, each from an element that has it. -/
theorem scatterFrom_bytes {answer : List (WireElem × Bytes)}
    (hfull : ∀ wb ∈ answer, wb.2.length = wb.1.len) {pos left : Nat} {b : Bytes}
    (h : scatterFrom answer pos left = some b) :
    b.length = left ∧ ∀ k < left, FromElement answer pos b k := by
  induction answer generalizing pos left b with
  | nil =>
      rw [scatterFrom] at h
      split at h
      · rename_i hzero
        cases h
        exact ⟨hzero.symm, fun k hk => absurd hk (by omega)⟩
      · cases h
  | cons wb rest ih =>
      obtain ⟨w, buf⟩ := wb
      rw [scatterFrom] at h
      split at h
      · rename_i hzero
        cases h
        exact ⟨hzero.symm, fun k hk => absurd hk (by omega)⟩
      split at h
      · cases h
      rename_i hcovers
      obtain ⟨b', hb', rfl⟩ := Option.map_eq_some_iff.1 h
      obtain ⟨hlen', hbytes'⟩ := ih (fun x hx => hfull x (by simp [hx])) hb'
      have hbuf : buf.length = w.len := hfull (w, buf) (by simp)
      have hn : (slice buf (pos - w.off) (min left (w.off + w.len - pos))).length =
          min left (w.off + w.len - pos) := by
        rw [length_slice]
        omega
      refine ⟨by rw [List.length_append, hn, hlen']; omega, ?_⟩
      intro k hk
      by_cases hfirst : k < min left (w.off + w.len - pos)
      · refine ⟨(w, buf), by simp, by simp only; omega, ?_⟩
        rw [List.getElem?_append_left (by omega), getElem?_slice, if_pos hfirst]
        congr 1
        simp only
        omega
      · obtain ⟨wb, hwb, hin, hget⟩ :=
          hbytes' (k - min left (w.off + w.len - pos)) (by omega)
        refine ⟨wb, by simp [hwb], ⟨by omega, by omega⟩, ?_⟩
        rw [List.getElem?_append_right (by omega), hn, hget]
        congr 1
        omega

/-! ### A walk over elements without gaps -/

/-- The elements lie one behind the other, and none is empty. -/
structure Apart (answer : List (WireElem × Bytes)) : Prop where
  order : answer.Pairwise fun a b => a.1.off + a.1.len ≤ b.1.off
  pos : ∀ wb ∈ answer, 0 < wb.1.len

/-- Some element has the position. -/
def InElement (answer : List (WireElem × Bytes)) (p : Nat) : Prop :=
  ∃ wb ∈ answer, wb.1.off ≤ p ∧ p < wb.1.off + wb.1.len

namespace Apart

variable {wb : WireElem × Bytes} {answer : List (WireElem × Bytes)}

theorem rest (h : Apart (wb :: answer)) : Apart answer :=
  ⟨h.order.of_cons, fun x hx => h.pos x (by simp [hx])⟩

theorem behind (h : Apart (wb :: answer)) : ∀ x ∈ answer, wb.1.off + wb.1.len ≤ x.1.off :=
  (List.pairwise_cons.1 h.order).1

end Apart

theorem inElement_cons {wb : WireElem × Bytes} {answer : List (WireElem × Bytes)} {p : Nat} :
    InElement (wb :: answer) p ↔ (wb.1.off ≤ p ∧ p < wb.1.off + wb.1.len) ∨ InElement answer p := by
  simp [InElement]

/-- The search drops only elements that end by `pos`, and all but the first of what it leaves start
behind `pos`. -/
theorem findWire_spec {pos : Nat} {answer : List (WireElem × Bytes)} (hapart : Apart answer) :
    Apart (findWire pos answer) ∧ (∀ wb ∈ (findWire pos answer).tail, pos < wb.1.off) ∧
      ∀ p, pos ≤ p → InElement answer p → InElement (findWire pos answer) p := by
  fun_induction findWire pos answer with
  | case1 => exact ⟨hapart, by simp, fun p _ h => h⟩
  | case2 w => exact ⟨hapart, by simp, fun p _ h => h⟩
  | case3 w w' rest hle ih =>
      obtain ⟨h1, h2, h3⟩ := ih hapart.rest
      refine ⟨h1, h2, fun p hp hin => h3 p hp ?_⟩
      refine (inElement_cons.1 hin).resolve_left ?_
      have := hapart.behind w' (by simp)
      omega
  | case4 w w' rest hgt =>
      refine ⟨hapart, ?_, fun p _ h => h⟩
      have hpos := hapart.pos w (by simp)
      have hnext := hapart.behind w' (by simp)
      have hfirst : pos < w'.1.off := by
        by_contra hle
        exact hgt ⟨by omega, by omega⟩
      intro wb hwb
      rcases List.mem_cons.1 hwb with rfl | hwb
      · exact hfirst
      · have := hapart.rest.behind wb hwb
        omega

/-- Where the elements leave no gap, the walk does not stop before the chunk is full. -/
theorem scatterFrom_covered {answer : List (WireElem × Bytes)} (hapart : Apart answer)
    {pos left : Nat} (hstart : ∀ wb ∈ answer.tail, pos < wb.1.off)
    (hin : ∀ p, pos ≤ p → p < pos + left → InElement answer p) :
    ∃ b, scatterFrom answer pos left = some b := by
  induction answer generalizing pos left with
  | nil =>
      have hzero : left = 0 := by
        by_contra hne
        obtain ⟨wb, hwb, -⟩ := hin pos (le_refl _) (by omega)
        cases hwb
      exact ⟨[], by rw [scatterFrom, if_pos hzero]⟩
  | cons wb rest ih =>
      obtain ⟨w, buf⟩ := wb
      rw [scatterFrom]
      split
      · exact ⟨[], rfl⟩
      rename_i hleft
      have hhead : w.off ≤ pos ∧ pos < w.off + w.len := by
        rcases inElement_cons.1 (hin pos (le_refl _) (by omega)) with h | ⟨v, hv, h⟩
        · exact h
        · have := hstart v hv
          omega
      rw [if_neg (by omega)]
      have hnext : ∀ v ∈ rest.tail, pos + min left (w.off + w.len - pos) < v.1.off := by
        intro v hv
        cases rest with
        | nil => cases hv
        | cons x rest =>
            have h1 := hapart.behind x (by simp)
            have h2 := hapart.rest.behind v hv
            have h3 := hapart.rest.pos x (by simp)
            simp only at h1
            omega
      obtain ⟨b, hb⟩ := @ih hapart.rest _ (left - min left (w.off + w.len - pos)) hnext (by
        intro p hp hlt
        refine (inElement_cons.1 (hin p (by omega) (by omega))).resolve_left ?_
        simp only
        omega)
      exact ⟨_, by simp only [hb]; rfl⟩

/-! ### What is fetched -/

theorem add64_eq {a b : Nat} (h : a + b < 2 ^ 64) : add64 a b = a + b := Nat.mod_eq_of_lt h

/-- A span in words ends by the file's end when its chunk's end, in words, does; and when that end is
not wrapped, the span has the chunk. -/
theorem missSpan64_inside {pageSize fileSize : Nat} (hpos : 0 < pageSize)
    (readsData : Nat → Nat → Bool) {c : Chunk} (hin : add64 c.off c.len ≤ fileSize) :
    (missSpan64 pageSize fileSize readsData c).2 ≤ fileSize ∧
      (c.off + c.len < 2 ^ 64 → (missSpan64 pageSize fileSize readsData c).1 ≤ c.off ∧
        c.off + c.len ≤ (missSpan64 pageSize fileSize readsData c).2) := by
  unfold missSpan64
  split
  · exact ⟨hin, fun h => by rw [add64_eq h]; simp⟩
  unfold roundSpan64
  simp only
  split
  · exact ⟨hin, fun h => by rw [add64_eq h]; simp⟩
  rename_i hrounded
  refine ⟨Nat.min_le_right _ _, fun h => ⟨Nat.div_mul_le_self _ _, ?_⟩⟩
  rw [add64_eq h] at hin
  have hdiv := Nat.div_add_mod' c.off pageSize
  have hmod := Nat.mod_lt c.off hpos
  rcases Nat.lt_or_ge (c.off + c.len + pageSize - 1) (2 ^ 64) with hfit | hwrap
  · rw [Nat.mod_eq_of_lt hfit]
    have hdiv' := Nat.div_add_mod' (c.off + c.len + pageSize - 1) pageSize
    have hmod' := Nat.mod_lt (c.off + c.len + pageSize - 1) hpos
    omega
  · -- the rounding itself wraps: then nothing is left to round to
    exfalso
    have hsmall : (c.off + c.len + pageSize - 1) % 2 ^ 64 < pageSize := by omega
    rw [Nat.div_eq_of_lt hsmall] at hrounded
    omega

section Fetched

variable {pageSize fileSize : Nat} (hpos : 0 < pageSize) (hpage : pageSize ≤ kMaxReadvElem)
  (readsData : Nat → Nat → Bool) {userChunks : List Chunk} (missIdx : List Nat)

include hpos

theorem missSpans_ends (hin : ∀ c ∈ userChunks, add64 c.off c.len ≤ fileSize) :
    ∀ s ∈ (missIdx.filterMap (userChunks[·]?)).map (missSpan64 pageSize fileSize readsData),
      s.2 ≤ fileSize := by
  intro s hs
  obtain ⟨c, hc, rfl⟩ := List.mem_map.1 hs
  obtain ⟨i, -, hi⟩ := List.mem_filterMap.1 hc
  exact (missSpan64_inside hpos readsData (hin c (List.mem_of_getElem? hi))).1

include hpage

/-- No element ends behind the file, whatever the chunks. -/
theorem issueMissVRead64_ends (hin : ∀ c ∈ userChunks, add64 c.off c.len ≤ fileSize) :
    ∀ w ∈ issueMissVRead64 pageSize fileSize readsData userChunks missIdx,
      w.off + w.len ≤ fileSize := by
  have hspans := missSpans_ends hpos readsData missIdx hin
  unfold issueMissVRead64
  simp only
  generalize (missIdx.filterMap (userChunks[·]?)).map (missSpan64 pageSize fileSize readsData) =
    spans at hspans
  intro w hw
  obtain ⟨r, hr, hw⟩ := List.mem_flatMap.1 hw
  have hend : r.2 ≤ fileSize :=
    foldl_addSpan_ends (by simp) (fun s hs => hspans s ((sorted_spans spans).1.mem_iff.1 hs)) r hr
  rcases Nat.lt_or_ge r.2 r.1 with hback | hle
  · rw [Nat.sub_eq_zero_of_le hback.le] at hw
    cases hw
  · have := ((cutRun_from hpos hpage hle (le_refl _)).mem hw).2.1
    omega

/-- For chunks that end inside the file the elements lie apart, and bring every missed chunk. -/
theorem issueMissVRead64_spec (hin : ∀ c ∈ userChunks, add64 c.off c.len ≤ fileSize)
    (hwords : ∀ c ∈ userChunks, c.off + c.len < 2 ^ 64) :
    (∀ w ∈ issueMissVRead64 pageSize fileSize readsData userChunks missIdx, 0 < w.len) ∧
    ((issueMissVRead64 pageSize fileSize readsData userChunks missIdx).Pairwise
      fun a b => a.off + a.len ≤ b.off) ∧
    ∀ i ∈ missIdx, ∀ c, userChunks[i]? = some c → ∀ p, c.off ≤ p → p < c.off + c.len →
      Brings (issueMissVRead64 pageSize fileSize readsData userChunks missIdx) p := by
  have hspan : ∀ c ∈ userChunks, (missSpan64 pageSize fileSize readsData c).1 ≤ c.off ∧
      c.off + c.len ≤ (missSpan64 pageSize fileSize readsData c).2 := fun c hc =>
    (missSpan64_inside hpos readsData (hin c hc)).2 (hwords c hc)
  have hproper :
      ∀ s ∈ (missIdx.filterMap (userChunks[·]?)).map (missSpan64 pageSize fileSize readsData),
        s.1 ≤ s.2 := by
    intro s hs
    obtain ⟨c, hc, rfl⟩ := List.mem_map.1 hs
    obtain ⟨i, -, hi⟩ := List.mem_filterMap.1 hc
    have := hspan c (List.mem_of_getElem? hi)
    omega
  have hcovers : ∀ i ∈ missIdx, ∀ c, userChunks[i]? = some c → ∀ p, c.off ≤ p →
      p < c.off + c.len →
        Within ((missIdx.filterMap (userChunks[·]?)).map (missSpan64 pageSize fileSize readsData))
          p := by
    intro i hi c hc p h1 h2
    obtain ⟨h3, h4⟩ := hspan c (List.mem_of_getElem? hc)
    exact ⟨_, List.mem_map.2 ⟨c, List.mem_filterMap.2 ⟨i, hi, hc⟩, rfl⟩, by omega, by omega⟩
  unfold issueMissVRead64
  simp only
  generalize (missIdx.filterMap (userChunks[·]?)).map (missSpan64 pageSize fileSize readsData) =
    spans at hproper hcovers
  obtain ⟨hperm, hsorted⟩ := sorted_spans spans
  obtain ⟨hc, hwithin⟩ := foldl_addSpan ⟨by simp, .nil⟩
    (fun s hs => hproper s (hperm.mem_iff.1 hs)) hsorted (by simp)
  obtain ⟨heach, hapart, hbrings, -⟩ := cutRuns_spec hpos hpage hc
  refine ⟨fun w hw => (heach w hw).1, hapart, fun i hi c hget p h1 h2 => ?_⟩
  obtain ⟨s, hs, hp⟩ := hcovers i hi c hget p h1 h2
  exact (hbrings p).2 ((hwithin p).2 (.inr ⟨s, hperm.mem_iff.2 hs, hp⟩))

end Fetched

/-! ### Every miss is filled -/

theorem mem_missIdx {e : FileEntry} {readCached : Nat → Bool} {chunks : List Chunk} {i : Nat}
    {c : Chunk} (hget : chunks[i]? = some c)
    (hmiss : Presence.hasRange e c.off c.len = false) : i ∈ missIdx e readCached chunks := by
  have hlt : i < chunks.length := (List.getElem?_eq_some_iff.1 hget).1
  refine List.mem_append_left _ (List.mem_filter.2 ⟨List.mem_range.2 hlt, ?_⟩)
  simp [hget, hmiss]

theorem missIdx_lt {e : FileEntry} {readCached : Nat → Bool} {chunks : List Chunk} {i : Nat}
    (hi : i ∈ missIdx e readCached chunks) : i < chunks.length := by
  rcases List.mem_append.1 hi with hi | hi <;>
    exact List.mem_range.1 (List.mem_filter.1 hi).1

/-- An answer to every list of elements. -/
def zeroAnswer (wire : List WireElem) : List (WireElem × Bytes) :=
  wire.map fun w => (w, List.replicate w.len 0)

theorem zeroAnswer_full (wire : List WireElem) : FullAnswer wire (zeroAnswer wire) := by
  constructor
  · simp [zeroAnswer, Function.comp_def]
  · intro wb hwb
    obtain ⟨w, -, rfl⟩ := List.mem_map.1 hwb
    exact List.length_replicate

/-- Every miss chunk is filled.  For every list of chunks that is not relayed, whatever the cache
holds and however much of it can be read: a miss leads to a read of the origin, and every full answer
fills each missed chunk from the elements that cover it, if and only if no chunk's end wraps. -/
theorem misses_filled_iff (e : FileEntry) (hpage : Config.validPageSize e.meta_.pageSize = true)
    (hsize : e.meta_.fileSize < 2 ^ 64) (readsData : Nat → Nat → Bool) (readCached : Nat → Bool)
    (chunks : List Chunk) (hguard : relaysVector e.meta_.fileSize chunks = false) :
    MissesFilled chunks (missIdx e readCached chunks)
      (issueMissVRead64 e.meta_.pageSize e.meta_.fileSize readsData chunks
        (missIdx e readCached chunks)) ↔
      ∀ c ∈ chunks, c.off + c.len < 2 ^ 64 := by
  obtain ⟨hlo, hhi, -⟩ := MetaFile.validPageSize_iff.1 hpage
  have hpos : 0 < e.meta_.pageSize := by omega
  have hmax : e.meta_.pageSize ≤ kMaxReadvElem := by
    unfold kMaxReadvElem
    omega
  have hpass : ∀ c ∈ chunks, 0 < c.len ∧ add64 c.off c.len ≤ e.meta_.fileSize := by
    intro c hc
    have hno := List.any_eq_false.1 hguard c hc
    simp only [decide_eq_true_eq] at hno
    omega
  have hin : ∀ c ∈ chunks, add64 c.off c.len ≤ e.meta_.fileSize := fun c hc => (hpass c hc).2
  constructor
  · intro hfilled c hc
    by_contra hwrap
    obtain ⟨i, hget⟩ := List.mem_iff_getElem?.1 hc
    have hmiss : Presence.hasRange e c.off c.len = false := by
      rw [← Bool.not_eq_true, Presence.hasRange_iff hpos]
      rintro ⟨-, hnowrap, -⟩
      exact hwrap (Nat.lt_of_not_le hnowrap)
    have hi := @mem_missIdx e readCached chunks i c hget hmiss
    obtain ⟨-, hall⟩ := hfilled (List.ne_nil_of_mem hi)
    obtain ⟨b, -, -, hbytes⟩ := hall _ (zeroAnswer_full _) i hi c hget
    -- the byte at the top of the address space is in no element
    have hlen := (hpass c hc).1
    obtain ⟨wb, hwb, ⟨-, hend⟩, -⟩ := hbytes (c.len - 1) (by omega)
    have hmem : wb.1 ∈ issueMissVRead64 e.meta_.pageSize e.meta_.fileSize readsData chunks
        (missIdx e readCached chunks) := by
      obtain ⟨w, hw, rfl⟩ := List.mem_map.1 hwb
      exact hw
    have := issueMissVRead64_ends hpos hmax readsData _ hin wb.1 hmem
    omega
  · intro hwords hne
    obtain ⟨hlens, hapart, hbrings⟩ := issueMissVRead64_spec hpos hmax readsData
      (missIdx e readCached chunks) hin hwords
    generalize issueMissVRead64 e.meta_.pageSize e.meta_.fileSize readsData chunks
      (missIdx e readCached chunks) = wire at hlens hapart hbrings
    constructor
    · obtain ⟨i, hi⟩ := List.exists_mem_of_ne_nil _ hne
      have hget := List.getElem?_eq_getElem (missIdx_lt hi)
      have hlen := (hpass _ (List.mem_of_getElem? hget)).1
      obtain ⟨w, hw, -⟩ := hbrings i hi _ hget _ (le_refl _) (by omega)
      exact List.ne_nil_of_mem hw
    · intro answer hans i hi c hget
      have hgap : Apart answer := by
        constructor
        · rw [← hans.elems] at hapart
          exact List.pairwise_map.1 hapart
        · intro wb hwb
          exact hlens wb.1 (hans.elems ▸ List.mem_map_of_mem hwb)
      obtain ⟨hgap', hstart, hkept⟩ := @findWire_spec c.off answer hgap
      obtain ⟨b, hb⟩ := @scatterFrom_covered _ hgap' c.off c.len hstart (by
        intro p h1 h2
        apply hkept p h1
        obtain ⟨w, hw, hp⟩ := hbrings i hi c hget p h1 h2
        rw [← hans.elems] at hw
        obtain ⟨wb, hwb, rfl⟩ := List.mem_map.1 hw
        exact ⟨wb, hwb, hp⟩)
      obtain ⟨hlen, hbytes⟩ := scatterFrom_bytes
        (fun wb hwb => hans.full wb (findWire_subset _ _ wb hwb)) hb
      refine ⟨b, hb, hlen, fun k hk => ?_⟩
      obtain ⟨wb, hwb, hfrom⟩ := hbytes k hk
      exact ⟨wb, findWire_subset _ _ wb hwb, hfrom⟩

/-- A handle on a file of `n` bytes of which the cache has none. -/
def bareEntry (n : Nat) : FileEntry := FileEntry.ofMeta {} [] (MetaData.fresh [] n 4096 0) false

/-- Two missed chunks that overlap are both filled. -/
theorem overlapping_misses_filled :
    MissesFilled [{ off := 0, len := 10 }, { off := 4, len := 5000 }]
      (missIdx (bareEntry 10000) (fun _ => true) [{ off := 0, len := 10 }, { off := 4, len := 5000 }])
      (issueMissVRead64 4096 10000 (fun _ _ => false)
        [{ off := 0, len := 10 }, { off := 4, len := 5000 }]
        (missIdx (bareEntry 10000) (fun _ => true)
          [{ off := 0, len := 10 }, { off := 4, len := 5000 }])) :=
  (misses_filled_iff (bareEntry 10000) (by decide) (by decide) (fun _ _ => false) (fun _ => true)
    [{ off := 0, len := 10 }, { off := 4, len := 5000 }] (by decide)).2 (by decide)

/-- A chunk that wraps passes the guard of a file of 100 bytes, is missed, and is not fetched. -/
theorem wrapped_chunk_not_filled :
    relaysVector 100 [{ off := 2 ^ 64 - 10, len := 20 }] = false ∧
    missIdx (bareEntry 100) (fun _ => true) [{ off := 2 ^ 64 - 10, len := 20 }] = [0] ∧
    issueMissVRead64 4096 100 (fun _ _ => false) [{ off := 2 ^ 64 - 10, len := 20 }] [0] = [] ∧
    ¬ MissesFilled [{ off := 2 ^ 64 - 10, len := 20 }] [0]
        (issueMissVRead64 4096 100 (fun _ _ => false) [{ off := 2 ^ 64 - 10, len := 20 }] [0]) := by
  have hwire :
      issueMissVRead64 4096 100 (fun _ _ => false) [{ off := 2 ^ 64 - 10, len := 20 }] [0] = [] := by
    decide
  refine ⟨by decide, by decide, hwire, fun hfilled => ?_⟩
  exact (hfilled (by decide)).1 hwire

end UCache
