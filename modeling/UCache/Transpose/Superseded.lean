/-
Module: UCache.Transpose.Superseded
Purpose: What a rewrite lists as superseded is dead: nothing that the rewritten file reads from the
  origin is in it, and every page that only ranges that moved point at is.
Trusted boundary: none
Main exports: PagesTracked, supersededRanges_spec, superseded_ranges_dead
-/
import UCache.Core.Xxh3
import UCache.Lib.Loop
import UCache.Lib.Spans
import UCache.Transpose.RNTupleRewrite

namespace UCache

open Lib

/-! ### What the walk tracks -/

variable {ri : Nat}

/-- What a walk that has moved the pages `moved` and kept the pages `kept` knows: every page moved
has a candidate at its offset, every candidate is such a page, and what is kept is alive. -/
structure PagesTracked (moved kept : List PageInfo) (st : Rewriting) : Prop where
  candidate : ∀ c ∈ st.candidates, ∃ pg ∈ moved, c = ⟨pg.offset, pg.onDisk⟩
  covered : ∀ pg ∈ moved, ∃ c ∈ st.candidates, c.off = pg.offset
  seen : ∀ k ∈ st.seen, ∃ c ∈ st.candidates, c.off = k.1.1
  live : ∀ x, x ∈ st.live ↔ ∃ pg ∈ kept, pg.offset = x

section Walked

variable {E : Encoder} {hash : Bytes → UInt64} {m : RNTupleMeta} {fileSize level : Nat}
  {eligible : Nat → ColumnRange → Eligible}
  {block : Nat → Nat → PageInfo → Except BlockFault PageBlock}
  {moved kept : List PageInfo} {st st' : Rewriting}

theorem lookup_mem {α β : Type} [BEq α] [LawfulBEq α] {l : List (α × β)} {a : α} {b : β}
    (h : l.lookup a = some b) : (a, b) ∈ l := by
  rw [List.lookup_eq_some_iff] at h
  obtain ⟨l₁, l₂, rfl, -⟩ := h
  simp

/-- Only the three lists are tracked. -/
theorem PagesTracked.same (h : PagesTracked moved kept st)
    (hcandidates : st'.candidates = st.candidates) (hseen : st'.seen = st.seen)
    (hlive : st'.live = st.live) : PagesTracked moved kept st' where
  candidate := by
    rw [hcandidates]
    exact h.candidate
  covered := by
    rw [hcandidates]
    exact h.covered
  seen := by
    rw [hcandidates, hseen]
    exact h.seen
  live := by
    rw [hlive]
    exact h.live

theorem PagesTracked.rewritePage {p : Nat × PageInfo} (h : PagesTracked moved kept st)
    (hstep : rewritePage hash block ri st p = .ok st') :
    PagesTracked (moved ++ [p.2]) kept st' := by
  unfold UCache.rewritePage at hstep
  simp only at hstep
  split at hstep
  · -- moved already: a candidate has its offset
    rename_i to_ size hseen
    cases hstep
    obtain ⟨c, hc, hoff⟩ := h.seen _ (lookup_mem hseen)
    refine ⟨?_, ?_, h.seen, h.live⟩
    · intro c hc
      obtain ⟨pg, hpg, heq⟩ := h.candidate c hc
      exact ⟨pg, by simp [hpg], heq⟩
    · intro pg hpg
      rcases List.mem_append.1 hpg with hpg | hpg
      · exact h.covered pg hpg
      · obtain rfl : pg = p.2 := by simpa using hpg
        exact ⟨c, hc, hoff⟩
  · split at hstep
    · cases hstep
    · cases hstep
      refine ⟨?_, ?_, ?_, h.live⟩
      · intro c hc
        rcases List.mem_append.1 hc with hc | hc
        · obtain ⟨pg, hpg, heq⟩ := h.candidate c hc
          exact ⟨pg, by simp [hpg], heq⟩
        · exact ⟨p.2, by simp, by simpa using hc⟩
      · intro pg hpg
        rcases List.mem_append.1 hpg with hpg | hpg
        · obtain ⟨c, hc, hoff⟩ := h.covered pg hpg
          exact ⟨c, by simp [hc], hoff⟩
        · obtain rfl : pg = p.2 := by simpa using hpg
          exact ⟨⟨p.2.offset, p.2.onDisk⟩, by simp, rfl⟩
      · intro k hk
        rcases List.mem_cons.1 hk with rfl | hk
        · exact ⟨⟨p.2.offset, p.2.onDisk⟩, by simp, rfl⟩
        · obtain ⟨c, hc, hoff⟩ := h.seen k hk
          exact ⟨c, by simp [hc], hoff⟩

theorem PagesTracked.rewritePages {ps : List (Nat × PageInfo)} (h : PagesTracked moved kept st)
    (hstep : ps.foldlM (UCache.rewritePage hash block ri) st = .ok st') :
    PagesTracked (moved ++ ps.map Prod.snd) kept st' := by
  have hall := foldlM_history (P := fun done st => PagesTracked (moved ++ done.map Prod.snd) kept st)
    (fun d s p s' hs hp => by simpa using hs.rewritePage hp) (d := []) (by simpa using h) hstep
  simpa using hall

/-- The pages of the ranges for which `p` holds. -/
def pagesWhere (p : Nat × ColumnRange → Bool) (rs : List (Nat × ColumnRange)) : List PageInfo :=
  (rs.filter p).flatMap fun r => r.2.pages

/-- The range moves. -/
def moves (eligible : Nat → ColumnRange → Eligible) (r : Nat × ColumnRange) : Bool :=
  decide (eligible r.1 r.2 = .relocate)

theorem PagesTracked.keepRange (h : PagesTracked moved kept st) (r : ColumnRange)
    (out : RNTupleRewrite) :
    PagesTracked moved (kept ++ r.pages) (keepRange st r out) := by
  refine ⟨h.candidate, h.covered, h.seen, fun x => ?_⟩
  unfold UCache.keepRange
  simp only [List.mem_append, List.mem_map, h.live]
  constructor
  · rintro (⟨pg, hpg, hx⟩ | ⟨pg, hpg, hx⟩)
    · exact ⟨pg, .inl hpg, hx⟩
    · exact ⟨pg, .inr hpg, hx⟩
  · rintro ⟨pg, hpg | hpg, hx⟩
    · exact .inl ⟨pg, hpg, hx⟩
    · exact .inr ⟨pg, hpg, hx⟩

theorem PagesTracked.rewriteRange {r : Nat × ColumnRange} (h : PagesTracked moved kept st)
    (hstep : rewriteRange hash level eligible block st r = .ok st') :
    PagesTracked (moved ++ pagesWhere (moves eligible) [r])
      (kept ++ pagesWhere (fun r => !moves eligible r) [r]) st' := by
  unfold UCache.rewriteRange at hstep
  split at hstep
  · rename_i codec heq
    cases hstep
    simpa [pagesWhere, moves, heq] using h.keepRange r.2 _
  · rename_i heq
    cases hstep
    simpa [pagesWhere, moves, heq] using h.keepRange r.2 _
  · rename_i heq
    simp only [bind, Except.bind] at hstep
    split at hstep
    · cases hstep
    · rename_i mid hmid
      cases hstep
      have hmoving : PagesTracked moved kept
          { st with out := { st.out with rangesRelocated := st.out.rangesRelocated + 1 } } :=
        h.same rfl rfl rfl
      have hpages := hmoving.rewritePages hmid
      rw [List.map_snd_zip (by simp)] at hpages
      have hmoves : pagesWhere (moves eligible) [r] = r.2.pages := by
        simp [pagesWhere, moves, heq]
      have hkeeps : pagesWhere (fun r => !moves eligible r) [r] = [] := by
        simp [pagesWhere, moves, heq]
      rw [hmoves, hkeeps, List.append_nil]
      exact hpages.same rfl rfl rfl

theorem PagesTracked.rewriteRanges {rs : List (Nat × ColumnRange)} (h : PagesTracked moved kept st)
    (hstep : rs.foldlM (UCache.rewriteRange hash level eligible block) st = .ok st') :
    PagesTracked (moved ++ pagesWhere (moves eligible) rs)
      (kept ++ pagesWhere (fun r => !moves eligible r) rs) st' := by
  have hall := foldlM_history (P := fun done st =>
      PagesTracked (moved ++ pagesWhere (moves eligible) done)
        (kept ++ pagesWhere (fun r => !moves eligible r) done) st)
    (fun d s r s' hs hr => by
      have hmore := hs.rewriteRange hr
      simpa [pagesWhere] using hmore) (d := []) (by simpa [pagesWhere] using h) hstep
  simpa using hall

theorem rewritePage_error {p : Nat × PageInfo} {out : RNTupleRewrite}
    (h : rewritePage hash block ri st p = .error out) : out.error ≠ "" := by
  unfold rewritePage at h
  simp only at h
  split at h
  · cases h
  · split at h
    · rename_i e he
      cases h
      exact e.said
    · cases h

theorem rewriteRange_error {r : Nat × ColumnRange} {out : RNTupleRewrite}
    (h : rewriteRange hash level eligible block st r = .error out) : out.error ≠ "" := by
  unfold rewriteRange at h
  split at h
  · cases h
  · cases h
  · simp only [bind, Except.bind] at h
    split at h
    · rename_i out' hout
      cases h
      exact foldlM_error (fun _ _ _ => rewritePage_error) hout
    · cases h

/-- A rewrite that is finished lists the candidates that nothing keeps alive. -/
theorem finishRewrite_superseded (h : (finishRewrite E hash m level st).error = "") :
    (finishRewrite E hash m level st).superseded =
      st.candidates.filter fun r => !st.live.contains r.off := by
  unfold finishRewrite at h ⊢
  simp only at h ⊢
  split at h
  · simp [RNTupleRewrite.fail] at h
  · split at h
    · simp [RNTupleRewrite.fail] at h
    · split at h
      · simp [RNTupleRewrite.fail] at h
      · split at h
        · simp [RNTupleRewrite.fail] at h
        · rename_i hoff hlen hwidth
          rw [if_neg hoff, if_neg hlen, if_neg hwidth]

/-- A build without error has walked all ranges. -/
theorem buildImpl_superseded (h : (buildImpl E hash m fileSize level eligible block).error = "") :
    ∃ st, PagesTracked (pagesWhere (moves eligible) m.numbered)
        (pagesWhere (fun r => !moves eligible r) m.numbered) st ∧
      (buildImpl E hash m fileSize level eligible block).superseded =
        st.candidates.filter fun r => !st.live.contains r.off := by
  unfold buildImpl at h ⊢
  simp only at h ⊢
  split at h
  · simp [RNTupleRewrite.fail] at h
  · rename_i hsome
    rw [if_neg hsome]
    split at h
    · rename_i out hout
      exact absurd h (foldlM_error (fun _ _ _ => rewriteRange_error) hout)
    · rename_i st hst
      split at h
      · simp [RNTupleRewrite.fail] at h
      · rename_i hmoved
        have hstart : PagesTracked [] [] { out := { extBase := fileSize }, pl := m.pageList } :=
          ⟨by simp, by simp, by simp, by simp⟩
        refine ⟨st, by simpa using hstart.rewriteRanges hst, ?_⟩
        rw [if_neg hmoved]
        exact finishRewrite_superseded h

end Walked

/-! ### Merging -/

variable {r : OriginRange}

/-- The range as a span of positions. -/
def OriginRange.span (r : OriginRange) : Nat × Nat := (r.off, r.off + r.len)

/-- The end of the range is a 64-bit number. -/
def OriginRange.Fits (r : OriginRange) : Prop := r.off + r.len < 2 ^ 64

theorem OriginRange.Fits.stop_eq (h : r.Fits) : r.stop = r.off + r.len :=
  Nat.mod_eq_of_lt h

/-- Merging ranges is coalescing spans. -/
theorem mergeRange_spec {merged : List OriginRange} (hm : ∀ b ∈ merged, b.Fits) (hr : r.Fits) :
    (mergeRange merged r).map OriginRange.span =
        addSpan (merged.map OriginRange.span) r.span ∧ ∀ b ∈ mergeRange merged r, b.Fits := by
  rcases List.eq_nil_or_concat merged with rfl | ⟨init, b, rfl⟩
  · exact ⟨rfl, by simpa [mergeRange] using hr⟩
  · rw [List.concat_eq_append] at hm ⊢
    have hb : b.Fits := hm b (by simp)
    have hb' : b.off + b.len < 2 ^ 64 := hb
    have hr' : r.off + r.len < 2 ^ 64 := hr
    have hmerge : mergeRange (init ++ [b]) r =
        if r.off ≤ b.off + b.len then
          init ++ [{ b with len := max (b.off + b.len) (r.off + r.len) - b.off }]
        else init ++ [b] ++ [r] := by
      unfold mergeRange
      simp only [List.getLast?_append, List.getLast?_singleton, Option.some_or,
        List.dropLast_concat]
      rw [hb.stop_eq, hr.stop_eq, sub64_of_le (by omega) (by omega)]
    have hadd : addSpan ((init ++ [b]).map OriginRange.span) r.span =
        if r.off ≤ b.off + b.len then
          init.map OriginRange.span ++ [(b.off, max (b.off + b.len) (r.off + r.len))]
        else (init ++ [b]).map OriginRange.span ++ [r.span] := by
      simp [addSpan, OriginRange.span]
    rw [hmerge, hadd]
    split
    · refine ⟨?_, ?_⟩
      · rw [List.map_append, List.map_singleton, OriginRange.span]
        simp only
        rw [Nat.add_sub_cancel' (by omega)]
      · intro q hq
        rcases List.mem_append.1 hq with hq | hq
        · exact hm q (by simp [hq])
        · obtain rfl : q = _ := List.mem_singleton.1 hq
          show b.off + (max (b.off + b.len) (r.off + r.len) - b.off) < 2 ^ 64
          omega
    · refine ⟨by simp, ?_⟩
      intro q hq
      rcases List.mem_append.1 hq with hq | hq
      · exact hm q hq
      · obtain rfl : q = r := by simpa using hq
        exact hr

theorem foldl_mergeRange {rs : List OriginRange} (hrs : ∀ r ∈ rs, r.Fits)
    {merged : List OriginRange}
    (hm : ∀ b ∈ merged, b.Fits) : (rs.foldl mergeRange merged).map OriginRange.span =
      (rs.map OriginRange.span).foldl addSpan (merged.map OriginRange.span) := by
  induction rs generalizing merged with
  | nil => rfl
  | cons r rest ih =>
      obtain ⟨hspan, hfits⟩ := mergeRange_spec hm (hrs r (by simp))
      rw [List.foldl_cons, ih (fun q hq => hrs q (by simp [hq])) hfits, hspan]
      rfl

theorem OriginRange.Fits.reserveHead (h : r.Fits) : (reserveHead r).Fits := by
  have hr : r.off + r.len < 2 ^ 64 := h
  unfold UCache.reserveHead
  rw [h.stop_eq]
  split
  · show kHeadReserve + _ < _
    unfold kHeadReserve
    simp only
    split <;> omega
  · exact h

/-- A byte of what is behind the head. -/
theorem mem_reserveHead (h : r.Fits) (b : Nat) :
    ((reserveHead r).off ≤ b ∧ b < (reserveHead r).off + (reserveHead r).len) ↔
      kHeadReserve ≤ b ∧ r.off ≤ b ∧ b < r.off + r.len := by
  unfold reserveHead
  rw [h.stop_eq]
  split
  · simp only
    split <;> omega
  · omega

/-- A byte of one of the ranges. -/
def Listed (rs : List OriginRange) (b : Nat) : Prop := ∃ r ∈ rs, r.off ≤ b ∧ b < r.off + r.len

theorem within_map_span (rs : List OriginRange) (b : Nat) :
    Within (rs.map OriginRange.span) b ↔ Listed rs b := by
  simp [Within, Listed, OriginRange.span]

/-- The list is in order with gaps, behind the head, and has the bytes behind the head of what it is
made from. -/
theorem supersededRanges_spec {m : RNTupleMeta} {out : RNTupleRewrite}
    (hfits : ∀ r ∈ supersedes m out, r.Fits) :
    ((supersededRanges m out).Pairwise fun a b => a.off + a.len < b.off) ∧
      (∀ b, Listed (supersededRanges m out) b ↔ kHeadReserve ≤ b ∧ Listed (supersedes m out) b) ∧
      ∀ r ∈ supersededRanges m out, kHeadReserve ≤ r.off := by
  have hdef : supersededRanges m out =
      ((((supersedes m out).map reserveHead).filter fun r => r.len != 0).insertionSort
        fun a b => a.off ≤ b.off).foldl mergeRange [] := rfl
  generalize hbehind :
    ((supersedes m out).map reserveHead).filter (fun r => r.len != 0) = behind at hdef
  have : Std.Total fun a b : OriginRange => a.off ≤ b.off := ⟨fun a b => by omega⟩
  have : IsTrans OriginRange fun a b => a.off ≤ b.off := ⟨fun a b c => by omega⟩
  have hperm := List.perm_insertionSort (fun a b : OriginRange => a.off ≤ b.off) behind
  have hsorted := List.pairwise_insertionSort (fun a b : OriginRange => a.off ≤ b.off) behind
  generalize behind.insertionSort (fun a b => a.off ≤ b.off) = sorted at hdef hperm hsorted
  have hmem : ∀ r ∈ sorted, ∃ q ∈ supersedes m out, reserveHead q = r := by
    intro r hr
    rw [hperm.mem_iff, ← hbehind, List.mem_filter, List.mem_map] at hr
    exact hr.1
  have hsortedFits : ∀ r ∈ sorted, r.Fits := by
    intro r hr
    obtain ⟨q, hq, rfl⟩ := hmem r hr
    exact (hfits q hq).reserveHead
  have hspans := @foldl_mergeRange sorted hsortedFits [] (by simp)
  rw [← hdef, List.map_nil] at hspans
  have hproper : ∀ s ∈ sorted.map OriginRange.span, s.1 ≤ s.2 := by
    intro s hs
    obtain ⟨r, -, rfl⟩ := List.mem_map.1 hs
    exact Nat.le_add_right _ _
  have hnil : Coalesced [] := ⟨by simp, .nil⟩
  have hpairs : (sorted.map OriginRange.span).Pairwise fun a b => a.1 ≤ b.1 :=
    List.pairwise_map.2 hsorted
  obtain ⟨hcoalesced, hwithin⟩ := foldl_addSpan hnil hproper hpairs (by simp)
  rw [← hspans] at hcoalesced hwithin
  refine ⟨List.pairwise_map.1 hcoalesced.apart, ?_, ?_⟩
  · intro b
    rw [← within_map_span, hwithin b, within_map_span]
    constructor
    · rintro (hfalse | ⟨r, hr, hb⟩)
      · exact absurd hfalse (within_nil b)
      · obtain ⟨q, hq, rfl⟩ := hmem r hr
        obtain ⟨hhead, hin⟩ := (mem_reserveHead (hfits q hq) b).1 hb
        exact ⟨hhead, q, hq, hin⟩
    · rintro ⟨hhead, q, hq, hin⟩
      have hb := (mem_reserveHead (hfits q hq) b).2 ⟨hhead, hin⟩
      refine .inr ⟨reserveHead q, ?_, hb⟩
      rw [hperm.mem_iff, ← hbehind, List.mem_filter]
      refine ⟨List.mem_map_of_mem hq, ?_⟩
      simp only [bne_iff_ne, ne_eq]
      omega
  · intro r hr
    obtain ⟨⟨s, hs, hsr⟩, -⟩ := foldl_addSpan_mem hnil hproper
      (hspans ▸ List.mem_map_of_mem hr : r.span ∈ (sorted.map OriginRange.span).foldl addSpan [])
    rw [List.nil_append] at hs
    obtain ⟨t, ht, rfl⟩ := List.mem_map.1 hs
    obtain ⟨q, -, rfl⟩ := hmem t ht
    have hoff : (reserveHead q).off = r.off := hsr
    rw [← hoff]
    unfold reserveHead
    split
    · exact le_refl _
    · omega

/-! ### Superseded ranges are dead -/

variable {m : RNTupleMeta}

/-- The page as it is stored, with its checksum. -/
def PageInfo.extent (pg : PageInfo) : OriginRange := ⟨pg.offset, pg.onDisk⟩

namespace RNTupleMeta

def allPages (m : RNTupleMeta) : List PageInfo := m.ranges.flatMap ColumnRange.pages

/-- Page list, footer, header envelope and anchor. -/
def records (m : RNTupleMeta) : List OriginRange :=
  [⟨m.pageListOffset, m.pageListNbytes⟩, ⟨m.anchor.seekFooter, m.anchor.nbytesFooter⟩,
    ⟨m.anchor.seekHeader, m.anchor.nbytesHeader⟩, ⟨m.anchor.payloadOffset, m.anchor.payloadLength⟩]

/-- Everything stored that a reader of the columns goes to. -/
def stored (m : RNTupleMeta) : List OriginRange := m.allPages.map PageInfo.extent ++ m.records

/-- What is stored at different offsets is disjoint, and page records of one offset have one
extent. -/
structure StoredApart (m : RNTupleMeta) : Prop where
  apart : ∀ a ∈ m.stored, ∀ b ∈ m.stored, a.off ≠ b.off → ∀ x, Listed [a] x → ¬ Listed [b] x
  shared : ∀ p ∈ m.allPages, ∀ q ∈ m.allPages, p.offset = q.offset → p.onDisk = q.onDisk

/-- The same, to be evaluated. -/
def storedApart (m : RNTupleMeta) : Bool :=
  (m.stored.all fun a => m.stored.all fun b => decide (a.off = b.off) ||
    decide (a.off + a.len ≤ b.off) || decide (b.off + b.len ≤ a.off)) &&
  m.allPages.all fun p => m.allPages.all fun q =>
    decide (p.offset ≠ q.offset) || decide (p.onDisk = q.onDisk)

theorem storedApart_spec (h : m.storedApart = true) : m.StoredApart := by
  simp only [storedApart, Bool.and_eq_true, List.all_eq_true, Bool.or_eq_true, decide_eq_true_eq]
    at h
  refine ⟨?_, fun p hp q hq hoff => (h.2 p hp q hq).resolve_left fun hne => hne hoff⟩
  intro a ha b hb hoff x hxa hxb
  simp only [Listed, List.mem_singleton, exists_eq_left] at hxa hxb
  rcases h.1 a ha b hb with (heq | hle) | hle
  · exact hoff heq
  · omega
  · omega

/-- Only page records share an offset. -/
structure OwnOffsets (m : RNTupleMeta) : Prop where
  records : (m.records.map OriginRange.off).Nodup
  pages : ∀ pg ∈ m.allPages, ∀ r ∈ m.records, pg.offset ≠ r.off

end RNTupleMeta

/-- A choice of the ranges that move.  The pages of one that does are in the file: whoever has them
says so. -/
structure RangeChoice (m : RNTupleMeta) where
  eligible : Nat → ColumnRange → Eligible
  inFile : ∀ ri r, m.ranges[ri]? = some r → eligible ri r = .relocate →
    ∀ pg ∈ r.pages, pg.offset + pg.onDisk ≤ m.fileSize

/-- The choice by what a source of the file has. -/
def RangeChoice.ofSource (m : RNTupleMeta) (src : ByteSource) (codecs : List String)
    (hsize : src.size = m.fileSize) : RangeChoice m where
  eligible := sourceEligible src codecs
  inFile ri r _ hr pg hpg := by
    unfold sourceEligible at hr
    split at hr
    · cases hr
    · split at hr
      · rename_i hall
        have := src.has_le _ _ (List.all_eq_true.1 hall pg hpg)
        omega
      · cases hr

/-- What makes a list of superseded ranges safe to punch, and complete: it is sorted and disjoint,
behind the head and inside the file; it has no byte of a page that a range left in place points at
(the others point past the file's end), and none of the header envelope or the anchor; and it has
every byte behind the head of a page that only ranges that moved point at. -/
structure DeadRanges (m : RNTupleMeta) (eligible : Nat → ColumnRange → Eligible)
    (sup : List OriginRange) : Prop where
  sorted : sup.Pairwise fun a b => a.off + a.len ≤ b.off
  head : ∀ r ∈ sup, kHeadReserve ≤ r.off
  inFile : ∀ b, Listed sup b → b < m.fileSize
  pages : ∀ ri r, m.ranges[ri]? = some r → eligible ri r ≠ .relocate →
    ∀ pg ∈ r.pages, ∀ b, Listed [pg.extent] b → ¬ Listed sup b
  records : ∀ b, Listed [⟨m.anchor.seekHeader, m.anchor.nbytesHeader⟩] b ∨
    Listed [⟨m.anchor.payloadOffset, m.anchor.payloadLength⟩] b → ¬ Listed sup b
  complete : ∀ ri r, m.ranges[ri]? = some r → eligible ri r = .relocate → ∀ pg ∈ r.pages,
    (∀ rj q, m.ranges[rj]? = some q → eligible rj q ≠ .relocate → ∀ pg' ∈ q.pages,
      pg'.offset ≠ pg.offset) →
    ∀ b, Listed [pg.extent] b → kHeadReserve ≤ b → Listed sup b

theorem listed_singleton {b : Nat} : Listed [r] b ↔ r.off ≤ b ∧ b < r.off + r.len := by
  simp [Listed]

theorem RNTupleMeta.mem_numbered {r : ColumnRange} :
    (ri, r) ∈ m.numbered ↔ m.ranges[ri]? = some r := by
  unfold numbered
  rw [List.mem_iff_getElem?]
  constructor
  · rintro ⟨i, hi⟩
    obtain ⟨hri, hr⟩ := List.getElem?_zip_eq_some.1 hi
    obtain ⟨hlt, heq⟩ := List.getElem?_eq_some_iff.1 hri
    obtain rfl : i = ri := by simpa using heq
    exact hr
  · intro hr
    obtain ⟨hlt, -⟩ := List.getElem?_eq_some_iff.1 hr
    exact ⟨ri, List.getElem?_zip_eq_some.2 ⟨by simp [hlt], hr⟩⟩

theorem mem_pagesWhere {p : Nat × ColumnRange → Bool} {pg : PageInfo} :
    pg ∈ pagesWhere p m.numbered ↔
      ∃ ri r, m.ranges[ri]? = some r ∧ p (ri, r) = true ∧ pg ∈ r.pages := by
  simp only [pagesWhere, List.mem_flatMap, List.mem_filter, Prod.exists, RNTupleMeta.mem_numbered,
    and_assoc]

theorem RNTupleMeta.mem_allPages {r : ColumnRange} {pg : PageInfo} (hr : m.ranges[ri]? = some r)
    (hpg : pg ∈ r.pages) : pg ∈ m.allPages :=
  List.mem_flatMap.2 ⟨r, List.mem_of_getElem? hr, hpg⟩

/-- An overlay without error is of a rewrite without error. -/
theorem rnTupleOverlay_ok {out : RNTupleRewrite} (h : (rnTupleOverlay m out).error = "") :
    out.error = "" ∧ (rnTupleOverlay m out).sidecar.superseded = supersededRanges m out := by
  unfold rnTupleOverlay at h ⊢
  split at h
  · rename_i herror
    exact absurd h herror
  · rename_i herror
    rw [if_neg herror]
    simp only at h ⊢
    split at h
    · simp at h
    · rename_i happart
      rw [if_neg happart]
      exact ⟨by simpa using herror, rfl⟩

/-- What is superseded: a page that moved and that nothing left in place points at, the page list,
or the footer. -/
theorem mem_supersedes {E : Encoder} {hash : Bytes → UInt64} {level : Nat}
    {eligible : Nat → ColumnRange → Eligible}
    {block : Nat → Nat → PageInfo → Except BlockFault PageBlock}
    (h : (buildImpl E hash m m.fileSize level eligible block).error = "") (r : OriginRange) :
    r ∈ supersedes m (buildImpl E hash m m.fileSize level eligible block) →
      (∃ ri q, m.ranges[ri]? = some q ∧ eligible ri q = .relocate ∧ ∃ pg ∈ q.pages,
        r = pg.extent ∧ ∀ rj t, m.ranges[rj]? = some t → eligible rj t ≠ .relocate →
          ∀ pg' ∈ t.pages, pg'.offset ≠ pg.offset) ∨ r ∈ m.records.take 2 := by
  obtain ⟨st, htracks, hsup⟩ := buildImpl_superseded h
  intro hr
  unfold supersedes at hr
  rw [hsup, List.mem_append, List.mem_append] at hr
  rcases hr with (hr | hr) | hr
  · obtain ⟨hc, hdead⟩ := List.mem_filter.1 hr
    obtain ⟨pg, hpg, rfl⟩ := htracks.candidate r hc
    obtain ⟨ri, q, hq, hmoves, hpgq⟩ := mem_pagesWhere.1 hpg
    refine .inl ⟨ri, q, hq, of_decide_eq_true hmoves, pg, hpgq, rfl, ?_⟩
    intro rj t ht hkept pg' hpg' hoff
    have hlive : pg.offset ∈ st.live := by
      rw [htracks.live]
      exact ⟨pg', mem_pagesWhere.2 ⟨rj, t, ht, by simp [moves, hkept], hpg'⟩, hoff⟩
    simp [hlive] at hdead
  · split at hr
    · simp at hr
    · exact .inr (by simp_all [RNTupleMeta.records])
  · split at hr
    · simp at hr
    · exact .inr (by simp_all [RNTupleMeta.records])

/-- And all of these are, but for those of no length. -/
theorem supersedes_complete {E : Encoder} {hash : Bytes → UInt64} {level : Nat}
    {eligible : Nat → ColumnRange → Eligible}
    {block : Nat → Nat → PageInfo → Except BlockFault PageBlock}
    (h : (buildImpl E hash m m.fileSize level eligible block).error = "")
    (hshared : ∀ p ∈ m.allPages, ∀ q ∈ m.allPages, p.offset = q.offset → p.onDisk = q.onDisk)
    {r : ColumnRange} (hr : m.ranges[ri]? = some r) (hmoves : eligible ri r = .relocate)
    {pg : PageInfo} (hpg : pg ∈ r.pages)
    (honly : ∀ rj q, m.ranges[rj]? = some q → eligible rj q ≠ .relocate → ∀ pg' ∈ q.pages,
      pg'.offset ≠ pg.offset) :
    pg.extent ∈ supersedes m (buildImpl E hash m m.fileSize level eligible block) := by
  obtain ⟨st, htracks, hsup⟩ := buildImpl_superseded h
  obtain ⟨c, hc, hoff⟩ := htracks.covered pg
    (mem_pagesWhere.2 ⟨ri, r, hr, decide_eq_true hmoves, hpg⟩)
  obtain ⟨pg', hpg', rfl⟩ := htracks.candidate c hc
  obtain ⟨rj, q, hq, -, hpgq⟩ := mem_pagesWhere.1 hpg'
  -- the candidate at the page's offset may be another record's, of the same extent
  have hsame : pg'.extent = pg.extent := by
    simp only at hoff
    have hlen := hshared pg' (RNTupleMeta.mem_allPages hq hpgq) pg (RNTupleMeta.mem_allPages hr hpg)
      hoff
    simp [PageInfo.extent, hoff, hlen]
  have hdead : pg'.offset ∉ st.live := by
    rw [htracks.live]
    rintro ⟨kept, hkept, hkeptOff⟩
    obtain ⟨rk, t, ht, hstays, hin⟩ := mem_pagesWhere.1 hkept
    refine honly rk t ht ?_ kept hin (hkeptOff.trans hoff)
    simpa [moves] using hstays
  rw [← hsame]
  unfold supersedes
  rw [hsup]
  apply List.mem_append_left
  apply List.mem_append_left
  rw [List.mem_filter]
  refine ⟨hc, ?_⟩
  show (!st.live.contains pg'.offset) = true
  simp [hdead]

/-- Superseded ranges are dead.  Of a file that parses, in which what is stored at different offsets
is disjoint, page records of one offset have one extent and only page records share an offset: for
every choice of ranges that move, the list of an overlay that is built without error is sorted and
disjoint, behind the head, has nothing that the rewritten file reads from the origin, and has all of
the pages that only ranges that moved point at. -/
theorem superseded_ranges_dead {D : Decoders} {hash : Bytes → UInt64} {src : ByteSource} {fsz : Int}
    {ntuple : String} {m : RNTupleMeta} (hparse : parseRNTuple D hash src fsz ntuple = .ok m)
    (hfsz : fsz < 2 ^ 63) (hapart : m.StoredApart) (hown : m.OwnOffsets) (E : Encoder) (level : Nat)
    (choice : RangeChoice m) (block : Nat → Nat → PageInfo → Except BlockFault PageBlock)
    {ov : Overlay}
    (hov : rnTupleOverlay m (buildImpl E hash m m.fileSize level choice.eligible block) = ov)
    (hok : ov.error = "") : DeadRanges m choice.eligible ov.sidecar.superseded := by
  subst hov
  obtain ⟨hbuilt, hsup⟩ := rnTupleOverlay_ok hok
  obtain ⟨hin, hsize⟩ := parseRNTuple_inFile hparse
  rw [hsup]
  have hmem := mem_supersedes hbuilt
  have hbound : ∀ r ∈ supersedes m (buildImpl E hash m m.fileSize level choice.eligible block),
      r.off + r.len ≤ m.fileSize := by
    intro r hr
    rcases hmem r hr with ⟨ri, q, hq, hmoves, pg, hpg, rfl, -⟩ | hrec
    · exact choice.inFile ri q hq hmoves pg hpg
    · simp only [RNTupleMeta.records, List.take_succ_cons, List.take_zero, List.mem_cons,
        List.not_mem_nil, or_false] at hrec
      rcases hrec with rfl | rfl
      · exact hin.pageList
      · exact hin.footer
  obtain ⟨hsorted, hlisted, hhead⟩ := @supersededRanges_spec m
    (buildImpl E hash m m.fileSize level choice.eligible block) (fun r hr => by
      have := hbound r hr
      show r.off + r.len < 2 ^ 64
      omega)
  have hfrom : ∀ r ∈ supersedes m (buildImpl E hash m m.fileSize level choice.eligible block),
      r ∈ m.stored := by
    intro r hr
    rcases hmem r hr with ⟨ri, q, hq, -, pg, hpg, rfl, -⟩ | hrec
    · exact List.mem_append_left _ (List.mem_map_of_mem (RNTupleMeta.mem_allPages hq hpg))
    · exact List.mem_append_right _ (List.mem_of_mem_take hrec)
  -- a byte of something stored at an offset of its own is not listed
  have hspared : ∀ a ∈ m.stored, (∀ r ∈ supersedes m
      (buildImpl E hash m m.fileSize level choice.eligible block), r.off ≠ a.off) →
      ∀ b, Listed [a] b → ¬ Listed (supersededRanges m
        (buildImpl E hash m m.fileSize level choice.eligible block)) b := by
    intro a ha hoff b hb hlist
    obtain ⟨-, r, hr, hrb⟩ := (hlisted b).1 hlist
    exact hapart.apart r (hfrom r hr) a ha (hoff r hr) b (listed_singleton.2 hrb) hb
  refine ⟨hsorted.imp Nat.le_of_lt, hhead, ?_, ?_, ?_, ?_⟩
  · intro b hb
    obtain ⟨-, r, hr, hrb⟩ := (hlisted b).1 hb
    have := hbound r hr
    omega
  · intro ri r hr hkept pg hpg
    have hall := RNTupleMeta.mem_allPages hr hpg
    apply hspared pg.extent (List.mem_append_left _ (List.mem_map_of_mem hall))
    intro q hq
    rcases hmem q hq with ⟨rj, t, ht, -, pg', hpg', rfl, honly⟩ | hrec
    · exact (honly ri r hr hkept pg hpg).symm
    · exact (hown.pages pg hall q (List.mem_of_mem_take hrec)).symm
  · intro b hb
    have hnodup := hown.records
    simp only [RNTupleMeta.records, List.map_cons, List.map_nil, List.nodup_cons, List.mem_cons,
      List.not_mem_nil, or_false, not_or] at hnodup
    have hother : ∀ a ∈ m.records.drop 2, ∀ q ∈ supersedes m
        (buildImpl E hash m m.fileSize level choice.eligible block), q.off ≠ a.off := by
      intro a ha q hq
      rcases hmem q hq with ⟨rj, t, ht, -, pg, hpg, rfl, -⟩ | hrec
      · exact hown.pages pg (RNTupleMeta.mem_allPages ht hpg) a (List.mem_of_mem_drop ha)
      · simp only [RNTupleMeta.records, List.take_succ_cons, List.take_zero, List.drop_succ_cons,
          List.drop_zero, List.mem_cons, List.not_mem_nil, or_false] at hrec ha
        rcases hrec with rfl | rfl <;> rcases ha with rfl | rfl
        · exact hnodup.1.2.1
        · exact hnodup.1.2.2
        · exact hnodup.2.1.1
        · exact hnodup.2.1.2
    rcases hb with hb | hb
    · exact hspared _ (by simp [RNTupleMeta.stored, RNTupleMeta.records])
        (hother _ (by simp [RNTupleMeta.records])) b hb
    · exact hspared _ (by simp [RNTupleMeta.stored, RNTupleMeta.records])
        (hother _ (by simp [RNTupleMeta.records])) b hb
  · intro ri r hr hmoves pg hpg honly b hb hhead
    refine (hlisted b).2 ⟨hhead, pg.extent, ?_, listed_singleton.1 hb⟩
    exact supersedes_complete hbuilt hapart.shared hr hmoves hpg honly

/-! ### A file with two columns -/

/-- What a cache has of a file: some stretches of it. -/
def ByteSource.ofSegments (size : Nat) (segs : List (Nat × Bytes)) : ByteSource where
  size := size
  has off n := decide (off + n ≤ size) &&
    segs.any fun s => decide (s.1 ≤ off) && decide (off + n ≤ s.1 + s.2.length)
  read off n := segs.findSome? fun s =>
    if s.1 ≤ off ∧ off + n ≤ s.1 + s.2.length then some (slice s.2 (off - s.1) n) else none
  has_le off n h := by
    simp only [Bool.and_eq_true, decide_eq_true_eq] at h
    exact h.1
  read_length off n b h := by
    obtain ⟨s, -, hs⟩ := List.exists_of_findSome?_eq_some h
    split at hs
    · cases hs
      rw [length_slice]
      omega
    · cases hs

namespace TwoColumns

def text (s : Bytes) : Bytes := le 4 s.length ++ s

def recordFrame (content : Bytes) : Bytes := le 8 (8 + content.length) ++ content

def listFrame (items : Nat) (content : Bytes) : Bytes :=
  le 8 (2 ^ 64 - (12 + content.length)) ++ le 4 items ++ content

def envelope (type : Nat) (body : Bytes) : Bytes :=
  sealEnvelope xxh3_64 (le 8 (type + (16 + body.length) * 2 ^ 16) ++ body ++ le 8 0)

def key (nbytes objlen keylen seek : Nat) (cls name : Bytes) : Bytes :=
  be 4 nbytes ++ be 2 4 ++ be 4 objlen ++ be 4 0 ++ be 2 keylen ++ be 2 1 ++ be 4 seek ++
    be 4 100 ++
    (UInt8.ofNat cls.length :: cls) ++ (UInt8.ofNat name.length :: name) ++ [0]

/-- Everything but the file's header is behind the head. -/
def base : Nat := 131072

def header : Bytes :=
  envelope kEnvelopeHeader (le 8 0 ++ text (ascii "n") ++ text [] ++ text (ascii "w") ++
    listFrame 0 [] ++ listFrame 2
      (recordFrame (le 2 0 ++ le 2 8 ++ le 4 0) ++ recordFrame (le 2 0 ++ le 2 8 ++ le 4 0)))

/-- One page of four bytes, uncompressed, and its column's setting. -/
def range (offset settings : Nat) : Bytes :=
  listFrame 1 (le 4 4 ++ le 4 4 ++ le 8 offset) ++ le 8 0 ++ le 4 settings

/-- The second column's page is at `second`. -/
def pageList (second : Nat) : Bytes :=
  envelope kEnvelopePageList (le 8 0 ++ listFrame 1 (recordFrame (le 8 0 ++ le 8 4)) ++
    listFrame 1 (listFrame 2 (range (base + 800) 0 ++ range second 505)))

def pageListAt : Nat := base + 600

def footer (second : Nat) : Bytes :=
  envelope kEnvelopeFooter (le 8 0 ++ le 8 0 ++ recordFrame [] ++ listFrame 1
    (recordFrame (le 20 0 ++ le 8 (pageList second).length ++ le 4 (pageList second).length ++
      le 8 pageListAt)))

def anchor (second : Nat) : Bytes :=
  let window := anchorWindow
    { versionEpoch := 1
      seekHeader := base + 200
      nbytesHeader := header.length
      lenHeader := header.length }
    (base + 400) (footer second).length (footer second).length
  le 6 0 ++ window ++ be 8 (xxh3_64 window).toNat

def anchorKey : Bytes := key 121 78 43 base (ascii "ROOT::RNTuple") (ascii "n")

def keysList : Bytes := key 76 47 29 (base + 900) [] [] ++ be 4 1 ++ anchorKey

def size : Nat := base + 900 + keysList.length

def fileHead : Bytes :=
  let front := ascii "root" ++ be 4 62400 ++ be 4 100 ++ be 4 size ++ le 84 0 ++
    key 90 61 29 100 [] [] ++ [0] ++ [0] ++ be 2 5 ++ le 24 0 ++ be 4 (base + 900)
  front ++ le (512 - front.length) 0

/-- A file whose second column has its page at `second`. -/
def file (second : Nat) : ByteSource :=
  .ofSegments size
    [(0, fileHead), (base, anchorKey ++ anchor second), (base + 200, header),
      (base + 400, footer second), (pageListAt, pageList second), (base + 800, [1, 2, 3, 4]),
      (base + 900, keysList)]

/-- An encoder that stores what it is given in a raw block. -/
def rawBlocks : Encoder := fun raw _ =>
  some ([0x28, 0xb5, 0x2f, 0xfd, 0x20, UInt8.ofNat raw.length] ++ le 3 (8 * raw.length + 1) ++ raw)

end TwoColumns

/-- The file parses, what it stores is apart, and the overlay for the codecs is built: then `p` holds
of what was parsed and of the superseded ranges. -/
def overlayCheck (D : Decoders) (E : Encoder) (src : ByteSource) (codecs : List String)
    (p : RNTupleMeta → List OriginRange → Bool) : Bool :=
  match parseRNTuple D xxh3_64 src src.size "" with
  | .error _ => false
  | .ok m =>
      let ov := rnTupleOverlay m
        (buildRNTupleRewrite D E xxh3_64 m src m.fileSize 1 codecs)
      m.storedApart && decide (src.size = m.fileSize) && decide (ov.error = "") &&
        p m ov.sidecar.superseded

theorem overlayCheck_spec {D : Decoders} {E : Encoder} {src : ByteSource} {codecs : List String}
    {p : RNTupleMeta → List OriginRange → Bool} (h : overlayCheck D E src codecs p = true) :
    ∃ m ov, parseRNTuple D xxh3_64 src src.size "" = .ok m ∧ m.StoredApart ∧
      src.size = m.fileSize ∧
      rnTupleOverlay m (buildRNTupleRewrite D E xxh3_64 m src m.fileSize 1 codecs) = ov ∧
      ov.error = "" ∧ p m ov.sidecar.superseded = true := by
  unfold overlayCheck at h
  split at h
  · cases h
  · rename_i m hm
    simp only [Bool.and_eq_true, decide_eq_true_eq] at h
    exact ⟨m, _, hm, RNTupleMeta.storedApart_spec h.1.1.1, h.1.1.2, rfl, h.1.2, h.2⟩

open TwoColumns in
/-- A page of a range left in place that starts where the page list does is superseded with it. -/
theorem page_at_page_list_superseded :
    ¬ ∀ (D : Decoders) (src : ByteSource) (fsz : Int) (ntuple : String) (m : RNTupleMeta),
      parseRNTuple D xxh3_64 src fsz ntuple = .ok m → fsz < 2 ^ 63 → m.StoredApart →
      ∀ (E : Encoder) (level : Nat) (choice : RangeChoice m)
        (block : Nat → Nat → PageInfo → Except BlockFault PageBlock) (ov : Overlay),
        rnTupleOverlay m (buildImpl E xxh3_64 m m.fileSize level choice.eligible block) = ov →
        ov.error = "" → DeadRanges m choice.eligible ov.sidecar.superseded := by
  intro h
  have hcheck : overlayCheck noDecoders rawBlocks (file pageListAt) ["none"] (fun m sup =>
      (m.ranges[1]?).any fun r =>
        decide (sourceEligible (file pageListAt) ["none"] 1 r ≠ .relocate) &&
        (r.pages.any fun pg => decide (pg.extent = ⟨pageListAt, 4⟩)) &&
        sup.any fun s => decide (s.off ≤ pageListAt) && decide (pageListAt < s.off + s.len)) =
          true := by
    decide +kernel
  have hfsz : ((file pageListAt).size : Int) < 2 ^ 63 := by decide +kernel
  obtain ⟨m, ov, hparse, hapart, hsize, hov, hok, hdead⟩ := overlayCheck_spec hcheck
  cases hr : m.ranges[1]? with
  | none => simp [hr] at hdead
  | some r =>
      simp only [hr, Option.any_some, Bool.and_eq_true, decide_eq_true_eq, List.any_eq_true]
        at hdead
      obtain ⟨⟨hkept, pg, hpg, hextent⟩, s, hs, hin⟩ := hdead
      have hranges := h noDecoders (file pageListAt) _ "" m hparse hfsz hapart rawBlocks 1
        (.ofSource m (file pageListAt) ["none"] hsize) _ ov hov hok
      refine hranges.pages 1 r hr hkept pg hpg pageListAt ?_ ⟨s, hs, hin⟩
      rw [hextent, listed_singleton]
      exact ⟨le_refl _, Nat.lt_add_of_pos_right (by decide)⟩

open TwoColumns in
/-- With the second column's page at an offset of its own, the footer, the page list and the first
column's page are superseded, and are dead. -/
theorem two_columns_superseded_dead :
    ∃ (m : RNTupleMeta) (ov : Overlay),
      parseRNTuple noDecoders xxh3_64 (file (base + 850)) (file (base + 850)).size "" = .ok m ∧
      ov.sidecar.superseded =
        [⟨base + 400, 100⟩, ⟨pageListAt, 164⟩, ⟨base + 800, 4⟩] ∧
      DeadRanges m (sourceEligible (file (base + 850)) ["none"]) ov.sidecar.superseded := by
  have hcheck : overlayCheck noDecoders rawBlocks (file (base + 850)) ["none"] (fun m sup =>
      decide (m.records.map OriginRange.off).Nodup &&
      (m.allPages.all fun pg => m.records.all fun r => decide (pg.offset ≠ r.off)) &&
      decide (sup = [⟨base + 400, 100⟩, ⟨pageListAt, 164⟩, ⟨base + 800, 4⟩])) = true := by
    decide +kernel
  have hfsz : ((file (base + 850)).size : Int) < 2 ^ 63 := by decide +kernel
  obtain ⟨m, ov, hparse, hapart, hsize, hov, hok, hrest⟩ := overlayCheck_spec hcheck
  simp only [Bool.and_eq_true, decide_eq_true_eq, List.all_eq_true] at hrest
  exact ⟨m, ov, hparse, hrest.2,
    superseded_ranges_dead hparse hfsz hapart ⟨hrest.1.1, hrest.1.2⟩ rawBlocks 1
      (.ofSource m (file (base + 850)) ["none"] hsize) _ hov hok⟩

end UCache
