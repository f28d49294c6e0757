/-
Module: UCache.Core.Releases
Purpose: One call of `releaseRanges` with nothing else running and nothing failing: which pages it
  releases, what it leaves of the others, and what it returns.
Trusted boundary: none
Main exports: release, Covered, releaseRanges_exact_iff
-/
import UCache.Core.Alone
import Mathlib.Algebra.BigOperators.Group.Finset.Basic
import Mathlib.Algebra.BigOperators.Group.Finset.Piecewise

namespace UCache.Releases

open Lib FileEntry Alone

/-! ### The call -/

/-- `res` of one span: the bytes of the pages whose bit the loop finds set. -/
def residentPages : FileEntry → List Nat → Nat
  | _, [] => 0
  | e, i :: rest =>
      (if e.meta_.bitmap.get i then e.meta_.pageBytes i else 0) + residentPages (e.releasePage i) rest

/-- `resident`, one number a span. -/
def residents : FileEntry → List (Nat × Nat) → List Nat
  | _, [] => []
  | e, span :: rest =>
      residentPages e (List.range' span.1 (span.2 - span.1)) :: residents (e.releaseOne span) rest

/-- What a call leaves: the handle, the disk, the holes it punched and what it returns. -/
structure Released where
  e : FileEntry
  d : Disk
  holes : List (Nat × Nat)
  count : Nat

/-- [SRC FileEntry.cc:1214-1282] The bytes of a span count once its hole is punched. -/
def release (t : Timing) (e : FileEntry) (d : Disk) (ranges : List (Nat × Nat)) : Released :=
  let spans := (e.releaseSection ranges).2
  { e := (releaseRanges t ranges e d).1
    d := (releaseRanges t ranges e d).2
    holes := holesOf e.meta_ spans
    count := (residents e spans).sum }

/-! ### What is asked of it -/

/-- All bytes of page `i` are in one range of the list. -/
def Covered (m : MetaData) (ranges : List (Nat × Nat)) (i : Nat) : Prop :=
  ∃ r ∈ ranges, r.1 ≤ i * m.pageSize ∧ i * m.pageSize + m.pageBytes i ≤ r.1 + r.2

/-- Page `i` is absent, unstaged, and inside a hole of the call. -/
def Released.Page (r : Released) (m : MetaData) (i : Nat) : Prop :=
  r.e.meta_.bitmap.get i = false ∧ r.e.staged i = none ∧
    ∃ h ∈ r.holes, h.1 ≤ i * m.pageSize ∧ i * m.pageSize + m.pageBytes i ≤ h.1 + h.2

/-- Page `i` is as it was: its bit, its CRC, its staging and its bytes. -/
def Released.Kept (r : Released) (e : FileEntry) (d : Disk) (i : Nat) : Prop :=
  r.e.meta_.page i = e.meta_.page i ∧ r.e.buf i = e.buf i ∧ r.e.flushing i = e.flushing i ∧
    ∀ k < e.meta_.pageBytes i,
      r.d.data.byte (i * e.meta_.pageSize + k) = d.data.byte (i * e.meta_.pageSize + k)

open Classical in
/-- The covered pages are released, every other page is kept, and the count is that of the covered
pages that were present. -/
structure ReleasesExactly (t : Timing) (e : FileEntry) (d : Disk) (ranges : List (Nat × Nat)) :
    Prop where
  released : ∀ i < e.meta_.npages,
    ((release t e d ranges).Page e.meta_ i ↔ Covered e.meta_ ranges i)
  kept : ∀ i < e.meta_.npages, ¬ Covered e.meta_ ranges i → (release t e d ranges).Kept e d i
  count : (release t e d ranges).count =
    ∑ i ∈ Finset.range e.meta_.npages,
      if Covered e.meta_ ranges i ∧ e.meta_.bitmap.get i = true then e.meta_.pageBytes i else 0

/-! ### When it is so -/

/-- No range takes the whole of a last page that is short. -/
def SparesShortTail (m : MetaData) (ranges : List (Nat × Nat)) : Prop :=
  ∀ i < m.npages, m.pageBytes i < m.pageSize → ¬ Covered m ranges i

/-- The call commits: some page is covered, and the handle has something to store. -/
def Stores (e : FileEntry) (ranges : List (Nat × Nat)) : Prop :=
  (∃ j < e.meta_.npages, Covered e.meta_ ranges j) ∧
    (e.dirty = true ∨
      ∃ j < e.meta_.npages, Covered e.meta_ ranges j ∧ e.meta_.bitmap.get j = true)

/-- The sidecar on disk tells the handle nothing new, where the call commits over it: a covered page
is present in the handle or absent from the image, and another page is as the handle has it. -/
def SidecarKnown (e : FileEntry) (d : Disk) (ranges : List (Nat × Nat)) : Prop :=
  ∀ disk, mergeBase e d = some disk → Stores e ranges → ∀ i < e.meta_.npages,
    (Covered e.meta_ ranges i →
      e.meta_.bitmap.get i = true ∨ (committedPage e disk i).1 = false) ∧
    (¬ Covered e.meta_ ranges i → committedPage e disk i = e.meta_.page i)

/-! ### The locked section -/

variable {i : Nat}

/-- The pages of a set are dropped: unstaged, and retracted where they were present.  The rest of
the handle stays. -/
structure Dropped (S : Nat → Prop) (e e' : FileEntry) : Prop where
  hit : ∀ i, S i → e.meta_.bitmap.get i = true → e'.meta_.page i = (false, 0) ∧
    e'.clearedSince.get i = true ∧ e'.setSince.get i = false
  miss : ∀ i, (S i → e.meta_.bitmap.get i = false) → e'.meta_.page i = e.meta_.page i ∧
    e'.clearedSince.get i = e.clearedSince.get i ∧ e'.setSince.get i = e.setSince.get i
  unstaged : ∀ i, S i → e'.buf i = none
  staged : ∀ i, ¬ S i → e'.buf i = e.buf i
  flushing : e'.flushing = e.flushing
  busy : e'.flushInProgress = e.flushInProgress
  dirty : e'.dirty = true ↔ e.dirty = true ∨ ∃ i, S i ∧ e.meta_.bitmap.get i = true
  cfg : e'.cfg = e.cfg
  key : e'.key = e.key
  pageSize : e'.meta_.pageSize = e.meta_.pageSize
  validators : e'.meta_.validators = e.meta_.validators

namespace Dropped

variable {S T : Nat → Prop} {e e₁ e' : FileEntry}

theorem congr (h : Dropped S e e') (hST : ∀ i, S i ↔ T i) : Dropped T e e' := by
  obtain rfl : S = T := funext fun i => propext (hST i)
  exact h

theorem refl (e : FileEntry) : Dropped (fun _ => False) e e where
  hit _ h := h.elim
  miss _ _ := ⟨rfl, rfl, rfl⟩
  unstaged _ h := h.elim
  staged _ _ := rfl
  flushing := rfl
  busy := rfl
  dirty := by simp
  cfg := rfl
  key := rfl
  pageSize := rfl
  validators := rfl

/-- A page is absent after it was dropped. -/
theorem absent (h : Dropped S e e') (hi : S i) : e'.meta_.bitmap.get i = false := by
  cases hbit : e.meta_.bitmap.get i with
  | true => exact congrArg Prod.fst (h.hit i hi hbit).1
  | false => exact (congrArg Prod.fst (h.miss i fun _ => hbit).1).trans hbit

theorem bit_of_not (h : Dropped S e e') (hi : ¬ S i) :
    e'.meta_.bitmap.get i = e.meta_.bitmap.get i :=
  congrArg Prod.fst (h.miss i fun hs => absurd hs hi).1

theorem trans (h1 : Dropped S e e₁) (h2 : Dropped T e₁ e') : Dropped (fun i => S i ∨ T i) e e' where
  hit i hi hbit := by
    by_cases hS : S i
    · obtain ⟨hpage, hclear, hset⟩ := h1.hit i hS hbit
      obtain ⟨hpage', hclear', hset'⟩ := h2.miss i fun _ => h1.absent hS
      exact ⟨hpage'.trans hpage, hclear'.trans hclear, hset'.trans hset⟩
    · exact h2.hit i (hi.resolve_left hS) ((h1.bit_of_not hS).trans hbit)
  miss i hi := by
    obtain ⟨hpage, hclear, hset⟩ := h1.miss i fun hS => hi (.inl hS)
    obtain ⟨hpage', hclear', hset'⟩ := h2.miss i fun hT =>
      (congrArg Prod.fst hpage).trans (hi (.inr hT))
    exact ⟨hpage'.trans hpage, hclear'.trans hclear, hset'.trans hset⟩
  unstaged i hi := by
    by_cases hT : T i
    · exact h2.unstaged i hT
    · exact (h2.staged i hT).trans (h1.unstaged i (hi.resolve_right hT))
  staged i hi := (h2.staged i fun hT => hi (.inr hT)).trans (h1.staged i fun hS => hi (.inl hS))
  flushing := h2.flushing.trans h1.flushing
  busy := h2.busy.trans h1.busy
  dirty := by
    rw [h2.dirty, h1.dirty]
    constructor
    · rintro ((hd | ⟨i, hS, hbit⟩) | ⟨i, hT, hbit⟩)
      · exact .inl hd
      · exact .inr ⟨i, .inl hS, hbit⟩
      · refine .inr ⟨i, .inr hT, ?_⟩
        by_cases hS : S i
        · rw [h1.absent hS] at hbit
          cases hbit
        · exact (h1.bit_of_not hS).symm.trans hbit
    · rintro (hd | ⟨i, hi, hbit⟩)
      · exact .inl (.inl hd)
      · by_cases hS : S i
        · exact .inl (.inr ⟨i, hS, hbit⟩)
        · exact .inr ⟨i, hi.resolve_left hS, (h1.bit_of_not hS).trans hbit⟩
  cfg := h2.cfg.trans h1.cfg
  key := h2.key.trans h1.key
  pageSize := h2.pageSize.trans h1.pageSize
  validators := h2.validators.trans h1.validators

theorem npages (h : Dropped S e e') : e'.meta_.npages = e.meta_.npages := by
  have hfile : e'.meta_.fileSize = e.meta_.fileSize := congrArg Validators.originSize h.validators
  simp [MetaData.npages, h.pageSize, hfile]

theorem pageBytes (h : Dropped S e e') (i : Nat) :
    e'.meta_.pageBytes i = e.meta_.pageBytes i := by
  have hfile : e'.meta_.fileSize = e.meta_.fileSize := congrArg Validators.originSize h.validators
  simp [MetaData.pageBytes, h.pageSize, hfile]

end Dropped

/-- Only the stage and its counters move when a page is dropped from it. -/
theorem dropStaged_eq (e : FileEntry) (i : Nat) :
    ∃ bufBytes specBytes, e.dropStaged i = { e with
      buf := Function.update e.buf i none
      bufBytes := bufBytes
      specBytes := specBytes } := by
  unfold dropStaged
  cases hbuf : e.buf i with
  | none =>
      have hsame : Function.update e.buf i none = e.buf := by
        rw [← hbuf, Function.update_eq_self]
      exact ⟨e.bufBytes, e.specBytes, by rw [hsame]⟩
  | some p =>
      cases hspec : p.spec with
      | true => exact ⟨e.bufBytes, e.specBytes - e.meta_.pageBytes i, by simp [hspec]⟩
      | false => exact ⟨e.bufBytes - e.meta_.pageBytes i, e.specBytes, by simp [hspec]⟩

theorem dropped_releasePage (e : FileEntry) (i : Nat) : Dropped (· = i) e (e.releasePage i) := by
  obtain ⟨bufBytes, specBytes, hdrop⟩ := dropStaged_eq e i
  unfold releasePage
  rw [hdrop]
  cases hbit : e.meta_.bitmap.get i with
  | true =>
      simp only [if_true]
      exact
        { hit := by
            rintro j rfl -
            simp [retractPage, MetaData.page]
          miss := by
            intro j hj
            have hne : j ≠ i := by
              rintro rfl
              simp [hbit] at hj
            simp [retractPage, MetaData.page, hne]
          unstaged := by
            rintro j rfl
            simp [retractPage]
          staged := by
            intro j hj
            exact Function.update_of_ne hj none e.buf
          flushing := rfl
          busy := rfl
          dirty := by simp [hbit]
          cfg := rfl
          key := rfl
          pageSize := rfl
          validators := rfl }
  | false =>
      simp only [Bool.false_eq_true, if_false]
      exact
        { hit := by
            rintro j rfl hj
            simp [hbit] at hj
          miss := fun _ _ => ⟨rfl, rfl, rfl⟩
          unstaged := by
            rintro j rfl
            simp
          staged := by
            intro j hj
            exact Function.update_of_ne hj none e.buf
          flushing := rfl
          busy := rfl
          dirty := by simp [hbit]
          cfg := rfl
          key := rfl
          pageSize := rfl
          validators := rfl }

theorem dropped_releasePages (pages : List Nat) (e : FileEntry) :
    Dropped (· ∈ pages) e (pages.foldl releasePage e) := by
  induction pages generalizing e with
  | nil => exact (Dropped.refl e).congr (by simp)
  | cons i pages ih =>
      exact ((dropped_releasePage e i).trans (ih _)).congr (by simp)

theorem dropped_releaseOne (e : FileEntry) (span : Nat × Nat) :
    Dropped (InSpan span) e (e.releaseOne span) := by
  have h := dropped_releasePages (List.range' span.1 (span.2 - span.1)) e
  have hin (i : Nat) : i ∈ List.range' span.1 (span.2 - span.1) ↔ InSpan span i := by
    rw [List.mem_range'_1, InSpan]
    omega
  have h := h.congr hin
  exact ⟨h.hit, h.miss, h.unstaged, h.staged, h.flushing, h.busy, h.dirty, h.cfg, h.key, h.pageSize,
    h.validators⟩

/-- The pages of the spans of a call. -/
def Inside (m : MetaData) (ranges : List (Nat × Nat)) (i : Nat) : Prop :=
  ∃ span ∈ ranges.filterMap (releaseSpan m), InSpan span i

theorem dropped_releaseSpans (spans : List (Nat × Nat)) (e : FileEntry) :
    Dropped (fun i => ∃ span ∈ spans, InSpan span i) e (spans.foldl releaseOne e) := by
  induction spans generalizing e with
  | nil => exact (Dropped.refl e).congr (by simp)
  | cons span spans ih =>
      exact ((dropped_releaseOne e span).trans (ih _)).congr (by simp)

theorem dropped_releaseSection (e : FileEntry) (ranges : List (Nat × Nat)) :
    Dropped (Inside e.meta_ ranges) e (e.releaseSection ranges).1 :=
  dropped_releaseSpans _ e

/-! ### What the call counts -/

/-- The bytes of the present pages below `n`. -/
def presentBytes (n : Nat) (e : FileEntry) : Nat :=
  ∑ i ∈ Finset.range n, if e.meta_.bitmap.get i = true then e.meta_.pageBytes i else 0

theorem resident_releasePage {n : Nat} (hi : i < n) (e : FileEntry) :
    (if e.meta_.bitmap.get i = true then e.meta_.pageBytes i else 0) +
      presentBytes n (e.releasePage i) = presentBytes n e := by
  have hdrop := dropped_releasePage e i
  have hmem : i ∈ Finset.range n := Finset.mem_range.2 hi
  unfold presentBytes
  rw [← Finset.add_sum_erase _ _ hmem, ← Finset.add_sum_erase _ _ hmem, hdrop.absent rfl]
  simp only [Bool.false_eq_true, if_false, Nat.zero_add, Nat.add_left_cancel_iff]
  refine Finset.sum_congr rfl fun j hj => ?_
  rw [hdrop.bit_of_not (Finset.ne_of_mem_erase hj), hdrop.pageBytes]

theorem resident_releasePages {n : Nat} (pages : List Nat) (hpages : ∀ i ∈ pages, i < n)
    (e : FileEntry) :
    residentPages e pages + presentBytes n (pages.foldl releasePage e) = presentBytes n e := by
  induction pages generalizing e with
  | nil => simp [residentPages]
  | cons i pages ih =>
      have hhead := resident_releasePage (hpages i (by simp)) e
      have htail := ih (fun j hj => hpages j (by simp [hj])) (e.releasePage i)
      simp only [residentPages, List.foldl_cons]
      omega

theorem residents_releaseSpans {n : Nat} (spans : List (Nat × Nat))
    (hspans : ∀ span ∈ spans, ∀ i, InSpan span i → i < n) (e : FileEntry) :
    (residents e spans).sum + presentBytes n (spans.foldl releaseOne e) = presentBytes n e := by
  induction spans generalizing e with
  | nil => simp [residents]
  | cons span spans ih =>
      have hin (i : Nat) (hi : i ∈ List.range' span.1 (span.2 - span.1)) : i < n := by
        refine hspans span (by simp) i ?_
        rw [List.mem_range'_1] at hi
        unfold InSpan
        omega
      have hhead := resident_releasePages _ hin e
      have htail := ih (fun s hs => hspans s (by simp [hs])) (e.releaseOne span)
      have hsame : presentBytes n (e.releaseOne span) =
          presentBytes n ((List.range' span.1 (span.2 - span.1)).foldl releasePage e) := rfl
      simp only [residents, List.sum_cons, List.foldl_cons]
      omega

/-! ### Spans, holes and covered pages -/

variable {m : MetaData}

theorem pageBytes_pos (hi : i < m.npages) : 0 < m.pageBytes i := by
  have hstart := MetaData.start_lt hi
  have hp := MetaData.pageSize_pos_of_lt hi
  unfold MetaData.pageBytes
  omega

/-- A page that ends inside the file with all its bytes is a full one. -/
theorem pageBytes_of_end_le (h : i * m.pageSize + m.pageSize ≤ m.fileSize) :
    m.pageBytes i = m.pageSize := by
  unfold MetaData.pageBytes
  omega

/-- The pages of a span are those that lie in its range with all the bytes of a full page. -/
theorem inSpan_iff {r span : Nat × Nat} (hp : 0 < m.pageSize)
    (hspan : releaseSpan m r = some span) :
    InSpan span i ↔ r.1 ≤ i * m.pageSize ∧ i * m.pageSize + m.pageSize ≤ r.1 + r.2 := by
  simp only [releaseSpan, Option.ite_none_left_eq_some, Option.some.injEq] at hspan
  obtain ⟨-, rfl⟩ := hspan
  have hlow : (r.1 + m.pageSize - 1) / m.pageSize ≤ i ↔ r.1 ≤ i * m.pageSize := by
    rw [Nat.div_le_iff_le_mul_add_pred hp, Nat.mul_comm m.pageSize i]
    omega
  have hhigh : i < (r.1 + r.2) / m.pageSize ↔ i * m.pageSize + m.pageSize ≤ r.1 + r.2 := by
    rw [Nat.lt_iff_add_one_le, Nat.le_div_iff_mul_le hp, Nat.add_mul, Nat.one_mul]
  exact and_congr hlow hhigh

/-- Pages of the spans, by their ranges. -/
theorem inside_iff {ranges : List (Nat × Nat)} (hp : 0 < m.pageSize)
    (hin : ∀ r ∈ ranges, r.1 + r.2 ≤ m.fileSize) :
    Inside m ranges i ↔
      ∃ r ∈ ranges, r.1 ≤ i * m.pageSize ∧ i * m.pageSize + m.pageSize ≤ r.1 + r.2 := by
  constructor
  · rintro ⟨span, hspan, hi⟩
    obtain ⟨r, hr, hspan⟩ := List.mem_filterMap.1 hspan
    exact ⟨r, hr, (inSpan_iff hp hspan).1 hi⟩
  · rintro ⟨r, hr, hlow, hhigh⟩
    -- A range with a whole page inside it has a span.
    have hspan : releaseSpan m r =
        some ((r.1 + m.pageSize - 1) / m.pageSize, (r.1 + r.2) / m.pageSize) := by
      have hfirst : (r.1 + m.pageSize - 1) / m.pageSize ≤ i := by
        rw [Nat.div_le_iff_le_mul_add_pred hp, Nat.mul_comm m.pageSize i]
        omega
      have hlast : i < (r.1 + r.2) / m.pageSize := by
        rw [Nat.lt_iff_add_one_le, Nat.le_div_iff_mul_le hp, Nat.add_mul, Nat.one_mul]
        exact hhigh
      have hfile := hin r hr
      have hlen : r.2 ≠ 0 := by omega
      simp only [releaseSpan, Option.ite_none_left_eq_some, and_true]
      omega
    exact ⟨_, List.mem_filterMap.2 ⟨r, hr, hspan⟩, (inSpan_iff hp hspan).2 ⟨hlow, hhigh⟩⟩

theorem Inside.end_le {ranges : List (Nat × Nat)} (hp : 0 < m.pageSize)
    (hin : ∀ r ∈ ranges, r.1 + r.2 ≤ m.fileSize) (h : Inside m ranges i) :
    i * m.pageSize + m.pageSize ≤ m.fileSize := by
  obtain ⟨r, hr, -, hhigh⟩ := (inside_iff hp hin).1 h
  exact hhigh.trans (hin r hr)

theorem Inside.lt_npages {ranges : List (Nat × Nat)} (hp : 0 < m.pageSize)
    (hin : ∀ r ∈ ranges, r.1 + r.2 ≤ m.fileSize) (h : Inside m ranges i) : i < m.npages := by
  have := h.end_le hp hin
  exact MetaData.lt_npages hp (by omega)

theorem Inside.covered {ranges : List (Nat × Nat)} (hp : 0 < m.pageSize)
    (hin : ∀ r ∈ ranges, r.1 + r.2 ≤ m.fileSize) (h : Inside m ranges i) : Covered m ranges i := by
  obtain ⟨r, hr, hlow, hhigh⟩ := (inside_iff hp hin).1 h
  have := m.pageBytes_le i
  exact ⟨r, hr, hlow, by omega⟩

/-- With the short last page spared, the covered pages are those of the spans. -/
theorem SparesShortTail.inside_iff {ranges : List (Nat × Nat)} (h : SparesShortTail m ranges)
    (hin : ∀ r ∈ ranges, r.1 + r.2 ≤ m.fileSize) (hi : i < m.npages) :
    Inside m ranges i ↔ Covered m ranges i := by
  have hp := MetaData.pageSize_pos_of_lt hi
  refine ⟨Inside.covered hp hin, fun hcov => (Releases.inside_iff hp hin).2 ?_⟩
  have hfull : m.pageBytes i = m.pageSize :=
    Nat.le_antisymm (m.pageBytes_le i) (Nat.le_of_not_lt fun hshort => h i hi hshort hcov)
  obtain ⟨r, hr, hlow, hhigh⟩ := hcov
  exact ⟨r, hr, hlow, hfull ▸ hhigh⟩

/-- The holes end where their spans do. -/
theorem mem_holesOf {ranges : List (Nat × Nat)} {h : Nat × Nat} :
    h ∈ holesOf m (ranges.filterMap (releaseSpan m)) ↔
      ∃ span ∈ ranges.filterMap (releaseSpan m), h.1 = span.1 * m.pageSize ∧
        h.1 + h.2 = span.2 * m.pageSize := by
  have hend (span : Nat × Nat) (hspan : span ∈ ranges.filterMap (releaseSpan m)) :
      span.1 * m.pageSize + (span.2 - span.1) * m.pageSize = span.2 * m.pageSize := by
    obtain ⟨r, -, hspan⟩ := List.mem_filterMap.1 hspan
    simp only [releaseSpan, Option.ite_none_left_eq_some, Option.some.injEq] at hspan
    obtain ⟨hgood, rfl⟩ := hspan
    rw [← Nat.add_mul, Nat.add_sub_cancel' (by omega)]
  simp only [holesOf, List.mem_map]
  constructor
  · rintro ⟨span, hspan, rfl⟩
    exact ⟨span, hspan, rfl, hend span hspan⟩
  · rintro ⟨span, hspan, hstart, hstop⟩
    refine ⟨span, hspan, Prod.ext hstart.symm ?_⟩
    have := hend span hspan
    simp only
    omega

/-- A byte of a page in a hole makes it a page of the spans. -/
theorem inside_of_byte {ranges : List (Nat × Nat)} {k : Nat} {h : Nat × Nat}
    (hh : h ∈ holesOf m (ranges.filterMap (releaseSpan m))) (hk : k < m.pageSize)
    (hlow : h.1 ≤ i * m.pageSize + k) (hhigh : i * m.pageSize + k < h.1 + h.2) :
    Inside m ranges i := by
  obtain ⟨span, hspan, hstart, hstop⟩ := mem_holesOf.1 hh
  refine ⟨span, hspan, ?_, ?_⟩
  · have : span.1 * m.pageSize < (i + 1) * m.pageSize := by
      rw [Nat.add_mul, Nat.one_mul]
      omega
    exact Nat.lt_succ_iff.1 (Nat.lt_of_mul_lt_mul_right this)
  · have : i * m.pageSize < span.2 * m.pageSize := by omega
    exact Nat.lt_of_mul_lt_mul_right this

/-- A page of the file lies in a hole when it is a page of the spans. -/
theorem inHole_iff {ranges : List (Nat × Nat)} (hi : i < m.npages) :
    (∃ h ∈ holesOf m (ranges.filterMap (releaseSpan m)),
      h.1 ≤ i * m.pageSize ∧ i * m.pageSize + m.pageBytes i ≤ h.1 + h.2) ↔ Inside m ranges i := by
  have hp := MetaData.pageSize_pos_of_lt hi
  have hpos := pageBytes_pos hi
  constructor
  · rintro ⟨h, hh, hlow, hhigh⟩
    exact inside_of_byte (k := 0) hh hp hlow (by omega)
  · rintro ⟨span, hspan, hlow, hhigh⟩
    obtain ⟨h, hh, hstart, hstop⟩ : ∃ h ∈ holesOf m (ranges.filterMap (releaseSpan m)),
        h.1 = span.1 * m.pageSize ∧ h.1 + h.2 = span.2 * m.pageSize :=
      ⟨_, List.mem_map.2 ⟨span, hspan, rfl⟩, rfl, by
        rw [← Nat.add_mul, Nat.add_sub_cancel' (by omega)]⟩
    have hfirst : span.1 * m.pageSize ≤ i * m.pageSize := Nat.mul_le_mul_right _ hlow
    have hlast : (i + 1) * m.pageSize ≤ span.2 * m.pageSize := Nat.mul_le_mul_right _ hhigh
    have := m.pageBytes_le i
    rw [Nat.add_mul, Nat.one_mul] at hlast
    exact ⟨h, hh, by omega, by omega⟩

theorem byte_punchAll {holes : List (Nat × Nat)} {k : Nat} (data : DataFile)
    (h : ∀ hole ∈ holes, ¬ (hole.1 ≤ k ∧ k < hole.1 + hole.2)) :
    (punchAll data holes).byte k = data.byte k := by
  induction holes generalizing data with
  | nil => rfl
  | cons hole holes ih =>
      refine (ih _ fun g hg => h g (by simp [hg])).trans ?_
      exact if_neg (h hole (by simp))

/-! ### What the call leaves of a page -/

variable {t : Timing} {e : FileEntry} {d : Disk} {ranges : List (Nat × Nat)}

/-- The state between the locked section and the holes. -/
def afterCommit (t : Timing) (e : FileEntry) (d : Disk) (ranges : List (Nat × Nat)) :
    FileEntry × Disk :=
  if (e.releaseSection ranges).2.isEmpty then ((e.releaseSection ranges).1, d)
  else flushMeta true t (e.releaseSection ranges).1 d

theorem flushMeta_same (force : Bool) (t : Timing) (e : FileEntry) (d : Disk) :
    SameStage e (flushMeta force t e d).1 ∧ (flushMeta force t e d).2.data = d.data := by
  cases hskip : (!e.dirty || (!force && !t.metaDue)) with
  | true =>
      rw [flushMeta_skip d hskip]
      exact ⟨.refl e, rfl⟩
  | false =>
      have h := committed_flushMeta (d := d) hskip
      exact ⟨h.stage, h.data⟩

theorem afterCommit_same : SameStage (e.releaseSection ranges).1 (afterCommit t e d ranges).1 ∧
    (afterCommit t e d ranges).2.data = d.data := by
  unfold afterCommit
  split
  · exact ⟨.refl _, rfl⟩
  · exact flushMeta_same _ _ _ _

theorem release_e : (release t e d ranges).e = (afterCommit t e d ranges).1 := by
  simp only [release, releaseRanges, afterCommit]
  split <;> rfl

theorem release_data : (release t e d ranges).d.data =
    punchAll d.data (holesOf e.meta_ (ranges.filterMap (releaseSpan e.meta_))) := by
  have hdrop := dropped_releaseSection e ranges
  obtain ⟨hsame, hdata⟩ := @afterCommit_same t e d ranges
  have hsize := hsame.pageSize.trans hdrop.pageSize
  simp only [release, releaseRanges]
  split
  · rename_i hnone
    have : ranges.filterMap (releaseSpan e.meta_) = [] := List.isEmpty_iff.1 hnone
    simp [this, holesOf, punchAll]
  · rename_i hsome
    simp only [afterCommit, if_neg hsome] at hdata hsize
    simp only [hdata, holesOf, hsize]
    rfl

theorem Dropped.committed_hit {S : Nat → Prop} {e' : FileEntry} (h : Dropped S e e') (disk : MetaData)
    (hi : S i) (hbit : e.meta_.bitmap.get i = true) : committedPage e' disk i = (false, 0) := by
  rw [committedPage, if_pos (h.hit i hi hbit).2.1]

theorem Dropped.committed_miss {S : Nat → Prop} {e' : FileEntry} (h : Dropped S e e')
    (disk : MetaData) (hi : S i → e.meta_.bitmap.get i = false) :
    committedPage e' disk i = committedPage e disk i := by
  obtain ⟨hpage, hclear, hset⟩ := h.miss i hi
  have hcrc : e'.meta_.pageCrcs i = e.meta_.pageCrcs i := congrArg Prod.snd hpage
  rw [committedPage, committedPage, hclear, hset, hcrc]

/-- The image the call commits over, when it commits over one. -/
def usedBase (e : FileEntry) (d : Disk) (ranges : List (Nat × Nat)) : Option MetaData :=
  if (e.releaseSection ranges).2 ≠ [] ∧ (e.releaseSection ranges).1.dirty = true then mergeBase e d
  else none

/-- After the commit a page is what the locked section made of it, put over the image. -/
theorem page_afterCommit (hi : i < e.meta_.npages) :
    (afterCommit t e d ranges).1.meta_.page i =
      ((usedBase e d ranges).map fun disk => committedPage (e.releaseSection ranges).1 disk i).getD
        ((e.releaseSection ranges).1.meta_.page i) := by
  have hdrop := dropped_releaseSection e ranges
  unfold afterCommit usedBase
  by_cases hnone : (e.releaseSection ranges).2 = []
  · simp [hnone]
  rw [if_neg (by simpa using hnone)]
  cases hdirty : (e.releaseSection ranges).1.dirty with
  | false =>
      rw [flushMeta_skip d (by simp [hdirty])]
      simp
  | true =>
      have hcommit := @committed_flushMeta true t (e.releaseSection ranges).1 d
        (by simp [hdirty])
      rw [hcommit.page i (hdrop.npages.symm ▸ hi), if_pos ⟨hnone, rfl⟩,
        mergeBase_congr hdrop.cfg hdrop.key hdrop.pageSize hdrop.validators rfl rfl]

theorem page_hit (hi : i < e.meta_.npages) (hin : Inside e.meta_ ranges i)
    (hbit : e.meta_.bitmap.get i = true) :
    (afterCommit t e d ranges).1.meta_.page i = (false, 0) := by
  have hdrop := dropped_releaseSection e ranges
  rw [page_afterCommit hi, (hdrop.hit i hin hbit).1]
  cases usedBase e d ranges with
  | none => rfl
  | some disk => exact hdrop.committed_hit disk hin hbit

theorem page_miss {i : Nat} (hi : i < e.meta_.npages)
    (hmiss : Inside e.meta_ ranges i → e.meta_.bitmap.get i = false) :
    (afterCommit t e d ranges).1.meta_.page i =
      ((usedBase e d ranges).map fun disk => committedPage e disk i).getD (e.meta_.page i) := by
  have hdrop := dropped_releaseSection e ranges
  rw [page_afterCommit hi, (hdrop.miss i hmiss).1]
  cases usedBase e d ranges with
  | none => rfl
  | some disk => exact hdrop.committed_miss disk hmiss

/-- There is a span when a page is inside one. -/
theorem spans_ne_nil_iff : ranges.filterMap (releaseSpan m) ≠ [] ↔ ∃ i, Inside m ranges i := by
  constructor
  · intro hne
    obtain ⟨span, hspan⟩ := List.exists_mem_of_ne_nil _ hne
    obtain ⟨r, -, hr⟩ := List.mem_filterMap.1 hspan
    simp only [releaseSpan, Option.ite_none_left_eq_some, Option.some.injEq] at hr
    obtain ⟨hgood, rfl⟩ := hr
    exact ⟨_, _, hspan, Nat.le_refl _, by simp only; omega⟩
  · rintro ⟨i, span, hspan, -⟩ hnil
    rw [hnil] at hspan
    cases hspan

/-- A page inside a span makes the page size positive. -/
theorem Inside.pageSize_pos (h : Inside m ranges i) : 0 < m.pageSize := by
  obtain ⟨span, hspan, -⟩ := h
  obtain ⟨r, -, hr⟩ := List.mem_filterMap.1 hspan
  rcases Nat.eq_zero_or_pos m.pageSize with hzero | hpos
  · simp [releaseSpan, hzero] at hr
  · exact hpos

/-- With the short last page spared, the call commits when some page is covered and the handle has
something to store. -/
theorem usedBase_eq (hin : ∀ r ∈ ranges, r.1 + r.2 ≤ e.meta_.fileSize)
    (hspare : SparesShortTail e.meta_ ranges) (disk : MetaData) :
    usedBase e d ranges = some disk ↔ Stores e ranges ∧ mergeBase e d = some disk := by
  have hdrop := dropped_releaseSection e ranges
  have hcov (P : Nat → Prop) : (∃ i, Inside e.meta_ ranges i ∧ P i) ↔
      ∃ j < e.meta_.npages, Covered e.meta_ ranges j ∧ P j := by
    constructor
    · rintro ⟨i, hi, hP⟩
      have hlt := hi.lt_npages hi.pageSize_pos hin
      exact ⟨i, hlt, (hspare.inside_iff hin hlt).1 hi, hP⟩
    · rintro ⟨i, hlt, hi, hP⟩
      exact ⟨i, (hspare.inside_iff hin hlt).2 hi, hP⟩
  have hany := hcov fun _ => True
  simp only [and_true] at hany
  have hspans : (e.releaseSection ranges).2 ≠ [] ↔
      ∃ j < e.meta_.npages, Covered e.meta_ ranges j := spans_ne_nil_iff.trans hany
  have hstores : (e.releaseSection ranges).2 ≠ [] ∧ (e.releaseSection ranges).1.dirty = true ↔
      Stores e ranges := by
    rw [hdrop.dirty, hcov]
    exact and_congr_left' hspans
  rw [usedBase, Option.ite_none_right_eq_some]
  exact and_congr_left' hstores

/-! ### The result -/

/-- The bytes of a page outside every span stay. -/
theorem byte_kept {k : Nat} (hout : ¬ Inside e.meta_ ranges i) (hk : k < e.meta_.pageBytes i) :
    (release t e d ranges).d.data.byte (i * e.meta_.pageSize + k) =
      d.data.byte (i * e.meta_.pageSize + k) := by
  rw [release_data]
  refine byte_punchAll _ fun hole hh hin => hout ?_
  exact inside_of_byte hh (Nat.lt_of_lt_of_le hk (e.meta_.pageBytes_le i)) hin.1 hin.2

/-- With nothing being written, a page is released when it is in a span and its bit is gone. -/
theorem released_iff (hi : i < e.meta_.npages) (hidle : ∀ j, e.flushing j = none) :
    (release t e d ranges).Page e.meta_ i ↔
      Inside e.meta_ ranges i ∧ ((afterCommit t e d ranges).1.meta_.page i).1 = false := by
  have hdrop := dropped_releaseSection e ranges
  have hsame := (@afterCommit_same t e d ranges).1
  unfold Released.Page
  rw [release_e]
  constructor
  · rintro ⟨hbit, -, hhole⟩
    exact ⟨(inHole_iff hi).1 hhole, hbit⟩
  · rintro ⟨hin, hbit⟩
    refine ⟨hbit, ?_, (inHole_iff hi).2 hin⟩
    simp [staged, hsame.buf, hsame.flushing, hdrop.unstaged i hin, hdrop.flushing, hidle]

/-- A page outside every span is kept when its metadata is. -/
theorem kept_iff (hout : ¬ Inside e.meta_ ranges i) :
    (release t e d ranges).Kept e d i ↔
      (afterCommit t e d ranges).1.meta_.page i = e.meta_.page i := by
  have hdrop := dropped_releaseSection e ranges
  have hsame := (@afterCommit_same t e d ranges).1
  unfold Released.Kept
  rw [release_e]
  refine ⟨fun h => h.1, fun hpage => ⟨hpage, ?_, ?_, fun k hk => byte_kept hout hk⟩⟩
  · rw [hsame.buf, hdrop.staged i hout]
  · rw [hsame.flushing, hdrop.flushing]

open Classical in
/-- The count is the size of the pages of the spans that were present. -/
theorem count_eq (hin : ∀ r ∈ ranges, r.1 + r.2 ≤ e.meta_.fileSize) :
    (release t e d ranges).count = ∑ i ∈ Finset.range e.meta_.npages,
      if Inside e.meta_ ranges i ∧ e.meta_.bitmap.get i = true then e.meta_.pageBytes i else 0 := by
  have hdrop := dropped_releaseSection e ranges
  have hspans : ∀ span ∈ ranges.filterMap (releaseSpan e.meta_), ∀ i, InSpan span i →
      i < e.meta_.npages := by
    intro span hspan i hi
    have hinside : Inside e.meta_ ranges i := ⟨span, hspan, hi⟩
    exact hinside.lt_npages hinside.pageSize_pos hin
  have htotal := residents_releaseSpans _ hspans e
  have hsplit : presentBytes e.meta_.npages e =
      (∑ i ∈ Finset.range e.meta_.npages,
        if Inside e.meta_ ranges i ∧ e.meta_.bitmap.get i = true then e.meta_.pageBytes i else 0) +
        presentBytes e.meta_.npages (e.releaseSection ranges).1 := by
    unfold presentBytes
    rw [← Finset.sum_add_distrib]
    refine Finset.sum_congr rfl fun i _ => ?_
    by_cases hi : Inside e.meta_ ranges i
    · simp [hi, hdrop.absent hi]
    · simp [hi, hdrop.bit_of_not hi, hdrop.pageBytes]
  exact Nat.add_right_cancel (htotal.trans hsplit)

/-- A call releases exactly the fully covered pages when no range takes the whole of a short last
page and the sidecar it commits over tells it nothing new. -/
theorem releaseRanges_exact_iff (t : Timing) (e : FileEntry) (d : Disk) (ranges : List (Nat × Nat))
    (hin : ∀ r ∈ ranges, r.1 + r.2 ≤ e.meta_.fileSize) (hidle : ∀ i, e.flushing i = none) :
    ReleasesExactly t e d ranges ↔
      SparesShortTail e.meta_ ranges ∧ SidecarKnown e d ranges := by
  constructor
  · intro h
    have hspare : SparesShortTail e.meta_ ranges := by
      intro i hi hshort hcov
      have hinside := ((released_iff hi hidle).1 ((h.released i hi).2 hcov)).1
      have hfull := pageBytes_of_end_le (hinside.end_le (MetaData.pageSize_pos_of_lt hi) hin)
      omega
    refine ⟨hspare, fun disk hbase hstores i hi => ?_⟩
    have hused := (usedBase_eq (d := d) hin hspare disk).2 ⟨hstores, hbase⟩
    have hpage := @page_miss t e d ranges i hi
    simp only [hused, Option.map_some, Option.getD_some] at hpage
    constructor
    · intro hcov
      have hrel := ((released_iff hi hidle).1 ((h.released i hi).2 hcov)).2
      cases hbit : e.meta_.bitmap.get i with
      | true => exact .inl rfl
      | false => exact .inr ((congrArg Prod.fst (hpage fun _ => hbit)).symm.trans hrel)
    · intro hcov
      have hout : ¬ Inside e.meta_ ranges i := fun hi' => hcov ((hspare.inside_iff hin hi).1 hi')
      have hkept := (kept_iff hout).1 (h.kept i hi hcov)
      exact (hpage fun hi' => absurd hi' hout).symm.trans hkept
  · rintro ⟨hspare, hknown⟩
    have hside (i : Nat) (hi : i < e.meta_.npages) := hspare.inside_iff hin hi
    refine ⟨fun i hi => ?_, fun i hi hcov => ?_, ?_⟩
    · rw [released_iff hi hidle, hside i hi, and_iff_left_iff_imp]
      intro hcov
      cases hbit : e.meta_.bitmap.get i with
      | true => rw [page_hit hi ((hside i hi).2 hcov) hbit]
      | false =>
          rw [page_miss hi fun _ => hbit]
          cases hused : usedBase e d ranges with
          | none => exact hbit
          | some disk =>
              obtain ⟨hstores, hbase⟩ := (usedBase_eq hin hspare disk).1 hused
              have := (hknown disk hbase hstores i hi).1 hcov
              simpa [hbit] using this
    · have hout : ¬ Inside e.meta_ ranges i := fun hi' => hcov ((hside i hi).1 hi')
      rw [kept_iff hout, page_miss hi fun hi' => absurd hi' hout]
      cases hused : usedBase e d ranges with
      | none => rfl
      | some disk =>
          obtain ⟨hstores, hbase⟩ := (usedBase_eq hin hspare disk).1 hused
          exact (hknown disk hbase hstores i hi).2 hcov
    · rw [count_eq hin]
      refine Finset.sum_congr rfl fun i hi => ?_
      rw [hside i (Finset.mem_range.1 hi)]

/-- A file of two pages and 808 bytes, its second and its last page present, no sidecar. -/
def shortTail : FileEntry :=
  ofMeta {} [] { MetaData.fresh [] 9000 4096 0 with bitmap := ((PageBitmap.reset 3).set 1).set 2 } false

def shortTailDisk : Disk := { sidecar := none, data := DataFile.truncate 9000 }

/-- The range of the two full pages releases just these. -/
theorem release_full_pages : ReleasesExactly {} shortTail shortTailDisk [(0, 8192)] := by
  refine (releaseRanges_exact_iff {} shortTail shortTailDisk [(0, 8192)] (by decide)
    fun _ => rfl).2 ⟨?_, ?_⟩
  · unfold SparesShortTail Covered
    decide
  · intro disk hbase
    cases hbase

/-- The range of all bytes of the last page, up to the end of the file, releases nothing. -/
theorem release_short_tail : (∀ r ∈ [(8192, 808)], r.1 + r.2 ≤ shortTail.meta_.fileSize) ∧
    (∀ i, shortTail.flushing i = none) ∧
    ¬ ReleasesExactly {} shortTail shortTailDisk [(8192, 808)] := by
  refine ⟨by decide, fun _ => rfl, fun h => ?_⟩
  have hcov : Covered shortTail.meta_ [(8192, 808)] 2 := ⟨(8192, 808), by decide, by decide⟩
  obtain ⟨-, -, hole, hmem, -⟩ := (h.released 2 (by decide)).2 hcov
  have hnone : (release {} shortTail shortTailDisk [(8192, 808)]).holes = [] := by decide
  rw [hnone] at hmem
  cases hmem

end UCache.Releases
