/-
Module: UCache.Core.PresenceFlags
Purpose: What a sidecar value says of its pages in three ways: the running popcount, the bytes
  reported as cached and the complete flag.  Every section of a handle keeps the three in
  agreement.
Trusted boundary: none
Main exports: MetaData.cachedBytes, MetaData.Consistent,
  Consistent.cachedBytes_eq
-/
import UCache.Core.PageBits
import UCache.Core.Stage

namespace UCache

open Lib

/-! ### The bytes that are cached -/

namespace MetaData

/-- [SRC MetaFile.cc:32-42] In 64 bits, as `uint64_t`. -/
def cachedBytes (m : MetaData) : Nat :=
  let n := m.bitmap.count
  if n = 0 then 0
  else
    let bytes := n * m.pageSize % 2 ^ 64
    -- Tail page counts only its real bytes.
    let last := m.npages - 1
    if m.bitmap.get last then sub64 bytes (m.pageSize - m.pageBytes last) else bytes

/-- The bytes of the present pages. -/
def presentBytes (m : MetaData) : Nat :=
  (((List.range m.npages).filter m.bitmap.get).map m.pageBytes).sum

/-- A sidecar value whose count, cached bytes and complete flag say the same.  The size of a file
is an `off_t`. -/
structure Consistent (m : MetaData) : Prop where
  pageSize : Config.validPageSize m.pageSize = true
  fileSize : m.fileSize < 2 ^ 63
  bitmap : m.bitmap.Counted m.npages
  crcs : m.ncrcs = m.npages
  complete : m.complete = true ↔ 0 < m.npages ∧ ∀ i < m.npages, m.bitmap.get i = true

/-- Full pages of the first `k`. -/
theorem sum_fullPages {m : MetaData} {k : Nat} (hfull : ∀ i < k, m.pageBytes i = m.pageSize) :
    (((List.range k).filter m.bitmap.get).map m.pageBytes).sum =
      (List.range k).countP m.bitmap.get * m.pageSize := by
  have hconst : ((List.range k).filter m.bitmap.get).map m.pageBytes =
      ((List.range k).filter m.bitmap.get).map fun _ => m.pageSize := by
    apply List.map_congr_left
    intro i hi
    exact hfull i (List.mem_range.1 (List.mem_filter.1 hi).1)
  rw [hconst, List.map_const', List.sum_replicate_nat, List.countP_eq_length_filter]

namespace Consistent

variable {m : MetaData}

theorem pageSize_pos (h : m.Consistent) : 0 < m.pageSize := by
  have := h.pageSize
  simp only [Config.validPageSize, Bool.and_eq_true, decide_eq_true_eq] at this
  omega

theorem pageSize_le (h : m.Consistent) : m.pageSize ≤ 2 ^ 20 := by
  have := h.pageSize
  simp only [Config.validPageSize, Bool.and_eq_true, decide_eq_true_eq] at this
  omega

/-- The bytes reported as cached are those of the present pages. -/
theorem cachedBytes_eq (h : m.Consistent) : m.cachedBytes = m.presentBytes := by
  unfold presentBytes
  cases hn : m.npages with
  | zero =>
      have hcount : m.bitmap.count = 0 := by
        have := h.bitmap.count_le
        omega
      simp [cachedBytes, hcount]
  | succ k =>
      have hfull : ∀ i < k, m.pageBytes i = m.pageSize := fun i hi =>
        pageBytes_of_succ_lt (by omega)
      have hcount := h.bitmap.count
      rw [hn, List.range_succ, List.countP_append, List.countP_singleton] at hcount
      rw [List.range_succ, List.filter_append, List.map_append, List.sum_append,
        sum_fullPages hfull]
      -- Nothing wraps: all the pages but the last lie inside the file.
      have hfits : (k + 1) * m.pageSize < 2 ^ 64 := by
        have hstart := start_lt (m := m) (i := k) (by omega)
        have hsize := h.fileSize
        have hpage := h.pageSize_le
        rw [Nat.add_mul, Nat.one_mul]
        omega
      have hle : m.bitmap.count * m.pageSize ≤ (k + 1) * m.pageSize :=
        Nat.mul_le_mul_right _ (hn ▸ h.bitmap.count_le)
      have htail := m.pageBytes_le k
      cases hlast : m.bitmap.get k with
      | true =>
          rw [hlast, if_pos rfl] at hcount
          simp only [cachedBytes, hn, Nat.add_sub_cancel, hlast, if_true]
          rw [hcount] at hle ⊢
          rw [if_neg (Nat.succ_ne_zero _), Nat.mod_eq_of_lt (Nat.lt_of_le_of_lt hle hfits)]
          have hsum : (List.filter m.bitmap.get [k]).map m.pageBytes = [m.pageBytes k] := by
            rw [List.filter_singleton, hlast]
            rfl
          rw [hsum, List.sum_singleton, sub64, Nat.add_mul, Nat.one_mul]
          rw [Nat.add_mul, Nat.one_mul] at hle
          omega
      | false =>
          rw [hlast, if_neg Bool.false_ne_true, Nat.add_zero] at hcount
          have hsum : (List.filter m.bitmap.get [k]).map m.pageBytes = [] := by
            rw [List.filter_singleton, hlast]
            rfl
          rw [hsum, List.sum_nil, Nat.add_zero, ← hcount]
          simp only [cachedBytes, hn, Nat.add_sub_cancel, hlast, Bool.false_eq_true, if_false]
          rw [Nat.mod_eq_of_lt (Nat.lt_of_le_of_lt hle hfits)]
          split
          · rename_i hz
            rw [hz, Nat.zero_mul]
          · rfl

/-- Loading a consistent value gives it back. -/
theorem load (h : m.Consistent) {m' : MetaData} (hload : MetaFile.load (some m) = some m') :
    m' = m := by
  obtain ⟨d, hd, -, rfl⟩ := MetaFile.load_eq_some hload
  cases hd
  rw [h.bitmap.recount_eq, ← h.crcs]

theorem withPin (h : m.Consistent) (p : Bool) : ({ m with pinned := p } : MetaData).Consistent :=
  ⟨h.pageSize, h.fileSize, h.bitmap, h.crcs, h.complete⟩

end Consistent

/-- A sidecar of a fresh start. -/
theorem consistent_fresh {cfg : Config} {v : Validators} (key : Bytes) (now : Nat)
    (hp : Config.validPageSize cfg.pageSize = true) (hsize : v.originSize < 2 ^ 63) :
    (FileEntry.freshMeta cfg key v now).Consistent := by
  refine ⟨hp, hsize, PageBitmap.Counted.reset _, rfl, ?_⟩
  constructor
  · intro h
    cases h
  · rintro ⟨hpos, hall⟩
    have h0 := hall 0 hpos
    cases h0

end MetaData

/-! ### A handle -/

/-- The three bitmaps of a handle of `n` pages are counted right, and its sidecar value agrees with
itself. -/
structure FlagsOk (n : Nat) (e : FileEntry) : Prop where
  meta_ : e.meta_.Consistent
  npages : e.meta_.npages = n
  setSince : e.setSince.Counted n
  clearedSince : e.clearedSince.Counted n

/-- A section that leaves the sidecar value and the deltas alone. -/
structure Untouched (e e' : FileEntry) : Prop where
  meta_ : e'.meta_ = e.meta_
  setSince : e'.setSince = e.setSince
  clearedSince : e'.clearedSince = e.clearedSince

namespace Untouched

variable {e e' e'' : FileEntry}

theorem refl (e : FileEntry) : Untouched e e := ⟨rfl, rfl, rfl⟩

theorem trans (h₁ : Untouched e e') (h₂ : Untouched e' e'') : Untouched e e'' :=
  ⟨h₂.meta_.trans h₁.meta_, h₂.setSince.trans h₁.setSince,
    h₂.clearedSince.trans h₁.clearedSince⟩

theorem foldl {α : Type} {sec : FileEntry → α → FileEntry}
    (hsec : ∀ e a, Untouched e (sec e a)) :
    ∀ (as : List α) (e : FileEntry), Untouched e (as.foldl sec e)
  | [], e => refl e
  | a :: as, e => (hsec e a).trans (foldl hsec as (sec e a))

theorem flagsOk {n : Nat} (h : Untouched e e') (he : FlagsOk n e) : FlagsOk n e' := by
  refine ⟨?_, ?_, ?_, ?_⟩
  · rw [h.meta_]
    exact he.meta_
  · rw [h.meta_]
    exact he.npages
  · rw [h.setSince]
    exact he.setSince
  · rw [h.clearedSince]
    exact he.clearedSince

theorem stagePages (e : FileEntry) (off : Nat) (bytes : Bytes) :
    Untouched e (e.stagePages off bytes) := by
  refine foldl ?_ _ e
  intro e' i
  unfold FileEntry.stagePage
  split
  · split <;> exact ⟨rfl, rfl, rfl⟩
  · split <;> exact ⟨rfl, rfl, rfl⟩

theorem stageSpeculative (e : FileEntry) (off : Nat) (bytes : Bytes) :
    Untouched e (e.stageSpeculative off bytes) := by
  unfold FileEntry.stageSpeculative
  split
  · exact refl e
  · refine foldl ?_ _ e
    intro e' i
    unfold FileEntry.stageSpecPage
    split <;> exact ⟨rfl, rfl, rfl⟩

theorem dropSpecPage (e : FileEntry) (i : Nat) : Untouched e (e.dropSpecPage i) := by
  unfold FileEntry.dropSpecPage
  split
  · split <;> exact ⟨rfl, rfl, rfl⟩
  · exact refl e

theorem dropSpeculative (e : FileEntry) (off len : Nat) :
    Untouched e (e.dropSpeculative off len) :=
  foldl dropSpecPage _ e

theorem touchSpecPage (e : FileEntry) (i : Nat) : Untouched e (e.touchSpecPage i) := by
  unfold FileEntry.touchSpecPage
  split
  · split <;> exact ⟨rfl, rfl, rfl⟩
  · exact refl e

theorem consumeSpeculative (e : FileEntry) (off len : Nat) :
    Untouched e (e.consumeSpeculative off len) := by
  unfold FileEntry.consumeSpeculative
  simp only
  split
  · exact refl e
  · exact (foldl touchSpecPage _ e).trans (foldl dropSpecPage _ _)

theorem drainSnapshot (e : FileEntry) : Untouched e e.drainSnapshot := ⟨rfl, rfl, rfl⟩

theorem dropStaged (e : FileEntry) (i : Nat) : Untouched e (e.dropStaged i) := by
  unfold FileEntry.dropStaged
  split
  · split <;> exact ⟨rfl, rfl, rfl⟩
  · exact refl e

theorem planPages (off len : Nat) (account : Bool) :
    ∀ (pages : List Nat) (st : FileEntry.ReadPlan),
      Untouched st.e (FileEntry.planPages off len account st pages).1.e
  | [], st => refl st.e
  | i :: rest, st => by
      unfold FileEntry.planPages
      split
      · rename_i st' hst
        refine trans ?_ (planPages off len account rest st')
        unfold FileEntry.planPage at hst
        simp only at hst
        split at hst
        · cases hst
          simp only
          split <;> exact ⟨rfl, rfl, rfl⟩
        · split at hst
          · cases hst
            exact refl _
          · simp at hst
      · exact refl st.e

theorem readPlan (e : FileEntry) (off : Nat) (buf : Bytes) (account : Bool) :
    Untouched e (e.readPlan off buf account).1.e :=
  planPages off buf.length account _ { e := e, out := buf, runs := [] }

end Untouched

namespace FlagsOk

variable {n : Nat} {e : FileEntry}

theorem bitmap (h : FlagsOk n e) : e.meta_.bitmap.Counted n := h.npages ▸ h.meta_.bitmap

theorem ofMeta {m : MetaData} (hm : m.Consistent) (cfg : Config) (key : Bytes) (dirty : Bool) :
    FlagsOk m.npages (FileEntry.ofMeta cfg key m dirty) :=
  ⟨hm, rfl, PageBitmap.Counted.reset _, PageBitmap.Counted.reset _⟩

/-! ### Sections that change what is present -/

/-- The part of the invariant that holds inside a section too, before the flag is set. -/
structure Tables (n : Nat) (e₀ e : FileEntry) : Prop where
  pageSize : e.meta_.pageSize = e₀.meta_.pageSize
  fileSize : e.meta_.fileSize = e₀.meta_.fileSize
  ncrcs : e.meta_.ncrcs = e₀.meta_.ncrcs
  bitmap : e.meta_.bitmap.Counted n
  setSince : e.setSince.Counted n
  clearedSince : e.clearedSince.Counted n

namespace Tables

variable {e₀ : FileEntry} {pg : Nat}

theorem start (h : FlagsOk n e) : Tables n e e :=
  ⟨rfl, rfl, rfl, h.bitmap, h.setSince, h.clearedSince⟩

theorem npages (h : Tables n e₀ e) (hn : e₀.meta_.npages = n) : e.meta_.npages = n := by
  rw [← hn, MetaData.npages, MetaData.npages, h.pageSize, h.fileSize]

theorem publishPage (h : Tables n e₀ e) (hpg : pg < n) (crc : UInt32) :
    Tables n e₀ (e.publishPage pg crc) :=
  ⟨h.pageSize, h.fileSize, h.ncrcs, h.bitmap.set hpg, h.setSince.set hpg, h.clearedSince.clear hpg⟩

theorem retractPage (h : Tables n e₀ e) (hpg : pg < n) : Tables n e₀ (e.retractPage pg) :=
  ⟨h.pageSize, h.fileSize, h.ncrcs, h.bitmap.clear hpg, h.setSince.clear hpg,
    h.clearedSince.set hpg⟩

theorem untouched {e' : FileEntry} (h : Tables n e₀ e) (hu : Untouched e e') : Tables n e₀ e' := by
  obtain ⟨hm, hs, hc⟩ := hu
  refine ⟨?_, ?_, ?_, ?_, ?_, ?_⟩
  · rw [hm]
    exact h.pageSize
  · rw [hm]
    exact h.fileSize
  · rw [hm]
    exact h.ncrcs
  · rw [hm]
    exact h.bitmap
  · rw [hs]
    exact h.setSince
  · rw [hc]
    exact h.clearedSince

theorem publishAll {done : List (Nat × UInt32)} (hdone : ∀ pc ∈ done, pc.1 < n)
    (h : Tables n e₀ e) : Tables n e₀ (e.publishAll done) := by
  induction done generalizing e with
  | nil => exact h
  | cons pc done ih =>
      exact ih (fun pc' hpc => hdone pc' (List.mem_cons_of_mem _ hpc))
        (h.publishPage (hdone pc (List.mem_cons_self ..)) pc.2)

theorem releasePages {pages : List Nat} (hpages : ∀ i ∈ pages, i < n) (h : Tables n e₀ e) :
    Tables n e₀ (pages.foldl FileEntry.releasePage e) := by
  induction pages generalizing e with
  | nil => exact h
  | cons i pages ih =>
      refine ih (fun j hj => hpages j (List.mem_cons_of_mem _ hj)) ?_
      have hdrop := h.untouched (Untouched.dropStaged e i)
      unfold FileEntry.releasePage
      split
      · have hret := hdrop.retractPage (hpages i (List.mem_cons_self ..))
        exact ⟨hret.pageSize, hret.fileSize, hret.ncrcs, hret.bitmap, hret.setSince,
          hret.clearedSince⟩
      · exact hdrop

/-- The end of a section: the tables and the flag. -/
theorem flagsOk (h : Tables n e₀ e) (h₀ : FlagsOk n e₀)
    (hcomplete : e.meta_.complete = true ↔ 0 < n ∧ ∀ i < n, e.meta_.bitmap.get i = true) :
    FlagsOk n e := by
  have hn := h.npages h₀.npages
  refine ⟨⟨?_, ?_, hn.symm ▸ h.bitmap, ?_, hn.symm ▸ hcomplete⟩, hn, h.setSince, h.clearedSince⟩
  · rw [h.pageSize]
    exact h₀.meta_.pageSize
  · rw [h.fileSize]
    exact h₀.meta_.fileSize
  · rw [h.ncrcs, h₀.meta_.crcs, h₀.npages, hn]

end Tables

theorem complete_iff (h : FlagsOk n e) :
    e.meta_.complete = true ↔ 0 < n ∧ ∀ i < n, e.meta_.bitmap.get i = true := by
  rw [← h.npages]
  exact h.meta_.complete

/-- A publication leaves every present page present, and the flag as it is. -/
theorem publishAll_keeps (done : List (Nat × UInt32)) (e : FileEntry) :
    (e.publishAll done).meta_.complete = e.meta_.complete ∧
      ∀ i, e.meta_.bitmap.get i = true → (e.publishAll done).meta_.bitmap.get i = true := by
  induction done generalizing e with
  | nil => exact ⟨rfl, fun _ hi => hi⟩
  | cons pc done ih =>
      obtain ⟨hc, hbit⟩ := ih (e.publishPage pc.1 pc.2)
      refine ⟨hc, fun i hi => hbit i ?_⟩
      change (e.meta_.bitmap.set pc.1).get i = true
      rw [PageBitmap.get_set, hi, Bool.or_true]

/-- The publication of pages of the file, at least one. -/
theorem published (h : FlagsOk n e) {done : List (Nat × UInt32)} (hne : done ≠ [])
    (hdone : ∀ pc ∈ done, pc.1 < n) : FlagsOk n (e.publishAll done).markPublished := by
  have hall := (Tables.start h).publishAll hdone
  obtain ⟨hcomplete, hbit⟩ := publishAll_keeps done e
  have hmark : Tables n e (e.publishAll done).markPublished :=
    ⟨hall.pageSize, hall.fileSize, hall.ncrcs, hall.bitmap, hall.setSince, hall.clearedSince⟩
  refine hmark.flagsOk h ?_
  have hpos : 0 < n := by
    obtain ⟨pc, hpc⟩ := List.exists_mem_of_ne_nil done hne
    exact Nat.zero_lt_of_lt (hdone pc hpc)
  change ((e.publishAll done).meta_.complete ||
    decide ((e.publishAll done).meta_.bitmap.count = (e.publishAll done).meta_.npages)) = true ↔
      0 < n ∧ ∀ i < n, (e.publishAll done).meta_.bitmap.get i = true
  rw [Bool.or_eq_true, decide_eq_true_eq, hall.npages h.npages, hall.bitmap.count_eq_iff, hcomplete,
    h.complete_iff]
  constructor
  · rintro (⟨-, hold⟩ | hnow)
    · exact ⟨hpos, fun i hi => hbit i (hold i hi)⟩
    · exact ⟨hpos, hnow⟩
  · exact fun hnow => Or.inr hnow.2

theorem directPublish (h : FlagsOk n e) {done : List (Nat × UInt32)} (hne : done ≠ [])
    (hdone : ∀ pc ∈ done, pc.1 < n) : FlagsOk n (e.directPublish done) :=
  h.published hne hdone

theorem drainPublish (h : FlagsOk n e) {done : List (Nat × UInt32)}
    (hdone : ∀ pc ∈ done, pc.1 < n) : FlagsOk n (e.drainPublish done) := by
  have hend : ∀ e' : FileEntry, FlagsOk n e' →
      FlagsOk n { e' with flushing := fun _ => none, flushInProgress := false } :=
    fun e' h' => Untouched.flagsOk (e := e') ⟨rfl, rfl, rfl⟩ h'
  unfold FileEntry.drainPublish
  cases done with
  | nil => exact hend e h
  | cons pc done => exact hend _ (h.published (by simp) hdone)

/-- Page `i` is absent after the section, and the flag is cleared. -/
theorem Tables.cleared {e₀ : FileEntry} (h : Tables n e₀ e) (h₀ : FlagsOk n e₀) {i : Nat}
    (hi : i < n) (habsent : e.meta_.bitmap.get i = false) (hflag : e.meta_.complete = false) :
    FlagsOk n e := by
  refine h.flagsOk h₀ ?_
  rw [hflag]
  refine ⟨fun hf => absurd hf Bool.false_ne_true, fun hall => ?_⟩
  rw [hall.2 i hi] at habsent
  exact absurd habsent.symm Bool.false_ne_true

theorem demoteRun (h : FlagsOk n e) {i : Nat} (hi : i < n) : FlagsOk n (e.demoteRun i i) := by
  have hone : i + 1 - i = 1 := by omega
  have hret := (Tables.start h).retractPage hi
  have hrun : e.demoteRun i i = { e.retractPage i with
      meta_ := { (e.retractPage i).meta_ with complete := false }, dirty := true } := by
    simp [FileEntry.demoteRun, hone]
  rw [hrun]
  have htables : Tables n e { e.retractPage i with
      meta_ := { (e.retractPage i).meta_ with complete := false }, dirty := true } :=
    ⟨hret.pageSize, hret.fileSize, hret.ncrcs, hret.bitmap, hret.setSince, hret.clearedSince⟩
  refine htables.cleared h hi ?_ rfl
  change (e.meta_.bitmap.clear i).get i = false
  simp

theorem releaseOne (h : FlagsOk n e) {span : Nat × Nat} (hne : span.1 < span.2)
    (hin : span.2 ≤ n) : FlagsOk n (e.releaseOne span) := by
  have hpages : ∀ i ∈ List.range' span.1 (span.2 - span.1), i < n := by
    intro i hi
    rw [List.mem_range'_1] at hi
    omega
  have htables := (Tables.start h).releasePages hpages
  obtain ⟨ts, -, -, habsent⟩ := section_releaseOne e span
  have hspan : Tables n e (e.releaseOne span) :=
    ⟨htables.pageSize, htables.fileSize, htables.ncrcs, htables.bitmap, htables.setSince,
      htables.clearedSince⟩
  exact hspan.cleared h (Nat.lt_of_lt_of_le hne hin) (habsent span.1 ⟨Nat.le_refl _, hne⟩) rfl

/-- The pages of a span are pages of the file. -/
theorem releaseSpan_below {m : MetaData} {r span : Nat × Nat}
    (h : FileEntry.releaseSpan m r = some span) : span.1 < span.2 ∧ span.2 ≤ m.npages := by
  unfold FileEntry.releaseSpan at h
  simp only at h
  split at h
  · cases h
  · rename_i hok
    cases h
    simp only [not_or, Nat.not_lt, Nat.not_le] at hok
    obtain ⟨-, hfits, hne⟩ := hok
    refine ⟨hne, ?_⟩
    have hp : m.pageSize ≠ 0 := by
      rintro h0
      simp [h0] at hne
    simp only [MetaData.npages, MetaData.pagesOf, hp, if_false]
    exact Nat.div_le_div_right (by omega)

theorem releaseSection (h : FlagsOk n e) (ranges : List (Nat × Nat)) :
    FlagsOk n (e.releaseSection ranges).1 := by
  have hspans : ∀ span ∈ ranges.filterMap (FileEntry.releaseSpan e.meta_),
      span.1 < span.2 ∧ span.2 ≤ n := by
    intro span hspan
    obtain ⟨r, -, hr⟩ := List.mem_filterMap.1 hspan
    rw [← h.npages]
    exact releaseSpan_below hr
  unfold FileEntry.releaseSection
  generalize ranges.filterMap (FileEntry.releaseSpan e.meta_) = spans at hspans
  simp only
  induction spans generalizing e with
  | nil => exact h
  | cons span spans ih =>
      obtain ⟨hne, hin⟩ := hspans span (List.mem_cons_self ..)
      exact ih (h.releaseOne hne hin) fun s hs => hspans s (List.mem_cons_of_mem _ hs)

theorem setPinned (h : FlagsOk n e) (p : Bool) : FlagsOk n (e.setPinned p) :=
  ⟨h.meta_.withPin p, h.npages, h.setSince, h.clearedSince⟩

/-! ### The commit -/

theorem flushMetaBegin (h : FlagsOk n e) : FlagsOk n e.flushMetaBegin.1 :=
  ⟨h.meta_, h.npages, h.setSince.clearAll, h.clearedSince.clearAll⟩

theorem flushMetaFailed (h : FlagsOk n e) (f : MetaFlush) : FlagsOk n (e.flushMetaFailed f) := by
  unfold FileEntry.flushMetaFailed
  simp only [h.npages]
  exact ⟨h.meta_, h.npages, h.setSince.updateRange _, h.clearedSince.updateRange _⟩

theorem flushMetaAdopt (h : FlagsOk n e) (out : MetaData) : FlagsOk n (e.flushMetaAdopt out) := by
  have hbitmap := h.bitmap.updateRange fun i =>
    if e.setSince.get i || e.clearedSince.get i then none else some (out.bitmap.get i)
  unfold FileEntry.flushMetaAdopt
  simp only [h.npages]
  refine ⟨⟨h.meta_.pageSize, h.meta_.fileSize, ?_, h.meta_.crcs, ?_⟩, h.npages, h.setSince,
    h.clearedSince⟩
  · exact h.npages.symm ▸ hbitmap
  · refine hbitmap.full_iff.trans ?_
    change _ ↔ 0 < e.meta_.npages ∧ ∀ i < e.meta_.npages, _
    rw [h.npages]

end FlagsOk

/-- The image a commit stores: the handle's own view, or the merge with a loaded sidecar of as many
pages. -/
theorem MetaFlush.image_loaded (f : MetaFlush) (cfg : Config) (key : Bytes)
    (sidecar : Option MetaData) :
    f.image cfg key sidecar = (f.snapshot, false) ∨
      ∃ disk, MetaFile.load sidecar = some disk ∧ disk.npages = f.snapshot.npages ∧
        f.image cfg key sidecar = (f.merge disk, true) := by
  unfold MetaFlush.image
  cases hload : MetaFile.load sidecar with
  | none => exact Or.inl rfl
  | some disk =>
      simp only
      split
      · rename_i hguard
        obtain ⟨hpage, hadopt⟩ := hguard
        have hsize : disk.fileSize = f.snapshot.fileSize := by
          simp only [adoptable, Bool.and_eq_true, decide_eq_true_eq] at hadopt
          exact hadopt.1.1.1.1.2
        refine Or.inr ⟨disk, rfl, ?_, rfl⟩
        rw [MetaData.npages, MetaData.npages, hpage, hsize]
      · exact Or.inl rfl

/-- What a commit takes out of a handle of `n` pages. -/
structure SnapshotOk (n : Nat) (f : MetaFlush) : Prop where
  snapshot : f.snapshot.Consistent
  npages : f.snapshot.npages = n
  sets : f.sets.Counted n
  clears : f.clears.Counted n

theorem FlagsOk.snapshot {n : Nat} {e : FileEntry} (h : FlagsOk n e) :
    SnapshotOk n e.flushMetaBegin.2 :=
  ⟨h.meta_, h.npages, h.setSince, h.clearedSince⟩

namespace SnapshotOk

variable {n : Nat} {f : MetaFlush}

/-- The merge keeps the image on disk consistent: the flag is decided anew by the count. -/
theorem merge (f : MetaFlush) {disk : MetaData} (hdisk : disk.Consistent) :
    (f.merge disk).Consistent := by
  have hbitmap := hdisk.bitmap.updateRange fun i =>
    if f.clears.get i then some false else if f.sets.get i then some true else none
  exact ⟨hdisk.pageSize, hdisk.fileSize, hbitmap, hdisk.crcs, hbitmap.full_iff⟩

/-- The image a commit stores is consistent, and of the handle's pages. -/
theorem image (hf : SnapshotOk n f) (cfg : Config) (key : Bytes) {sidecar : Option MetaData}
    (hside : ∀ m, sidecar = some m → m.Consistent) :
    (f.image cfg key sidecar).1.Consistent ∧ (f.image cfg key sidecar).1.npages = n := by
  rcases f.image_loaded cfg key sidecar with himage | ⟨disk, hload, hn, himage⟩
  · rw [himage]
    exact ⟨hf.snapshot, hf.npages⟩
  · rw [himage]
    obtain ⟨m, rfl, -, -⟩ := MetaFile.load_eq_some hload
    have hsame := (hside m rfl).load hload
    subst hsame
    exact ⟨merge f (hside disk rfl), hn.trans hf.npages⟩

end SnapshotOk

end UCache
