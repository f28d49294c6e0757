/-
Module: UCache.Core.Sections
Purpose: What each locked section of a handle does to the view its commits read: which transitions
  it makes, and that a section that makes any leaves the handle dirty.
Trusted boundary: none
Main exports: Section, Retractions, InSpan
-/
import UCache.Core.Deltas

namespace UCache

/-- `e'` is `e` after a section that made the transitions `ts`; it forgets no pending commit and
asks for one when it made any. -/
structure Section (e e' : FileEntry) (ts : List Transition) : Prop where
  extends_ : Extends e e' ts
  dirty : e.dirty = true ∨ ts ≠ [] → e'.dirty = true

namespace Section

variable {e e' e'' : FileEntry} {ts ts₁ ts₂ : List Transition}

theorem refl (e : FileEntry) : Section e e [] := ⟨Extends.refl e, by simp⟩

theorem trans (h1 : Section e e' ts₁) (h2 : Section e' e'' ts₂) :
    Section e e'' (ts₁ ++ ts₂) := by
  refine ⟨h1.extends_.trans h2.extends_, ?_⟩
  intro h
  by_cases h' : ts₂ = []
  · refine h2.dirty (Or.inl (h1.dirty ?_))
    simpa [h'] using h
  · exact h2.dirty (Or.inr h')

theorem trans_nil (h1 : Section e e' ts) (h2 : Section e' e'' []) : Section e e'' ts := by
  simpa using h1.trans h2

/-- A section that changes only the stage, the clock fields or the completeness flag. -/
theorem of_view (hx : Extends e e' []) (hd : e'.dirty = e.dirty) : Section e e' [] :=
  ⟨hx, by simp [hd]⟩

/-- A loop no turn of which makes a transition. -/
theorem foldl_nil {α : Type} {sec : FileEntry → α → FileEntry} :
    ∀ (as : List α) (e : FileEntry), (∀ e a, Section e (sec e a) []) →
      Section e (as.foldl sec e) []
  | [], e, _ => refl e
  | a :: as, e, h => (h e a).trans_nil (foldl_nil as (sec e a) h)

end Section

/-- A section that leaves metadata, deltas, trace and dirtiness as they are. -/
theorem section_of_stage {e e' : FileEntry} (hm : e'.meta_ = e.meta_)
    (ht : e'.trace = e.trace) (hs : e'.setSince = e.setSince)
    (hc : e'.clearedSince = e.clearedSince) (hp : e'.pinTouched = e.pinTouched)
    (hcfg : e'.cfg = e.cfg) (hk : e'.key = e.key) (hd : e'.dirty = e.dirty) : Section e e' [] :=
  Section.of_view (Extends.of_view ht hs hc hp (by rw [hm]) hcfg hk) hd

/-! ### The stage -/

theorem section_unmarkSpeculative (e : FileEntry) (i : Nat) (p : BufPage) :
    Section e (e.unmarkSpeculative i p) [] :=
  section_of_stage rfl rfl rfl rfl rfl rfl rfl rfl

theorem section_stagePage (off : Nat) (bytes : Bytes) (e : FileEntry) (i : Nat) :
    Section e (FileEntry.stagePage off bytes e i) [] := by
  unfold FileEntry.stagePage
  split
  · split
    · exact section_unmarkSpeculative e i _
    · exact Section.refl e
  · split
    · exact Section.refl e
    · exact section_of_stage rfl rfl rfl rfl rfl rfl rfl rfl

theorem section_stagePages (e : FileEntry) (off : Nat) (bytes : Bytes) :
    Section e (e.stagePages off bytes) [] :=
  Section.foldl_nil _ e (section_stagePage off bytes)

theorem section_stageSpecPage (off : Nat) (bytes : Bytes) (e : FileEntry) (i : Nat) :
    Section e (FileEntry.stageSpecPage off bytes e i) [] := by
  unfold FileEntry.stageSpecPage
  split
  · exact Section.refl e
  · exact section_of_stage rfl rfl rfl rfl rfl rfl rfl rfl

theorem section_stageSpeculative (e : FileEntry) (off : Nat) (bytes : Bytes) :
    Section e (e.stageSpeculative off bytes) [] := by
  unfold FileEntry.stageSpeculative
  split
  · exact Section.refl e
  · exact Section.foldl_nil _ e (section_stageSpecPage off bytes)

theorem section_dropSpecPage (e : FileEntry) (i : Nat) : Section e (e.dropSpecPage i) [] := by
  unfold FileEntry.dropSpecPage
  split
  · split
    · exact section_of_stage rfl rfl rfl rfl rfl rfl rfl rfl
    · exact Section.refl e
  · exact Section.refl e

theorem section_dropSpeculative (e : FileEntry) (off len : Nat) :
    Section e (e.dropSpeculative off len) [] :=
  Section.foldl_nil _ e section_dropSpecPage

theorem section_touchSpecPage (e : FileEntry) (i : Nat) : Section e (e.touchSpecPage i) [] := by
  unfold FileEntry.touchSpecPage
  split
  · split
    · exact section_of_stage rfl rfl rfl rfl rfl rfl rfl rfl
    · exact Section.refl e
  · exact Section.refl e

theorem section_consumeSpeculative (e : FileEntry) (off len : Nat) :
    Section e (e.consumeSpeculative off len) [] := by
  unfold FileEntry.consumeSpeculative
  simp only
  split
  · exact Section.refl e
  · exact (Section.foldl_nil _ e section_touchSpecPage).trans_nil
      (Section.foldl_nil _ _ section_dropSpecPage)

theorem section_drainSnapshot (e : FileEntry) : Section e e.drainSnapshot [] :=
  section_of_stage rfl rfl rfl rfl rfl rfl rfl rfl

theorem section_planPages (off len : Nat) (account : Bool) :
    ∀ (pages : List Nat) (st : FileEntry.ReadPlan),
      Section st.e (FileEntry.planPages off len account st pages).1.e []
  | [], st => Section.refl st.e
  | i :: rest, st => by
      unfold FileEntry.planPages
      split
      · rename_i st' hst
        refine Section.trans_nil ?_ (section_planPages off len account rest st')
        unfold FileEntry.planPage at hst
        simp only at hst
        split at hst
        · cases hst
          simp only
          split
          · exact section_unmarkSpeculative _ i _
          · exact Section.refl _
        · split at hst
          · cases hst
            exact Section.refl _
          · simp at hst
      · exact Section.refl st.e

theorem section_readPlan (e : FileEntry) (off : Nat) (buf : Bytes) (account : Bool) :
    Section e (e.readPlan off buf account).1.e [] :=
  section_planPages off buf.length account _ { e := e, out := buf, runs := [] }

/-! ### Transitions -/

/-- The transitions of a publication. -/
def publications (done : List (Nat × UInt32)) : List Transition :=
  done.map fun pc => .publish pc.1 pc.2

/-- The last word on a page is one of the publications. -/
theorem lastPage_publications {done : List (Nat × UInt32)} {i : Nat} {x : Bool × UInt32}
    (h : lastPage (publications done) i = some x) : x.1 = true ∧ (i, x.2) ∈ done := by
  induction done with
  | nil => simp [publications] at h
  | cons pc done ih =>
      simp only [publications, lastPage, List.map_cons, Lib.lastFor, Option.or_eq_some_iff] at h
      rcases h with h | ⟨-, h⟩
      · obtain ⟨hbit, hmem⟩ := ih h
        exact ⟨hbit, List.mem_cons_of_mem _ hmem⟩
      · simp only [Transition.page] at h
        split at h
        · rename_i hi
          cases h
          exact ⟨rfl, by simp [hi]⟩
        · simp at h

theorem extends_publishAll (e : FileEntry) (done : List (Nat × UInt32)) :
    Extends e (e.publishAll done) (publications done) := by
  induction done generalizing e with
  | nil => exact Extends.refl e
  | cons pc done ih => exact (extends_publishPage e pc.1 pc.2).trans (ih (e.publishPage pc.1 pc.2))

theorem extends_markPublished (e : FileEntry) : Extends e e.markPublished [] :=
  Extends.of_view rfl rfl rfl rfl rfl rfl rfl

theorem section_directPublish (e : FileEntry) (done : List (Nat × UInt32)) :
    Section e (e.directPublish done) (publications done) :=
  ⟨(extends_publishAll e done).trans_nil (extends_markPublished _), fun _ => rfl⟩

theorem section_drainPublish (e : FileEntry) (done : List (Nat × UInt32)) :
    Section e (e.drainPublish done) (publications done) := by
  have hend : ∀ e : FileEntry,
      Section e { e with flushing := fun _ => none, flushInProgress := false } [] := fun e =>
    section_of_stage rfl rfl rfl rfl rfl rfl rfl rfl
  unfold FileEntry.drainPublish
  cases done with
  | nil => exact hend e
  | cons pc done =>
      refine Section.trans_nil ⟨?_, fun _ => rfl⟩ (hend _)
      exact (extends_publishAll e (pc :: done)).trans_nil (extends_markPublished _)

theorem section_setPinned (e : FileEntry) (p : Bool) : Section e (e.setPinned p) [.pin p] :=
  ⟨extends_setPinned e p, fun _ => rfl⟩

theorem section_demoteRun (e : FileEntry) (i : Nat) : Section e (e.demoteRun i i) [.retract i] := by
  refine ⟨?_, fun _ => rfl⟩
  have hone : i + 1 - i = 1 := by omega
  unfold FileEntry.demoteRun
  simp only [hone, List.range'_one, List.foldl_cons, List.foldl_nil]
  exact (extends_retractPage e i).trans_nil (Extends.of_view rfl rfl rfl rfl rfl rfl rfl)

theorem section_dropStaged (e : FileEntry) (i : Nat) : Section e (e.dropStaged i) [] := by
  unfold FileEntry.dropStaged
  split
  · split
    · exact section_of_stage rfl rfl rfl rfl rfl rfl rfl rfl
    · exact section_of_stage rfl rfl rfl rfl rfl rfl rfl rfl
  · exact Section.refl e

theorem section_releasePage (e : FileEntry) (i : Nat) :
    Section e (e.releasePage i) (if e.meta_.bitmap.get i then [.retract i] else []) := by
  unfold FileEntry.releasePage
  split
  · refine (section_dropStaged e i).trans ⟨?_, fun _ => rfl⟩
    exact (extends_retractPage _ i).trans_nil (Extends.of_view rfl rfl rfl rfl rfl rfl rfl)
  · exact section_dropStaged e i

/-- A log of retractions only. -/
def Retractions (ts : List Transition) : Prop := ∀ t ∈ ts, ∃ i, t = .retract i

theorem Retractions.append {ts₁ ts₂ : List Transition} (h1 : Retractions ts₁)
    (h2 : Retractions ts₂) : Retractions (ts₁ ++ ts₂) := by
  intro t ht
  rcases List.mem_append.1 ht with h | h
  · exact h1 t h
  · exact h2 t h

/-- Retractions leave a page as it was or absent. -/
theorem Retractions.lastPage {ts : List Transition} (h : Retractions ts) (i : Nat) :
    lastPage ts i = none ∨ lastPage ts i = some (false, 0) := by
  induction ts with
  | nil => exact Or.inl rfl
  | cons t ts ih =>
      have htail : Retractions ts := fun u hu => h u (by simp [hu])
      obtain ⟨j, rfl⟩ := h t (by simp)
      change (UCache.lastPage ts i).or (Transition.page i (.retract j)) = none ∨
        (UCache.lastPage ts i).or (Transition.page i (.retract j)) = some (false, 0)
      rcases ih htail with h' | h'
      · rw [h']
        by_cases hij : i = j <;> simp [Transition.page, hij]
      · simp [h']

theorem Retractions.seen {e e' : FileEntry} {ts : List Transition} (h : Retractions ts)
    (hx : Extends e e' ts) {i : Nat} (hi : e.meta_.bitmap.get i = false) :
    e'.meta_.bitmap.get i = false := by
  have hpage := hx.page i
  rcases h.lastPage i with h' | h'
  · simp only [h', Option.getD_none, MetaData.page, Prod.mk.injEq] at hpage
    rw [hpage.1, hi]
  · simp only [h', Option.getD_some, MetaData.page, Prod.mk.injEq] at hpage
    exact hpage.1

/-- Releasing pages makes only retractions, and leaves every one of the pages absent. -/
theorem section_releasePages (pages : List Nat) (e : FileEntry) :
    ∃ ts, Retractions ts ∧ Section e (pages.foldl FileEntry.releasePage e) ts ∧
      ∀ i ∈ pages, (pages.foldl FileEntry.releasePage e).meta_.bitmap.get i = false := by
  induction pages generalizing e with
  | nil => exact ⟨[], by simp [Retractions], Section.refl e, by simp⟩
  | cons i pages ih =>
      obtain ⟨ts, hret, hsec, habs⟩ := ih (e.releasePage i)
      have hone := section_releasePage e i
      have hret₁ : Retractions (if e.meta_.bitmap.get i then [Transition.retract i] else []) := by
        intro t ht
        split at ht
        · exact ⟨i, by simpa using ht⟩
        · simp at ht
      refine ⟨_, hret₁.append hret, hone.trans hsec, ?_⟩
      intro j hj
      rcases List.mem_cons.1 hj with rfl | hj
      · -- Absent after its own turn, and the later turns only retract.
        refine hret.seen hsec.extends_ ?_
        have hpage := hone.extends_.page j
        cases hb : e.meta_.bitmap.get j with
        | true =>
            have hlast : lastPage [.retract j] j = some (false, 0) := by
              simp [lastPage, Lib.lastFor, Transition.page]
            simp only [hb, if_true, hlast, Option.getD_some, MetaData.page, Prod.mk.injEq] at hpage
            exact hpage.1
        | false =>
            simp only [hb, Bool.false_eq_true, if_false, lastPage_nil, Option.getD_none,
              MetaData.page, Prod.mk.injEq] at hpage
            exact hpage.1
      · exact habs j hj

/-- Pages of a span. -/
def InSpan (span : Nat × Nat) (i : Nat) : Prop := span.1 ≤ i ∧ i < span.2

theorem section_releaseOne (e : FileEntry) (span : Nat × Nat) :
    ∃ ts, Retractions ts ∧ Section e (e.releaseOne span) ts ∧
      ∀ i, InSpan span i → (e.releaseOne span).meta_.bitmap.get i = false := by
  obtain ⟨ts, hret, hsec, habs⟩ :=
    section_releasePages (List.range' span.1 (span.2 - span.1)) e
  refine ⟨ts, hret, hsec.trans_nil ?_, ?_⟩
  · exact Section.of_view (Extends.of_view rfl rfl rfl rfl rfl rfl rfl) rfl
  · intro i hi
    exact habs i (by simp only [List.mem_range'_1]; unfold InSpan at hi; omega)

/-- The locked section of `releaseRanges` makes only retractions, and leaves every page of the
spans it hands to `punchHole` absent. -/
theorem section_releaseSection (e : FileEntry) (ranges : List (Nat × Nat)) :
    ∃ ts, Retractions ts ∧ Section e (e.releaseSection ranges).1 ts ∧
      ∀ span ∈ (e.releaseSection ranges).2, ∀ i, InSpan span i →
        (e.releaseSection ranges).1.meta_.bitmap.get i = false := by
  unfold FileEntry.releaseSection
  simp only
  generalize ranges.filterMap (FileEntry.releaseSpan e.meta_) = spans
  induction spans generalizing e with
  | nil => exact ⟨[], by simp [Retractions], Section.refl e, by simp⟩
  | cons span spans ih =>
      obtain ⟨ts₁, hret₁, hsec₁, habs₁⟩ := section_releaseOne e span
      obtain ⟨ts₂, hret₂, hsec₂, habs₂⟩ := ih (e.releaseOne span)
      refine ⟨ts₁ ++ ts₂, hret₁.append hret₂, hsec₁.trans hsec₂, ?_⟩
      intro sp hsp i hi
      rcases List.mem_cons.1 hsp with rfl | hsp
      · exact hret₂.seen hsec₂.extends_ (habs₁ i hi)
      · exact habs₂ sp hsp i hi

end UCache
