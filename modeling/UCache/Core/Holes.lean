/-
Module: UCache.Core.Holes
Purpose: Releasing ranges against draining them.  `releaseRanges` retracts, commits and punches; a
  page that a drain has written but not yet published is not retracted, so its bit can come to
  stand over the hole.  Exactly when that is kept from happening, no bit does.
Trusted boundary: none
Main exports: PagePunched, no_bit_over_hole, late_publish_over_hole
-/
import UCache.Core.Commits
import UCache.Core.Stage

namespace UCache

open Lib

/-! ### The condition -/

/-- Some byte of page `i` is in a hole. -/
def PagePunched (m : MetaData) (d : DataFile) (i : Nat) : Prop :=
  ∃ k, i * m.pageSize ≤ k ∧ k < i * m.pageSize + m.pageBytes i ∧ d.punched k = true

/-- Pages a thread has written to `.data` and not yet published. -/
def Frame.written : Frame → List Nat
  | .directCheck _ _ _ done => done.map Prod.fst
  | .directWrite _ _ _ _ done => done.map Prod.fst
  | .directPublish done => done.map Prod.fst
  | .drainWrite _ done _ => done.map Prod.fst
  | .drainPublish done _ => done.map Prod.fst
  | _ => []

/-- Pages a thread is about to publish. -/
def Frame.publishing : Frame → List Nat
  | .directPublish done => done.map Prod.fst
  | .drainPublish done _ => done.map Prod.fst
  | _ => []

theorem Frame.written_of_publishing {fr : Frame} {i : Nat} (h : i ∈ fr.publishing) :
    i ∈ fr.written := by
  cases fr with
  | directPublish done => exact h
  | drainPublish done force => exact h
  | _ => simp [Frame.publishing] at h

/-- No page is published between its retraction by `releaseRanges` and the punch of its span. -/
def NoPublishBeforePunch (s : Machine) : MachineAct → Prop
  | .start _ _ => True
  | .step t _ => ∀ fr rest, s.threads t = fr :: rest → ∀ i ∈ fr.publishing,
      ∀ t' spans, .punch spans ∈ s.threads t' → ∀ span ∈ spans, ¬ InSpan span i

/-- No span is punched while a page of it is written and not yet published. -/
def NoPunchBeforePublish (s : Machine) : MachineAct → Prop
  | .start _ _ => True
  | .step t c => ∀ span spans rest, s.threads t = .punch (span :: spans) :: rest → c.ok = true →
      ∀ t', ∀ fr ∈ s.threads t', ∀ i ∈ fr.written, ¬ InSpan span i

/-- What keeps bits off holes, as a condition on each step. -/
structure HoleCond (s : Machine) (a : MachineAct) : Prop where
  noOverlap : NoOverlap s a
  stores : StoresSucceed s a
  publish : NoPublishBeforePunch s a
  punch : NoPunchBeforePublish s a

/-! ### What one frame does to holes -/

/-- A staged page with all its bytes. -/
def Full (m₀ : MetaData) (i : Nat) (data : Bytes) (_ : UInt32) : Prop :=
  data.length = m₀.pageBytes i

/-- A write-out holds its pages with all their bytes. -/
def FrameFull (m₀ : MetaData) : Frame → Prop
  | .directCheck off bytes todo _ =>
      ∀ i ∈ todo, off ≤ i * m₀.pageSize ∧ i * m₀.pageSize + m₀.pageBytes i ≤ off + bytes.length
  | .directWrite off bytes i todo _ =>
      ∀ j ∈ i :: todo,
        off ≤ j * m₀.pageSize ∧ j * m₀.pageSize + m₀.pageBytes j ≤ off + bytes.length
  | .drainWrite todo _ _ => ∀ ip ∈ todo, ip.1 < m₀.npages ∧ Full m₀ ip.1 ip.2.data ip.2.crc
  | _ => True

/-- Frames that carry neither pages being written nor spans to punch. -/
def Frame.plain : Frame → Bool
  | .directCheck _ _ _ _ => false
  | .directWrite _ _ _ _ _ => false
  | .directPublish _ => false
  | .drainWrite _ _ _ => false
  | .drainPublish _ _ => false
  | .punch _ => false
  | _ => true

theorem Frame.plain_spec {fr : Frame} (h : fr.plain = true) (m₀ : MetaData) :
    FrameFull m₀ fr ∧ fr.written = [] ∧ ∀ spans, fr ≠ .punch spans := by
  cases fr <;> simp_all [Frame.plain, FrameFull, Frame.written]

/-- What the step of a frame can do to the stage, the trace, the holes and the write-outs. -/
structure HoleStep (m₀ : MetaData) (c : Choice) (fr : Frame) (e : FileEntry) (d : Disk)
    (r : FileEntry × Disk × List Frame) : Prop where
  staged : StagedOk (Full m₀) r.1
  trace : ∃ ts, r.1.trace = e.trace ++ ts ∧
    ∀ i crc, lastPage ts i = some (true, crc) → i ∈ fr.publishing
  punched : ∀ i, PagePunched m₀ r.2.1.data i → PagePunched m₀ d.data i ∨
    ∃ span spans, fr = .punch (span :: spans) ∧ c.ok = true ∧ InSpan span i
  full : ∀ fr' ∈ r.2.2, FrameFull m₀ fr'
  written : ∀ fr' ∈ r.2.2, ∀ i ∈ fr'.written,
    i ∈ fr.written ∨ ¬ PagePunched m₀ r.2.1.data i
  release : ∀ spans, .punch spans ∈ r.2.2 →
    (r.2.2 = [.flushMeta true, .punch spans] ∧
      ∀ span ∈ spans, ∀ i, InSpan span i → r.1.meta_.bitmap.get i = false) ∨
    ∃ span, fr = .punch (span :: spans)

namespace Frame

variable {m₀ : MetaData} {c : Choice} {fr : Frame} {e : FileEntry} {d : Disk} {off : Nat}

/-- A step that leaves `.data` alone and goes on to plain frames. -/
theorem hole_plain {e' : FileEntry} {d' : Disk} {frames : List Frame} (ts : List Transition)
    (hst : StagedOk (Full m₀) e') (htr : e'.trace = e.trace ++ ts)
    (hpub : ∀ i crc, lastPage ts i = some (true, crc) → i ∈ fr.publishing)
    (hdata : d'.data = d.data) (hplain : frames.all plain = true) :
    HoleStep m₀ c fr e d (e', d', frames) := by
  have hspec : ∀ fr' ∈ frames, FrameFull m₀ fr' ∧ fr'.written = [] ∧ ∀ spans, fr' ≠ .punch spans :=
    fun fr' h => plain_spec (List.all_eq_true.1 hplain fr' h) m₀
  refine ⟨hst, ⟨ts, htr, hpub⟩, ?_, fun fr' h => (hspec fr' h).1, ?_, ?_⟩
  · intro i hi
    exact Or.inl (hdata ▸ hi)
  · intro fr' h i hi
    simp [(hspec fr' h).2.1] at hi
  · intro spans h
    exact absurd rfl ((hspec _ h).2.2 spans)

/-- A section that makes no transition. -/
theorem hole_section {e' : FileEntry} {frames : List Frame} (hst : StagedOk (Full m₀) e')
    (hsec : Section e e' []) (hplain : frames.all plain = true) :
    HoleStep m₀ c fr e d (e', d, frames) :=
  hole_plain [] hst hsec.extends_.trace (by simp) rfl hplain

theorem hole_stay {frames : List Frame} (hst : StagedOk (Full m₀) e)
    (hplain : frames.all plain = true) : HoleStep m₀ c fr e d (e, d, frames) :=
  hole_section hst (Section.refl e) hplain

/-- A step of the file alone, which one frame follows. -/
theorem hole_one {fr' : Frame} {d' : Disk} (hst : StagedOk (Full m₀) e)
    (hnew : ∀ i, PagePunched m₀ d'.data i → PagePunched m₀ d.data i) (hfull : FrameFull m₀ fr')
    (hwritten : ∀ i ∈ fr'.written, i ∈ fr.written ∨ ¬ PagePunched m₀ d'.data i)
    (hpunch : ∀ spans, Frame.punch spans ≠ fr') : HoleStep m₀ c fr e d (e, d', [fr']) where
  staged := hst
  trace := ⟨[], by simp, by simp⟩
  punched i hi := Or.inl (hnew i hi)
  full := List.forall_mem_singleton.2 hfull
  written := List.forall_mem_singleton.2 hwritten
  release spans h := absurd (List.mem_singleton.1 h) (hpunch spans)

/-- The pages a call stages are full. -/
theorem full_cutPage (hgeo : Geometry m₀ e) {bytes : Bytes} {i : Nat}
    (hi : i ∈ FileEntry.wholePages e.meta_ off (min (off + bytes.length) e.meta_.fileSize)) :
    Full m₀ i (FileEntry.cutPage e.meta_ off bytes i).data
      (FileEntry.cutPage e.meta_ off bytes i).crc := by
  obtain ⟨-, hoff, hend⟩ := mem_wholePages hi
  have hlen : (FileEntry.cutPage e.meta_ off bytes i).data.length = e.meta_.pageBytes i :=
    length_cutPage hoff (by omega)
  rw [hgeo.pageBytes] at hlen
  exact hlen

/-- A write that covers page `i` leaves no hole in it. -/
theorem not_punched_write {data : DataFile} {b : Bytes} {i : Nat} (hlo : off ≤ i * m₀.pageSize)
    (hhi : i * m₀.pageSize + m₀.pageBytes i ≤ off + b.length) :
    ¬ PagePunched m₀ (data.write off b) i := by
  rintro ⟨k, hk₁, hk₂, hp⟩
  unfold DataFile.write at hp
  split at hp
  · rename_i hb
    have hlen : b.length = 0 := by simpa using hb
    omega
  · simp only [Bool.and_eq_true, Bool.not_eq_true', Bool.and_eq_false_iff,
      decide_eq_false_iff_not] at hp
    omega

/-- A write makes no hole. -/
theorem punched_write {data : DataFile} {b : Bytes} {i : Nat}
    (h : PagePunched m₀ (data.write off b) i) : PagePunched m₀ data i := by
  obtain ⟨k, hk₁, hk₂, hp⟩ := h
  unfold DataFile.write at hp
  split at hp
  · exact ⟨k, hk₁, hk₂, hp⟩
  · simp only [Bool.and_eq_true] at hp
    exact ⟨k, hk₁, hk₂, hp.1⟩

theorem hole_writePages (hgeo : Geometry m₀ e) (hst : StagedOk (Full m₀) e) {bytes : Bytes} :
    HoleStep m₀ c fr e d (stepWritePages e d off bytes) := by
  unfold stepWritePages
  simp only
  split
  · exact hole_stay hst rfl
  · split
    · refine hole_one hst (fun i hi => hi) ?_ (by simp [written]) nofun
      intro i hi
      obtain ⟨-, hoff, hend⟩ := mem_wholePages hi
      rw [hgeo.pageSize] at hoff hend
      rw [hgeo.pageBytes] at hend
      omega
    · refine hole_section (hst.stagePages fun i hi => full_cutPage hgeo hi)
        (section_stagePages e off bytes) ?_
      split <;> rfl

theorem hole_directCheck (hst : StagedOk (Full m₀) e) {bytes : Bytes} {todo : List Nat}
    {done : List (Nat × UInt32)} (hfull : FrameFull m₀ (.directCheck off bytes todo done)) :
    HoleStep m₀ c (.directCheck off bytes todo done) e d
      (stepDirectCheck c e d off bytes todo done) := by
  unfold stepDirectCheck
  split
  · rename_i i rest
    split
    · exact hole_one hst (fun i hi => hi) (fun j hj => hfull j (by simp [hj]))
        (fun i hi => Or.inl hi) nofun
    · exact hole_one hst (fun i hi => hi) hfull (fun i hi => Or.inl hi) nofun
  · split
    · exact hole_stay hst rfl
    · exact hole_one hst (fun i hi => hi) (by simp [FrameFull]) (fun i hi => Or.inl hi) nofun

theorem hole_directWrite (hgeo : Geometry m₀ e) (hst : StagedOk (Full m₀) e) {bytes : Bytes}
    {i : Nat} {todo : List Nat} {done : List (Nat × UInt32)}
    (hfull : FrameFull m₀ (.directWrite off bytes i todo done)) :
    HoleStep m₀ c (.directWrite off bytes i todo done) e d
      (stepDirectWrite c e d off bytes i todo done) := by
  obtain ⟨hlo, hhi⟩ := hfull i (by simp)
  have hlen : (FileEntry.cutPage e.meta_ off bytes i).data.length = m₀.pageBytes i := by
    rw [← hgeo.pageBytes]
    apply length_cutPage
    · rw [hgeo.pageSize]
      exact hlo
    · rw [hgeo.pageSize, hgeo.pageBytes]
      exact hhi
  unfold stepDirectWrite
  simp only
  split
  · refine hole_one hst (fun j hj => punched_write hj) ?_ ?_ nofun
    · exact fun j hj => hfull j (by simp [hj])
    · intro j hj
      simp only [written, List.map_append, List.map_cons, List.map_nil, List.mem_append,
        List.mem_singleton] at hj
      rcases hj with hj | rfl
      · exact Or.inl hj
      · -- The page just written is whole.
        refine Or.inr (not_punched_write ?_ ?_)
        · rw [hgeo.pageSize]
        · rw [hgeo.pageSize, hlen]
  · refine hole_one hst (fun j hj => punched_write hj) ?_ (fun i hi => Or.inl hi) nofun
    intro j hj
    simp at hj

theorem hole_flushBuffer (hgeo : Geometry m₀ e) (hst : StagedOk (Full m₀) e) {force : Bool}
    {r : FileEntry × Disk × List Frame} (h : stepFlushBuffer c e d force = some r) :
    HoleStep m₀ c fr e d r := by
  unfold stepFlushBuffer at h
  split at h
  · split at h
    · simp at h
    · cases h
      exact hole_stay hst rfl
  · split at h
    · cases h
      exact hole_stay hst rfl
    · cases h
      refine ⟨hst.drainSnapshot, ⟨[], ?_, by simp⟩, fun i hi => Or.inl hi, ?_, by simp [written],
        by simp⟩
      · exact (section_drainSnapshot e).extends_.trace
      · intro fr' hfr'
        rw [List.mem_singleton] at hfr'
        subst hfr'
        intro ip hip
        have hip' := hst.drainSnapshot.drainTodo hip
        refine ⟨?_, hip'.2⟩
        rw [← hgeo.npages]
        exact hip'.1

theorem hole_drainWrite (hgeo : Geometry m₀ e) (hst : StagedOk (Full m₀) e)
    {todo : List (Nat × BufPage)} {done : List (Nat × UInt32)} {force : Bool}
    (hfull : FrameFull m₀ (.drainWrite todo done force)) :
    HoleStep m₀ c (.drainWrite todo done force) e d (stepDrainWrite c e d todo done force) := by
  unfold stepDrainWrite
  split
  · rename_i first p rest
    obtain ⟨hsplit, hpages⟩ := takeRun_spec e.meta_ ((first, p) :: rest) first 0
    generalize FileEntry.takeRun e.meta_ first 0 ((first, p) :: rest) = run at hsplit hpages
    simp only at hsplit hpages ⊢
    have hrun : ∀ ip ∈ run.1, ip.1 < e.meta_.npages ∧ ip.2.data.length = e.meta_.pageBytes ip.1 := by
      intro ip hip
      obtain ⟨h1, h2⟩ := hfull ip (by rw [← hsplit]; simp [hip])
      rw [hgeo.npages, hgeo.pageBytes]
      exact ⟨h1, h2⟩
    have hcov := run_covers run.1 first hpages hrun
    split
    · refine hole_one hst (fun j hj => punched_write hj) ?_ ?_ nofun
      · exact fun ip hip => hfull ip (by rw [← hsplit]; simp [hip])
      · intro j hj
        simp only [written, List.map_append, List.map_map, List.mem_append, List.mem_map,
          Function.comp_apply] at hj
        rcases hj with ⟨pc, hpc, rfl⟩ | ⟨ip, hip, rfl⟩
        · exact Or.inl (by simpa [written] using ⟨pc.2, hpc⟩)
        · -- Every page of the run lies whole inside the bytes written.
          obtain ⟨hle, hbytes⟩ := hcov ip hip
          have hstart : ip.1 * e.meta_.pageSize =
              first * e.meta_.pageSize + (ip.1 - first) * e.meta_.pageSize := by
            rw [← Nat.add_mul]
            congr 1
            omega
          refine Or.inr (not_punched_write ?_ ?_)
          · rw [← hgeo.pageSize]
            omega
          · rw [← hgeo.pageSize, ← hgeo.pageBytes]
            omega
    · refine hole_one hst (fun j hj => punched_write hj) ?_ (fun i hi => Or.inl hi) nofun
      intro ip hip
      simp at hip
  · refine hole_one hst (fun i hi => hi) (by simp [FrameFull]) (fun j hj => ?_) nofun
    left
    simp only [written] at hj ⊢
    split at hj
    · simp at hj
    · exact hj

theorem hole_releaseRanges (hst : StagedOk (Full m₀) e) {ranges : List (Nat × Nat)} :
    HoleStep m₀ c fr e d (stepReleaseRanges e d ranges) := by
  obtain ⟨ts, hret, hsec, habs⟩ := section_releaseSection e ranges
  have htrace : ∃ ts, (e.releaseSection ranges).1.trace = e.trace ++ ts ∧
      ∀ i crc, lastPage ts i = some (true, crc) → i ∈ fr.publishing := by
    refine ⟨ts, hsec.extends_.trace, ?_⟩
    intro i crc h
    rcases hret.lastPage i with h' | h' <;> simp [h'] at h
  unfold stepReleaseRanges
  simp only
  split
  · exact ⟨hst.releaseSection ranges, htrace, fun i hi => Or.inl hi, by simp, by simp, by simp⟩
  · refine ⟨hst.releaseSection ranges, htrace, fun i hi => Or.inl hi, ?_, ?_, ?_⟩
    · simp [FrameFull]
    · simp [written]
    · intro spans h
      simp only [List.mem_cons, List.not_mem_nil, or_false, reduceCtorEq, false_or,
        Frame.punch.injEq] at h
      subst h
      exact Or.inl ⟨rfl, habs⟩

theorem hole_punch (hgeo : Geometry m₀ e) (hst : StagedOk (Full m₀) e)
    {spans : List (Nat × Nat)} :
    HoleStep m₀ c (.punch spans) e d (stepPunch c e d spans) := by
  unfold stepPunch
  split
  · rename_i span rest
    have hrel : ∀ spans, Frame.punch spans ∈ [Frame.punch rest] →
        ∃ span', Frame.punch (span :: rest) = .punch (span' :: spans) := by
      intro spans h
      simp only [List.mem_singleton, Frame.punch.injEq] at h
      exact ⟨span, by rw [h]⟩
    refine ⟨hst, ⟨[], by simp, by simp⟩, ?_, by simp [FrameFull], by simp [written],
      fun spans h => Or.inr (hrel spans h)⟩
    intro i hi
    simp only at hi
    split at hi
    · rename_i hok
      obtain ⟨k, hk₁, hk₂, hp⟩ := hi
      simp only [DataFile.punch, Bool.or_eq_true, Bool.and_eq_true, decide_eq_true_eq] at hp
      rcases hp with hp | ⟨hp₁, hp₂⟩
      · exact Or.inl ⟨k, hk₁, hk₂, hp⟩
      · -- A byte of the page is in the span, so the page is.
        right
        refine ⟨span, rest, rfl, hok, ?_, ?_⟩
        · by_contra hlt
          have hle : (i + 1) * e.meta_.pageSize ≤ span.1 * e.meta_.pageSize :=
            Nat.mul_le_mul_right _ (by omega)
          have hb := MetaData.pageBytes_le m₀ i
          rw [Nat.add_mul, Nat.one_mul, hgeo.pageSize] at hle
          rw [hgeo.pageSize] at hp₁
          omega
        · by_contra hge
          rw [Nat.sub_mul] at hp₂
          rw [hgeo.pageSize] at hp₁ hp₂
          have hle : span.2 * m₀.pageSize ≤ i * m₀.pageSize :=
            Nat.mul_le_mul_right _ (by omega)
          omega
    · exact Or.inl hi
  · exact hole_stay hst rfl

/-- Every frame, whatever it stands at. -/
theorem step_hole {r : FileEntry × Disk × List Frame} (hgeo : Geometry m₀ e)
    (hst : StagedOk (Full m₀) e) (hfull : FrameFull m₀ fr) (hstep : fr.step c e d = some r) :
    HoleStep m₀ c fr e d r := by
  cases fr with
  | flushMeta force =>
      cases hstep
      unfold stepFlushMeta
      split
      · exact hole_stay hst rfl
      · exact hole_plain [] (hst.congr rfl rfl) (by simp) (by simp) rfl rfl
  | metaLoad f =>
      cases hstep
      unfold stepMetaLoad
      split
      · exact hole_stay hst rfl
      · exact hole_stay hst rfl
  | metaStore f out merged =>
      cases hstep
      refine hole_plain [] hst (by simp) (by simp) ?_ rfl
      split <;> rfl
  | metaEnd f out merged ok =>
      cases hstep
      unfold stepMetaEnd
      split
      · split
        · exact hole_plain [] (hst.congr rfl rfl) (by simp [FileEntry.flushMetaAdopt])
            (by simp) rfl rfl
        · exact hole_stay hst rfl
      · exact hole_plain [] (hst.congr rfl rfl) (by simp [FileEntry.flushMetaFailed])
          (by simp) rfl rfl
  | touchAtime =>
      cases hstep
      unfold stepTouchAtime
      split
      · exact hole_plain [] (hst.congr rfl rfl) (by simp) (by simp) rfl rfl
      · exact hole_stay hst rfl
  | writePages off bytes => cases hstep; exact hole_writePages hgeo hst
  | directCheck off bytes todo done => cases hstep; exact hole_directCheck hst hfull
  | directWrite off bytes i todo done => cases hstep; exact hole_directWrite hgeo hst hfull
  | directPublish done =>
      cases hstep
      exact hole_plain _ (hst.directPublish done) (section_directPublish e done).extends_.trace
        (fun i crc h => List.mem_map_of_mem (lastPage_publications h).2) rfl rfl
  | flushBuffer force => exact hole_flushBuffer hgeo hst hstep
  | drainWrite todo done force => cases hstep; exact hole_drainWrite hgeo hst hfull
  | drainPublish done force =>
      cases hstep
      exact hole_plain _ (hst.drainPublish done) (section_drainPublish e done).extends_.trace
        (fun i crc h => List.mem_map_of_mem (lastPage_publications h).2) rfl rfl
  | stageSpeculative off bytes =>
      cases hstep
      exact hole_section (hst.stageSpeculative fun i hi => full_cutPage hgeo hi)
        (section_stageSpeculative e off bytes) rfl
  | dropSpeculative off len =>
      cases hstep
      exact hole_section (hst.dropSpeculative off len) (section_dropSpeculative e off len) rfl
  | consumeSpeculative off len =>
      cases hstep
      exact hole_section (hst.consumeSpeculative off len) (section_consumeSpeculative e off len) rfl
  | checkpoint =>
      simp only [step] at hstep
      split at hstep <;> (cases hstep; exact hole_stay hst rfl)
  | setPinned p =>
      cases hstep
      refine hole_plain _ (hst.congr rfl rfl) (section_setPinned e p).extends_.trace ?_ rfl rfl
      simp [lastPage, lastFor, Transition.page]
  | releaseRanges ranges => cases hstep; exact hole_releaseRanges hst
  | punch spans => cases hstep; exact hole_punch hgeo hst
  | readCached off buf account =>
      cases hstep
      unfold stepReadCached
      split
      · exact hole_stay hst rfl
      · split
        · exact hole_stay hst rfl
        · refine hole_section (hst.readPlan off buf account) (section_readPlan e off buf account) ?_
          split <;> rfl
  | readRuns off out runs account =>
      cases hstep
      unfold stepReadRuns
      split
      · simp only
        split <;> exact hole_stay hst rfl
      · refine hole_stay hst ?_
        split <;> rfl
  | readDone off out => cases hstep; exact hole_stay hst rfl
  | demote i =>
      cases hstep
      refine hole_plain _ (hst.demoteRun i) (section_demoteRun e i).extends_.trace ?_ rfl rfl
      intro j crc h
      simp only [lastPage, lastFor, Transition.page, Option.none_or] at h
      split at h <;> simp at h
  | demoteBadPages todo =>
      cases hstep
      unfold stepDemoteBadPages
      split
      · split <;> exact hole_stay hst rfl
      · exact hole_stay hst rfl
  | verifyAll i bad =>
      cases hstep
      unfold stepVerifyAll
      split
      · refine hole_stay hst ?_
        split <;> rfl
      · split <;> exact hole_stay hst rfl
  | scrubPage i expect bad =>
      cases hstep
      unfold stepScrubPage
      split <;> exact hole_stay hst rfl

end Frame

/-! ### The invariant -/

/-- The log `ts` leaves page `i` absent. -/
def ClearIn (m₀ : MetaData) (ts : List Transition) (i : Nat) : Prop :=
  ((lastPage ts i).getD (m₀.seen i)).1 = false

theorem ClearIn.append {m₀ : MetaData} {xs ys : List Transition} {i : Nat} (h : ClearIn m₀ xs i)
    (hys : ∀ crc, lastPage ys i ≠ some (true, crc)) : ClearIn m₀ (xs ++ ys) i := by
  unfold ClearIn at h ⊢
  rw [lastPage_append]
  cases hl : lastPage ys i with
  | none => simpa [hl] using h
  | some x =>
      obtain ⟨v, crc⟩ := x
      cases v with
      | true => exact absurd hl (hys crc)
      | false => simp

/-- A page in a hole, or in a span that is still to be punched, is absent: in memory, and once the
release has committed also in what the last commit took. -/
structure Holes (m₀ : MetaData) (k : Nat) (s : Machine) : Prop where
  staged : StagedOk (Full m₀) s.e
  full : ∀ t, ∀ fr ∈ s.threads t, FrameFull m₀ fr
  written : ∀ t, ∀ fr ∈ s.threads t, ∀ i ∈ fr.written, ¬ PagePunched m₀ s.disk.data i
  punched : ∀ i < m₀.npages, PagePunched m₀ s.disk.data i →
    ClearIn m₀ s.e.trace i ∧ ClearIn m₀ (s.e.trace.take k) i ∧ Begun m₀ k s
  release : ∀ t spans, .punch spans ∈ s.threads t → ∀ span ∈ spans, ∀ i < m₀.npages,
    InSpan span i → ClearIn m₀ s.e.trace i ∧
      ((∀ rest, s.threads t ≠ .flushMeta true :: rest) →
        ClearIn m₀ (s.e.trace.take k) i ∧ Begun m₀ k s)

section Invariant

variable {m₀ : MetaData} {s s' : Machine} {t k : Nat} {c : Choice}

theorem CommitInv.geometry (h : CommitInv m₀ k s) : Geometry m₀ s.e :=
  ⟨h.pageSize, congrArg Validators.originSize h.validators⟩

theorem Op.plain_frames (op : Op) : op.frames.all Frame.plain = true := by
  cases op <;> rfl

theorem holes_start {op : Op} (h : Holes m₀ k s) (hstep : s.step (.start t op) = some s') :
    Holes m₀ k s' := by
  have hbegun : Begun m₀ k s → Begun m₀ k s' := fun hb => begun_start hb hstep
  obtain ⟨ht, rfl⟩ := Machine.start_inv hstep
  have hmem : ∀ t', ∀ fr ∈ Function.update s.threads t op.frames t',
      fr ∈ s.threads t' ∨ fr.plain = true := by
    intro t' fr hfr
    by_cases h' : t' = t
    · subst h'
      rw [Function.update_self] at hfr
      exact Or.inr (List.all_eq_true.1 op.plain_frames fr hfr)
    · rw [Function.update_of_ne h'] at hfr
      exact Or.inl hfr
  refine ⟨h.staged, ?_, ?_, ?_, ?_⟩
  · intro t' fr hfr
    rcases hmem t' fr hfr with hfr | hplain
    · exact h.full t' fr hfr
    · exact (Frame.plain_spec hplain m₀).1
  · intro t' fr hfr i hi
    rcases hmem t' fr hfr with hfr | hplain
    · exact h.written t' fr hfr i hi
    · simp [(Frame.plain_spec hplain m₀).2.1] at hi
  · intro i hi hp
    obtain ⟨h1, h2, h3⟩ := h.punched i hi hp
    exact ⟨h1, h2, hbegun h3⟩
  · intro t' spans hfr span hspan i hi hin
    rcases hmem t' _ hfr with hfr' | hplain
    · obtain ⟨h1, h2⟩ := h.release t' spans hfr' span hspan i hi hin
      refine ⟨h1, ?_⟩
      intro hne
      have hne' : t' ≠ t := by
        rintro rfl
        simp [ht] at hfr'
      obtain ⟨h3, h4⟩ := h2 (by simpa [Function.update_of_ne hne'] using hne)
      exact ⟨h3, hbegun h4⟩
    · simp [Frame.plain] at hplain

/-- One step: what a frame can do to holes, together with what the step does to commits. -/
theorem holes_step {fr : Frame} {rest : List Frame} {r : FileEntry × Disk × List Frame} {k' : Nat}
    (h : Holes m₀ k s) (hinv : CommitInv m₀ k s) (ht : s.threads t = fr :: rest)
    (hr : fr.step c s.e s.disk = some r)
    (hs' : s' =
      { e := r.1, disk := r.2.1, threads := Function.update s.threads t (r.2.2 ++ rest) })
    (hinv' : CommitInv m₀ k' s')
    (hk' : (k' = k ∧ (Begun m₀ k s → Begun m₀ k' s')) ∨
      (k' = s.e.trace.length ∧ Begun m₀ k' s' ∧ TakesSnapshot s t c))
    (hpub : NoPublishBeforePunch s (.step t c)) (hpunch : NoPunchBeforePublish s (.step t c)) :
    Holes m₀ k' s' := by
  have hfr : fr ∈ s.threads t := by simp [ht]
  have hstep := Frame.step_hole hinv.geometry h.staged (h.full t fr hfr) hr
  obtain ⟨ts, htrace, hts⟩ := hstep.trace
  have htr' : s'.e.trace = s.e.trace ++ ts := by rw [hs']; exact htrace
  have hdata : s'.disk.data = r.2.1.data := by rw [hs']
  have hthreads : s'.threads = Function.update s.threads t (r.2.2 ++ rest) := by rw [hs']
  -- A frame of the new state is an old one, or one of those that replaced `fr`.
  have hmem : ∀ t', ∀ fr' ∈ s'.threads t', fr' ∈ s.threads t' ∨ (t' = t ∧ fr' ∈ r.2.2) := by
    intro t' fr' hfr'
    rw [hthreads] at hfr'
    by_cases h' : t' = t
    · subst h'
      rw [Function.update_self, List.mem_append] at hfr'
      rcases hfr' with hfr' | hfr'
      · exact Or.inr ⟨rfl, hfr'⟩
      · exact Or.inl (by simp [ht, hfr'])
    · rw [Function.update_of_ne h'] at hfr'
      exact Or.inl hfr'
  -- A page that is absent, and that this step does not publish, is absent after it.
  have hclear : ∀ i, ClearIn m₀ s.e.trace i → i ∉ fr.publishing → ClearIn m₀ s'.e.trace i := by
    intro i hi hnot
    rw [htr']
    exact hi.append fun crc hcrc => hnot (hts i crc hcrc)
  -- What a commit has taken stays taken; a snapshot takes what memory shows.
  have htaken : ∀ i, ClearIn m₀ s.e.trace i → ClearIn m₀ (s.e.trace.take k) i → Begun m₀ k s →
      ClearIn m₀ (s'.e.trace.take k') i ∧ Begun m₀ k' s' := by
    intro i h1 h2 h3
    rcases hk' with ⟨rfl, hb⟩ | ⟨rfl, hb, -⟩
    · rw [htr', List.take_append_of_le_length hinv.le_length]
      exact ⟨h2, hb h3⟩
    · rw [htr', List.take_left]
      exact ⟨h1, hb⟩
  have hwritten : ∀ i, (∃ t' fr', fr' ∈ s.threads t' ∧ i ∈ fr'.written) →
      ¬ PagePunched m₀ r.2.1.data i := by
    rintro i ⟨t', fr', hfr', hi⟩ hp
    rcases hstep.punched i hp with hp | ⟨span, spans, rfl, hok, hin⟩
    · exact h.written t' fr' hfr' i hi hp
    · exact hpunch span spans rest ht hok t' fr' hfr' i hi hin
  refine ⟨by rw [hs']; exact hstep.staged, ?_, ?_, ?_, ?_⟩
  · intro t' fr' hfr'
    rcases hmem t' fr' hfr' with hold | ⟨-, hnew⟩
    · exact h.full t' fr' hold
    · exact hstep.full fr' hnew
  · intro t' fr' hfr' i hi
    rw [hdata]
    rcases hmem t' fr' hfr' with hold | ⟨-, hnew⟩
    · exact hwritten i ⟨t', fr', hold, hi⟩
    · rcases hstep.written fr' hnew i hi with hold | hnot
      · exact hwritten i ⟨t, fr, hfr, hold⟩
      · exact hnot
  · intro i hi hp
    rw [hdata] at hp
    have hnotpub : i ∉ fr.publishing := fun hpubl =>
      hwritten i ⟨t, fr, hfr, Frame.written_of_publishing hpubl⟩ hp
    rcases hstep.punched i hp with hp' | ⟨span, spans, rfl, hok, hin⟩
    · obtain ⟨h1, h2, h3⟩ := h.punched i hi hp'
      exact ⟨hclear i h1 hnotpub, htaken i h1 h2 h3⟩
    · -- The punch of a span comes after the commit that made its pages absent.
      obtain ⟨h1, h2⟩ := h.release t (span :: spans) hfr span (by simp) i hi hin
      obtain ⟨h3, h4⟩ := h2 (by intro rest'; simp [ht])
      exact ⟨hclear i h1 hnotpub, htaken i h1 h3 h4⟩
  · intro t' spans hfr' span hspan i hi hin
    have hold : ∀ (hspans : .punch spans ∈ s.threads t'),
        ClearIn m₀ s'.e.trace i ∧ ((∀ rest, s'.threads t' ≠ .flushMeta true :: rest) →
          ClearIn m₀ (s'.e.trace.take k') i ∧ Begun m₀ k' s') := by
      intro hspans
      obtain ⟨h1, h2⟩ := h.release t' spans hspans span hspan i hi hin
      have hnotpub : i ∉ fr.publishing := fun hpubl =>
        hpub fr rest ht i hpubl t' spans hspans span hspan hin
      have h₁' := hclear i h1 hnotpub
      refine ⟨h₁', ?_⟩
      intro hne
      by_cases hwas : ∃ rest', s.threads t' = .flushMeta true :: rest'
      · -- The release's own commit: it took its snapshot, or there was nothing to take.
        obtain ⟨rest', hrest'⟩ := hwas
        have heq : t' = t := by
          by_contra hne'
          apply hne rest'
          rw [hthreads, Function.update_of_ne hne']
          exact hrest'
        subst heq
        rw [ht] at hrest'
        cases hrest'
        have hclean : s'.e.dirty = false := by
          rw [hs']
          simp only [Frame.step, Frame.stepFlushMeta, Option.some.injEq] at hr
          split at hr
          · rename_i hearly
            rw [← hr]
            simpa using hearly
          · rw [← hr]
            rfl
        refine ⟨?_, hinv'.begun_of_clean hclean⟩
        rw [hinv'.clean hclean, List.take_length]
        exact h₁'
      · obtain ⟨h3, h4⟩ := h2 fun rest' hrest' => hwas ⟨rest', hrest'⟩
        exact htaken i h1 h3 h4
    rcases hmem t' _ hfr' with hspans | ⟨rfl, hnew⟩
    · exact hold hspans
    · rcases hstep.release spans hnew with ⟨hframes, habs⟩ | ⟨span', rfl⟩
      · -- The release section has just made the page absent; its commit is still ahead.
        refine ⟨?_, ?_⟩
        · have hseen : s'.e.meta_.seen i = (false, 0) := by
            have hbit : s'.e.meta_.bitmap.get i = false := by
              rw [hs']
              exact habs span hspan i hin
            simp [MetaData.seen, hbit]
          rw [hinv'.view i hi] at hseen
          simp [ClearIn, hseen]
        · intro hne
          exfalso
          apply hne ([.punch spans] ++ rest)
          rw [hthreads, Function.update_self, hframes]
          rfl
      · obtain ⟨h1, h2⟩ := h.release t' (span' :: spans) hfr span (by simp [hspan]) i hi hin
        obtain ⟨h3, h4⟩ := h2 (by intro rest'; simp [ht])
        refine ⟨hclear i h1 (by simp [Frame.publishing]), fun _ => htaken i h1 h3 h4⟩

theorem holes_opened (cfg : Config) (key : Bytes) (v : Validators) (now : Nat) (stored : Bool)
    (sidecar : Option MetaData) (data : DataFile) (m₀ : MetaData) :
    Holes m₀ 0 (Machine.opened cfg key v now stored sidecar data) := by
  have hstaged : ∀ e, (∃ m dirty, e = FileEntry.ofMeta cfg key m dirty) → StagedOk (Full m₀) e := by
    rintro e ⟨m, dirty, rfl⟩ i p hp
    simp [FileEntry.ofMeta] at hp
  unfold Machine.opened
  split
  · rename_i e he
    obtain ⟨d, m, -, rfl, -, -, -⟩ := openAdopt_eq_some he
    refine ⟨hstaged _ ⟨d, false, rfl⟩, by simp, by simp, ?_, by simp⟩
    rintro i - ⟨k, -, -, hp⟩
    simp at hp
  · refine ⟨hstaged _ ⟨_, _, rfl⟩, by simp, by simp, ?_, by simp⟩
    rintro i - ⟨k, -, -, hp⟩
    simp [DataFile.truncate] at hp

/-- The invariant along a run whose steps keep publications and punches apart. -/
theorem holes_run {cfg : Config} {key : Bytes} {v : Validators} {now : Nat} {stored : Bool}
    {sidecar : Option MetaData} {data : DataFile} {acts : List MachineAct}
    (halong : Along Machine.step HoleCond
      (Machine.opened cfg key v now stored sidecar data) acts)
    (hrun : exec Machine.step (Machine.opened cfg key v now stored sidecar data) acts = some s) :
    ∃ m₀ k, CommitInv m₀ k s ∧ Holes m₀ k s := by
  refine ⟨(Machine.opened cfg key v now stored sidecar data).e.meta_, ?_⟩
  refine exec_invariant_along (fun s => ∃ k, CommitInv _ k s ∧ Holes _ k s) ?_
    ⟨0, commitInv_opened cfg key v now stored sidecar data,
      holes_opened cfg key v now stored sidecar data _⟩ halong hrun
  rintro s a s' ⟨k, hinv, hholes⟩ hcond hstep
  obtain ⟨k', hinv', hk'⟩ := commitInv_step hinv hcond.noOverlap hcond.stores hstep
  refine ⟨k', hinv', ?_⟩
  cases a with
  | start t op =>
      rcases hk' with ⟨rfl, -⟩ | ⟨-, -, t', c', h, -⟩
      · exact holes_start hholes hstep
      · simp at h
  | step t c =>
      obtain ⟨fr, rest, r, ht, hr, hs'⟩ := Machine.step_inv hstep
      refine holes_step hholes hinv ht hr hs' hinv' ?_ hcond.publish hcond.punch
      rcases hk' with h | ⟨h1, h2, t', c', h, hsnap⟩
      · exact Or.inl h
      · cases h
        exact Or.inr ⟨h1, h2, hsnap⟩

end Invariant

/-- Releases, drains, unbuffered writes, commits and reads of one handle in any order.  If commits
do not overlap and their stores succeed, no page is published between its retraction by
`releaseRanges` and the punch of its span, and no span is punched over a page that is written and
not yet published, then when all calls have returned no page with a byte in a hole is marked
present, in memory or in the sidecar. -/
theorem no_bit_over_hole {cfg : Config} {key : Bytes} {v : Validators} {now : Nat}
    {stored : Bool} {sidecar : Option MetaData} {data : DataFile} {acts : List MachineAct}
    {s : Machine}
    (halong : Along Machine.step HoleCond
      (Machine.opened cfg key v now stored sidecar data) acts)
    (hrun : exec Machine.step (Machine.opened cfg key v now stored sidecar data) acts = some s)
    (hidle : s.idle) {i : Nat} (hi : i < s.e.meta_.npages)
    (hp : PagePunched s.e.meta_ s.disk.data i) :
    s.e.meta_.bitmap.get i = false ∧
      ∀ m, s.disk.sidecar = some m → m.bitmap.get i = false := by
  obtain ⟨m₀, k, hinv, hholes⟩ := holes_run halong hrun
  have hgeo := hinv.geometry
  have hi' : i < m₀.npages := by rw [← hgeo.npages]; exact hi
  have hp' : PagePunched m₀ s.disk.data i := by
    simpa only [PagePunched, hgeo.pageSize, hgeo.pageBytes] using hp
  have hbit : ∀ (m : MetaData) (ts : List Transition), Shows m₀ m ts → ClearIn m₀ ts i →
      m.bitmap.get i = false := by
    intro m ts hshow hclear
    have hseen : (m.seen i).1 = false := by
      rw [hshow i hi']
      exact hclear
    unfold MetaData.seen at hseen
    split at hseen
    · simp at hseen
    · rename_i hb
      simpa using hb
  obtain ⟨hnow, htaken, hbegun⟩ := hholes.punched i hi' hp'
  refine ⟨hbit _ _ hinv.view hnow, ?_⟩
  rcases hbegun with ⟨t, ht⟩ | ⟨m, hm, hshow⟩
  · simp [hidle t] at ht
  · intro m' hm'
    rw [hm] at hm'
    cases hm'
    exact hbit _ _ hshow htaken

/-! ### Runs of finitely many threads -/

instance (span : Nat × Nat) (i : Nat) : Decidable (InSpan span i) := instDecidableAnd

/-- Page `i` is in a span the frame has still to punch. -/
def Frame.willPunch (i : Nat) : Frame → Bool
  | .punch spans => spans.any fun span => decide (InSpan span i)
  | _ => false

/-- `HoleCond`, evaluated for a machine on which only the threads `ts` are active. -/
def holeCheck (ts : List Nat) (s : Machine) (a : MachineAct) : Bool :=
  commitCheck ts s a &&
    match a with
    | .start _ _ => true
    | .step t c =>
        match s.threads t with
        | .punch (span :: _) :: _ =>
            !c.ok || ts.all fun t' => (s.threads t').all fun fr =>
              fr.written.all fun i => !decide (InSpan span i)
        | fr :: _ =>
            fr.publishing.all fun i => ts.all fun t' => (s.threads t').all fun fr' =>
              !fr'.willPunch i
        | [] => true

theorem holeCheck_sound {ts : List Nat} {s : Machine} {a : MachineAct}
    (hs : ∀ t ∉ ts, s.threads t = []) (h : holeCheck ts s a = true) : HoleCond s a := by
  simp only [holeCheck, Bool.and_eq_true] at h
  obtain ⟨hcommit, h⟩ := h
  obtain ⟨hno, hst⟩ := commitCheck_sound hs hcommit
  have hmem : ∀ t' fr, fr ∈ s.threads t' → t' ∈ ts := by
    intro t' fr hfr
    by_contra hnot
    simp [hs t' hnot] at hfr
  cases a with
  | start t op => exact ⟨hno, hst, trivial, trivial⟩
  | step t c =>
      refine ⟨hno, hst, ?_, ?_⟩
      · intro fr rest ht i hi t' spans hspans span hspan hin
        simp only [ht] at h
        split at h
        · rename_i heq
          cases heq
          simp [Frame.publishing] at hi
        · rename_i heq
          cases heq
          have := List.all_eq_true.1 (List.all_eq_true.1 (List.all_eq_true.1 h i hi) t'
            (hmem t' _ hspans)) _ hspans
          simp only [Frame.willPunch, Bool.not_eq_true', List.any_eq_false,
            decide_eq_true_eq] at this
          exact this span hspan hin
        · rename_i heq
          simp at heq
      · intro span spans rest ht hok t' fr hfr i hi hin
        simp only [ht, hok, Bool.not_true, Bool.false_or] at h
        have := List.all_eq_true.1 (List.all_eq_true.1 (List.all_eq_true.1 h t'
          (hmem t' _ hfr)) _ hfr) i hi
        simp [hin] at this

theorem along_holeCond (ts : List Nat) {s : Machine} {acts : List MachineAct}
    (hs : ∀ t ∉ ts, s.threads t = []) (hts : ∀ a ∈ acts, a.thread ∈ ts)
    (h : alongB Machine.step (holeCheck ts) s acts = true) :
    Along Machine.step HoleCond s acts := by
  refine along_of_check (fun s => ∀ t ∉ ts, s.threads t = [])
    (fun a => a.thread ∈ ts) ?_ (fun _ _ hs _ => holeCheck_sound hs) hs hts h
  intro s a s' hs ha hstep t ht
  refine (Machine.step_threads_of_ne hstep ?_).trans (hs t ht)
  rintro rfl
  exact ht ha

/-! ### A publication that crosses a release -/

/-- A one-page file of 4 KiB, freshly opened. -/
def onePageEntry : Machine :=
  Machine.opened {} [102] { originSize := 4096 } 0 true none (DataFile.truncate 0)

/-- A page of the origin. -/
def onePage : Bytes := List.replicate 4096 1

/-- Thread 1 fills, drains, publishes and commits page 0; then thread 2 releases it. -/
def releaseRun : List MachineAct :=
  [.start 1 (.writePages 0 onePage), .step 1 {}, .step 1 {}, .step 1 {}, .step 1 {}, .step 1 {},
    .step 1 {}, .step 1 {}, .step 1 {}, .step 1 {}, .step 1 {},
    .start 2 (.releaseRanges [(0, 4096)]), .step 2 {}, .step 2 {}, .step 2 {}, .step 2 {},
    .step 2 {}, .step 2 {}, .step 2 {}]

/-- A page written and then released: a hole, and its bit is clear. -/
theorem released_page_is_clear :
    ∃ s, exec Machine.step onePageEntry releaseRun = some s ∧
      PagePunched s.e.meta_ s.disk.data 0 ∧ s.e.meta_.bitmap.get 0 = false ∧
      ∀ m, s.disk.sidecar = some m → m.bitmap.get 0 = false := by
  have hobs : (exec Machine.step onePageEntry releaseRun).map
      (fun s => (s.threads 1).isEmpty && (s.threads 2).isEmpty &&
        decide (s.e.meta_.pageSize = 4096) && decide (s.e.meta_.fileSize = 4096) &&
        s.disk.data.punched 0) = some true := by decide +kernel
  obtain ⟨s, hs, hobs⟩ := Option.map_eq_some_iff.1 hobs
  simp only [Bool.and_eq_true, List.isEmpty_iff, decide_eq_true_eq] at hobs
  obtain ⟨⟨⟨⟨h1, h2⟩, hps⟩, hfs⟩, hpunched⟩ := hobs
  have hidle : s.idle :=
    Machine.idle_of_threads [1, 2] hs (fun _ => rfl) (by decide) (by simp [h1, h2])
  have hn : 0 < s.e.meta_.npages := by
    simp [MetaData.npages, MetaData.pagesOf, hps, hfs]
  have hp : PagePunched s.e.meta_ s.disk.data 0 :=
    ⟨0, by omega, by simp [MetaData.pageBytes, hps, hfs], hpunched⟩
  have halong : Along Machine.step HoleCond onePageEntry releaseRun :=
    along_holeCond [1, 2] (fun _ _ => rfl) (by decide) (by decide +kernel)
  exact ⟨s, hs, hp, no_bit_over_hole halong hs hidle hn hp⟩

/-- Thread 1 fills page 0 and its drain writes the page; thread 2 releases the page, which finds no
bit to retract, and punches it; thread 1 publishes and commits the page. -/
def lateRun : List MachineAct :=
  [.start 1 (.writePages 0 onePage), .step 1 {}, .step 1 {}, .step 1 {}, .step 1 {}, .step 1 {},
    .start 2 (.releaseRanges [(0, 4096)]), .step 2 {}, .step 2 {}, .step 2 {}, .step 2 {},
    .step 1 {}, .step 1 {}, .step 1 {}, .step 1 {}, .step 1 {}]

/-- A publish after the punch sets a bit over the hole. -/
theorem late_publish_over_hole :
    ¬ ∀ (acts : List MachineAct) (s : Machine), exec Machine.step onePageEntry acts = some s →
        s.idle → ∀ i < s.e.meta_.npages, PagePunched s.e.meta_ s.disk.data i →
          s.e.meta_.bitmap.get i = false ∧
            ∀ m, s.disk.sidecar = some m → m.bitmap.get i = false := by
  intro h
  have hobs : (exec Machine.step onePageEntry lateRun).map
      (fun s => (s.threads 1).isEmpty && (s.threads 2).isEmpty &&
        decide (s.e.meta_.pageSize = 4096) && decide (s.e.meta_.fileSize = 4096) &&
        s.disk.data.punched 0 && s.e.meta_.bitmap.get 0) = some true := by decide +kernel
  obtain ⟨s, hs, hobs⟩ := Option.map_eq_some_iff.1 hobs
  simp only [Bool.and_eq_true, List.isEmpty_iff, decide_eq_true_eq] at hobs
  obtain ⟨⟨⟨⟨⟨h1, h2⟩, hps⟩, hfs⟩, hpunched⟩, hbit⟩ := hobs
  have hidle : s.idle :=
    Machine.idle_of_threads [1, 2] hs (fun _ => rfl) (by decide) (by simp [h1, h2])
  have hn : 0 < s.e.meta_.npages := by
    simp [MetaData.npages, MetaData.pagesOf, hps, hfs]
  have hp : PagePunched s.e.meta_ s.disk.data 0 :=
    ⟨0, by omega, by simp [MetaData.pageBytes, hps, hfs], hpunched⟩
  simp [(h lateRun s hs hidle 0 hn hp).1] at hbit

end UCache
