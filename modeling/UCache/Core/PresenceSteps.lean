/-
Module: UCache.Core.PresenceSteps
Purpose: One step of a thread.  What a thread carries names only pages of the file, so every step
  keeps the counts and the complete flag of its handle right, and stores only sidecars that agree
  with themselves.
Trusted boundary: none
Main exports: Frame.Within, FlagsStep, step_flags
-/
import UCache.Core.PresenceFlags
import UCache.Core.Reading

namespace UCache

open Lib

/-- What a thread carries is about the `n` pages of its handle's file. -/
def Frame.Within (n : Nat) : Frame → Prop
  | .metaLoad f => SnapshotOk n f
  | .metaStore f out _ => SnapshotOk n f ∧ out.Consistent ∧ out.npages = n
  | .metaEnd f out _ _ => SnapshotOk n f ∧ out.Consistent ∧ out.npages = n
  | .directCheck _ _ todo done => (∀ i ∈ todo, i < n) ∧ ∀ pc ∈ done, pc.1 < n
  | .directWrite _ _ i todo done => (∀ j ∈ i :: todo, j < n) ∧ ∀ pc ∈ done, pc.1 < n
  | .directPublish done => done ≠ [] ∧ ∀ pc ∈ done, pc.1 < n
  | .drainWrite todo done _ => (∀ ip ∈ todo, ip.1 < n) ∧ ∀ pc ∈ done, pc.1 < n
  | .drainPublish done _ => ∀ pc ∈ done, pc.1 < n
  | .readRuns _ _ runs _ => ∀ r ∈ runs, r.firstPage + r.expect.length ≤ n
  | .demote i => i < n
  | .demoteBadPages todo => ∀ pc ∈ todo, pc.1 < n
  | .scrubPage i _ _ => i < n
  | _ => True

/-- What the step of a frame must keep. -/
structure FlagsStep (n : Nat) (d : Disk) (r : FileEntry × Disk × List Frame) : Prop where
  handle : FlagsOk n r.1
  sidecar : r.2.1.sidecar = d.sidecar ∨ ∃ m, r.2.1.sidecar = some m ∧ m.Consistent
  frames : ∀ fr ∈ r.2.2, fr.Within n

section Steps

variable {n : Nat} {c : Choice} {e e' : FileEntry} {d d' : Disk}

/-- A step that leaves the sidecar alone. -/
theorem flags_of_handle {frames : List Frame} (h : FlagsOk n e') (hd : d'.sidecar = d.sidecar)
    (hfr : ∀ fr ∈ frames, fr.Within n) : FlagsStep n d (e', d', frames) :=
  ⟨h, Or.inl hd, hfr⟩

theorem within_one {fr : Frame} (h : fr.Within n) : ∀ fr' ∈ [fr], fr'.Within n := by
  intro fr' hfr'
  rw [List.mem_singleton.1 hfr']
  exact h

theorem within_two {fr₁ fr₂ : Frame} (h1 : fr₁.Within n) (h2 : fr₂.Within n) :
    ∀ fr' ∈ [fr₁, fr₂], fr'.Within n := by
  intro fr' hfr'
  rcases List.mem_cons.1 hfr' with rfl | hfr'
  · exact h1
  · exact within_one h2 fr' hfr'

theorem within_none : ∀ fr' ∈ ([] : List Frame), fr'.Within n := by simp

/-! ### The commit -/

theorem flags_flushMeta (h : FlagsOk n e) {force : Bool} :
    FlagsStep n d (Frame.stepFlushMeta c e d force) := by
  unfold Frame.stepFlushMeta
  split
  · exact flags_of_handle h rfl within_none
  · exact flags_of_handle h.flushMetaBegin rfl (within_one h.snapshot)

theorem flags_metaLoad (h : FlagsOk n e) {f : MetaFlush} (hf : SnapshotOk n f)
    (hside : ∀ m, d.sidecar = some m → m.Consistent) :
    FlagsStep n d (Frame.stepMetaLoad e d f) := by
  unfold Frame.stepMetaLoad
  split
  · exact flags_of_handle h rfl within_none
  · exact flags_of_handle h rfl (within_one ⟨hf, hf.image e.cfg e.key hside⟩)

theorem flags_metaStore (h : FlagsOk n e) {f : MetaFlush} {out : MetaData} {merged : Bool}
    (hfr : (Frame.metaStore f out merged).Within n) :
    FlagsStep n d (Frame.stepMetaStore c e d f out merged) := by
  refine ⟨h, ?_, within_one hfr⟩
  unfold Frame.stepMetaStore
  cases c.ok with
  | true => exact Or.inr ⟨out, rfl, hfr.2.1⟩
  | false => exact Or.inl rfl

theorem flags_metaEnd (h : FlagsOk n e) {f : MetaFlush} {out : MetaData} {merged ok : Bool} :
    FlagsStep n d (Frame.stepMetaEnd e d f out merged ok) := by
  refine flags_of_handle ?_ rfl within_none
  split
  · split
    · exact h.flushMetaAdopt out
    · exact h
  · exact h.flushMetaFailed f

theorem flags_touchAtime (h : FlagsOk n e) : FlagsStep n d (Frame.stepTouchAtime c e d) := by
  refine flags_of_handle ?_ rfl within_none
  split
  · exact ⟨⟨h.meta_.pageSize, h.meta_.fileSize, h.meta_.bitmap, h.meta_.crcs, h.meta_.complete⟩,
      h.npages, h.setSince, h.clearedSince⟩
  · exact h

/-! ### Writing -/

variable {off : Nat}

theorem wholePages_below (h : FlagsOk n e) {stop : Nat} :
    ∀ i ∈ FileEntry.wholePages e.meta_ off stop, i < n := fun _ hi =>
  h.npages ▸ (mem_wholePages hi).1

theorem flags_writePages (h : FlagsOk n e) {bytes : Bytes} :
    FlagsStep n d (Frame.stepWritePages e d off bytes) := by
  unfold Frame.stepWritePages
  simp only
  split
  · exact flags_of_handle h rfl within_none
  · split
    · exact flags_of_handle h rfl (within_one ⟨wholePages_below h, by simp⟩)
    · refine flags_of_handle ((Untouched.stagePages e off bytes).flagsOk h) rfl ?_
      split
      · exact within_two trivial trivial
      · exact within_none

theorem flags_directCheck (h : FlagsOk n e) {bytes : Bytes} {todo : List Nat}
    {done : List (Nat × UInt32)} (hfr : (Frame.directCheck off bytes todo done).Within n) :
    FlagsStep n d (Frame.stepDirectCheck c e d off bytes todo done) := by
  obtain ⟨htodo, hdone⟩ := hfr
  unfold Frame.stepDirectCheck
  cases todo with
  | nil =>
      simp only
      split
      · exact flags_of_handle h rfl within_none
      · rename_i hgo
        refine flags_of_handle h rfl (within_one ⟨?_, hdone⟩)
        rintro rfl
        simp at hgo
  | cons i rest =>
      simp only
      split
      · exact flags_of_handle h rfl
          (within_one ⟨fun j hj => htodo j (List.mem_cons_of_mem _ hj), hdone⟩)
      · exact flags_of_handle h rfl (within_one ⟨htodo, hdone⟩)

theorem flags_directWrite (h : FlagsOk n e) {i : Nat} {bytes : Bytes} {todo : List Nat}
    {done : List (Nat × UInt32)} (hfr : (Frame.directWrite off bytes i todo done).Within n) :
    FlagsStep n d (Frame.stepDirectWrite c e d off bytes i todo done) := by
  obtain ⟨htodo, hdone⟩ := hfr
  unfold Frame.stepDirectWrite
  simp only
  split
  · refine flags_of_handle h rfl (within_one ⟨fun j hj => htodo j (List.mem_cons_of_mem _ hj), ?_⟩)
    intro pc hpc
    rcases List.mem_append.1 hpc with hpc | hpc
    · exact hdone pc hpc
    · rw [List.mem_singleton.1 hpc]
      exact htodo i (List.mem_cons_self ..)
  · exact flags_of_handle h rfl (within_one ⟨by simp, hdone⟩)

/-! ### The drain -/

theorem drainTodo_below (h : FlagsOk n e) : ∀ ip ∈ e.drainTodo, ip.1 < n := by
  intro ip hip
  obtain ⟨i, hi, hmap⟩ := List.mem_filterMap.1 hip
  obtain ⟨p, -, rfl⟩ := Option.map_eq_some_iff.1 hmap
  exact h.npages ▸ List.mem_range.1 hi

theorem flags_flushBuffer (h : FlagsOk n e) {force : Bool} {r : FileEntry × Disk × List Frame}
    (hr : Frame.stepFlushBuffer c e d force = some r) : FlagsStep n d r := by
  unfold Frame.stepFlushBuffer at hr
  split at hr
  · split at hr
    · cases hr
    · cases hr
      exact flags_of_handle h rfl within_none
  · split at hr
    · cases hr
      exact flags_of_handle h rfl within_none
    · cases hr
      have hsnap := (Untouched.drainSnapshot e).flagsOk h
      exact flags_of_handle hsnap rfl (within_one ⟨drainTodo_below hsnap, by simp⟩)

theorem flags_drainWrite (h : FlagsOk n e) {todo : List (Nat × BufPage)}
    {done : List (Nat × UInt32)} {force : Bool}
    (hfr : (Frame.drainWrite todo done force).Within n) :
    FlagsStep n d (Frame.stepDrainWrite c e d todo done force) := by
  obtain ⟨htodo, hdone⟩ := hfr
  unfold Frame.stepDrainWrite
  cases todo with
  | nil =>
      refine flags_of_handle h rfl (within_one fun pc hpc => ?_)
      split at hpc
      · cases hpc
      · exact hdone pc hpc
  | cons ip rest =>
      obtain ⟨first, p⟩ := ip
      have hrun := (takeRun_spec e.meta_ ((first, p) :: rest) first 0).1
      rw [← hrun] at htodo
      simp only
      split
      · refine flags_of_handle h rfl
          (within_one ⟨fun ip hip => htodo ip (List.mem_append_right _ hip), ?_⟩)
        intro pc hpc
        rcases List.mem_append.1 hpc with hpc | hpc
        · exact hdone pc hpc
        · obtain ⟨ip, hip, rfl⟩ := List.mem_map.1 hpc
          exact htodo ip (List.mem_append_left _ hip)
      · exact flags_of_handle h rfl (within_one ⟨by simp, hdone⟩)

/-! ### Reading -/

/-- A run of pages of the file. -/
structure RunBelow (n : Nat) (r : FileEntry.ReadRun) : Prop where
  length : r.firstPage + r.expect.length = r.lastPage + 1
  below : r.lastPage < n

theorem addToRuns_below {m : MetaData} {i : Nat} {crc : UInt32} {runs : List FileEntry.ReadRun}
    (hi : i < n) (hruns : ∀ r ∈ runs, RunBelow n r) :
    ∀ r ∈ FileEntry.addToRuns m i crc runs, RunBelow n r := by
  have hnew : RunBelow n { firstPage := i, lastPage := i, expect := [crc] } := ⟨rfl, hi⟩
  cases runs with
  | nil =>
      intro r hr
      rw [List.mem_singleton.1 hr]
      exact hnew
  | cons r₀ rest =>
      simp only [FileEntry.addToRuns]
      split
      · intro r hr
        rcases List.mem_cons.1 hr with rfl | hr
        · have hlen := (hruns r₀ (List.mem_cons_self ..)).length
          refine ⟨?_, hi⟩
          simp only [List.length_append, List.length_singleton]
          omega
        · exact hruns r (List.mem_cons_of_mem _ hr)
      · intro r hr
        rcases List.mem_cons.1 hr with rfl | hr
        · exact hnew
        · exact hruns r hr

theorem planPages_below (off len : Nat) (account : Bool) :
    ∀ (pages : List Nat) (st : FileEntry.ReadPlan), (∀ i ∈ pages, i < n) →
      (∀ r ∈ st.runs, RunBelow n r) →
      ∀ r ∈ (FileEntry.planPages off len account st pages).1.runs, RunBelow n r
  | [], _, _, hruns => hruns
  | i :: rest, st, hpages, hruns => by
      unfold FileEntry.planPages
      split
      · rename_i st' hst
        refine planPages_below off len account rest st'
          (fun j hj => hpages j (List.mem_cons_of_mem _ hj)) ?_
        unfold FileEntry.planPage at hst
        simp only at hst
        split at hst
        · cases hst
          exact hruns
        · split at hst
          · cases hst
            exact addToRuns_below (hpages i (List.mem_cons_self ..)) hruns
          · cases hst
      · exact hruns

/-- The pages a read asks for. -/
theorem request_below (h : FlagsOk n e) {off len : Nat} (hlen : 0 < len)
    (hend : off + len ≤ e.meta_.fileSize) :
    ∀ i ∈ List.range' (off / e.meta_.pageSize)
      ((off + len - 1) / e.meta_.pageSize + 1 - off / e.meta_.pageSize), i < n := by
  intro i hi
  rw [List.mem_range'_1] at hi
  have hle : off / e.meta_.pageSize ≤ (off + len - 1) / e.meta_.pageSize :=
    Nat.div_le_div_right (by omega)
  exact h.npages ▸ (page_overlaps h.meta_.pageSize_pos hlen hend hi.1 (by omega)).1

theorem flags_readCached (h : FlagsOk n e) {buf : Bytes} {account : Bool} :
    FlagsStep n d (Frame.stepReadCached e d off buf account) := by
  unfold Frame.stepReadCached
  split
  · exact flags_of_handle h rfl (within_one trivial)
  · rename_i hne
    split
    · exact flags_of_handle h rfl within_none
    · rename_i hfits
      have hpages := @request_below _ _ h off buf.length
        (List.length_pos_iff.2 (by simpa using hne)) (by omega)
      have hruns := planPages_below off buf.length account _ { e := e, out := buf, runs := [] }
        hpages (by simp)
      refine flags_of_handle ((Untouched.readPlan e off buf account).flagsOk h) rfl ?_
      split
      · refine within_one fun r hr => ?_
        have hrun := hruns r (List.mem_reverse.1 hr)
        have hlen := hrun.length
        have hbelow := hrun.below
        omega
      · exact within_none

/-- The page a check fails at is a page of the run. -/
theorem verifyRun_page_below {m : MetaData} :
    ∀ (expect : List UInt32) (i : Nat) (got : Bytes) {j : Nat},
      FileEntry.verifyRun m i expect got = .mismatch j → j < i + expect.length
  | [], _, _, _, h => by cases h
  | crc :: rest, i, got, j, h => by
      unfold FileEntry.verifyRun at h
      rw [List.length_cons]
      split at h
      · cases h
      · split at h
        · cases h
          omega
        · have := verifyRun_page_below rest (i + 1) _ h
          omega

theorem flags_readRuns (h : FlagsOk n e) {out : Bytes} {runs : List FileEntry.ReadRun}
    {account : Bool} (hfr : (Frame.readRuns off out runs account).Within n) :
    FlagsStep n d (Frame.stepReadRuns c e d off out runs account) := by
  unfold Frame.stepReadRuns
  cases runs with
  | nil =>
      simp only
      split
      · exact flags_of_handle h rfl (within_two trivial trivial)
      · exact flags_of_handle h rfl (within_one trivial)
  | cons r rest =>
      have hr : r.firstPage + r.expect.length ≤ n := hfr r (List.mem_cons_self ..)
      simp only
      split
      · exact flags_of_handle h rfl
          (within_one fun r' hr' => hfr r' (List.mem_cons_of_mem _ hr'))
      · rename_i hcheck
        exact flags_of_handle h rfl
          (within_one (Nat.lt_of_lt_of_le (verifyRun_page_below _ _ _ hcheck) hr))
      · refine flags_of_handle h rfl (within_one fun pc hpc => ?_)
        have hmem : pc.1 ∈ List.range' r.firstPage r.expect.length :=
          (List.of_mem_zip (List.mem_of_mem_drop hpc)).1
        rw [List.mem_range'_1] at hmem
        omega

theorem flags_demoteBadPages (h : FlagsOk n e) {todo : List (Nat × UInt32)}
    (hfr : (Frame.demoteBadPages todo).Within n) :
    FlagsStep n d (Frame.stepDemoteBadPages c e d todo) := by
  unfold Frame.stepDemoteBadPages
  cases todo with
  | nil => exact flags_of_handle h rfl within_none
  | cons pc rest =>
      have hrest : (Frame.demoteBadPages rest).Within n := fun pc' hpc =>
        hfr pc' (List.mem_cons_of_mem _ hpc)
      simp only
      split
      · exact flags_of_handle h rfl (within_one hrest)
      · exact flags_of_handle h rfl (within_two (hfr pc (List.mem_cons_self ..)) hrest)

theorem flags_verifyAll (h : FlagsOk n e) {i : Nat} {bad : Bool} :
    FlagsStep n d (Frame.stepVerifyAll e d i bad) := by
  unfold Frame.stepVerifyAll
  split
  · refine flags_of_handle h rfl ?_
    split
    · exact within_one trivial
    · exact within_none
  · rename_i hi
    split
    · exact flags_of_handle h rfl (within_one (h.npages ▸ Nat.lt_of_not_le hi))
    · exact flags_of_handle h rfl (within_one trivial)

theorem flags_scrubPage (h : FlagsOk n e) {i : Nat} {expect : UInt32} {bad : Bool} (hi : i < n) :
    FlagsStep n d (Frame.stepScrubPage c e d i expect bad) := by
  unfold Frame.stepScrubPage
  split
  · exact flags_of_handle h rfl (within_one trivial)
  · exact flags_of_handle h rfl (within_two hi trivial)
  · refine flags_of_handle h rfl (within_two (fun pc hpc => ?_) trivial)
    rw [List.mem_singleton.1 hpc]
    exact hi

/-! ### Every step -/

/-- A step keeps the counts and the flag of its handle right, and what it stores agrees with
itself. -/
theorem step_flags {fr : Frame} {r : FileEntry × Disk × List Frame} (h : FlagsOk n e)
    (hfr : fr.Within n) (hside : ∀ m, d.sidecar = some m → m.Consistent)
    (hr : fr.step c e d = some r) : FlagsStep n d r := by
  cases fr with
  | flushMeta force =>
      cases hr
      exact flags_flushMeta h
  | metaLoad f =>
      cases hr
      exact flags_metaLoad h hfr hside
  | metaStore f out merged =>
      cases hr
      exact flags_metaStore h hfr
  | metaEnd f out merged ok =>
      cases hr
      exact flags_metaEnd h
  | touchAtime =>
      cases hr
      exact flags_touchAtime h
  | writePages off bytes =>
      cases hr
      exact flags_writePages h
  | directCheck off bytes todo done =>
      cases hr
      exact flags_directCheck h hfr
  | directWrite off bytes i todo done =>
      cases hr
      exact flags_directWrite h hfr
  | directPublish done =>
      cases hr
      exact flags_of_handle (h.directPublish hfr.1 hfr.2) rfl (within_two trivial trivial)
  | flushBuffer force => exact flags_flushBuffer h hr
  | drainWrite todo done force =>
      cases hr
      exact flags_drainWrite h hfr
  | drainPublish done force =>
      cases hr
      exact flags_of_handle (h.drainPublish hfr) rfl (within_one trivial)
  | stageSpeculative off bytes =>
      cases hr
      exact flags_of_handle ((Untouched.stageSpeculative e off bytes).flagsOk h) rfl within_none
  | dropSpeculative off len =>
      cases hr
      exact flags_of_handle ((Untouched.dropSpeculative e off len).flagsOk h) rfl within_none
  | consumeSpeculative off len =>
      cases hr
      exact flags_of_handle ((Untouched.consumeSpeculative e off len).flagsOk h) rfl within_none
  | checkpoint =>
      simp only [Frame.step] at hr
      split at hr
      · cases hr
        exact flags_of_handle h rfl (within_one trivial)
      · cases hr
        exact flags_of_handle h rfl (within_one trivial)
  | setPinned p =>
      cases hr
      exact flags_of_handle (h.setPinned p) rfl (within_one trivial)
  | releaseRanges ranges =>
      cases hr
      refine flags_of_handle (h.releaseSection ranges) rfl ?_
      split
      · exact within_none
      · exact within_two trivial trivial
  | punch spans =>
      cases hr
      unfold Frame.stepPunch
      cases spans with
      | nil => exact flags_of_handle h rfl within_none
      | cons s rest =>
          refine flags_of_handle h ?_ (within_one trivial)
          split <;> rfl
  | readCached off buf account =>
      cases hr
      exact flags_readCached h
  | readRuns off out runs account =>
      cases hr
      exact flags_readRuns h hfr
  | readDone off out =>
      cases hr
      exact flags_of_handle h rfl within_none
  | demote i =>
      cases hr
      exact flags_of_handle (h.demoteRun hfr) rfl within_none
  | demoteBadPages todo =>
      cases hr
      exact flags_demoteBadPages h hfr
  | verifyAll i bad =>
      cases hr
      exact flags_verifyAll h
  | scrubPage i expect bad =>
      cases hr
      exact flags_scrubPage h hfr

end Steps

end UCache
