/-
Module: UCache.Core.WriteOuts
Purpose: How pages leave the stage for the disk.  What each section can do to a page nobody asked
  for, to the drain in progress and to the pages the write-outs have in hand; and that drains happen
  one at a time.
Trusted boundary: none
Main exports: Frame.asks, Frame.pwrite, Unread
-/
import UCache.Core.Holes

namespace UCache

open Lib

/-! ### A page nobody asked for -/

/-- The section is an accounted `readCached` that touches page `i`, or a `writePages` that covers
it wholly. -/
def Frame.asks (m : MetaData) (i : Nat) : Frame → Prop
  | .readCached off buf account =>
      account = true ∧ off < i * m.pageSize + m.pageBytes i ∧ i * m.pageSize < off + buf.length
  | .writePages off bytes =>
      off ≤ i * m.pageSize ∧ i * m.pageSize + m.pageBytes i ≤ off + bytes.length
  | _ => False

/-- Page `i` is not staged, or still marked speculative, and no drain has it. -/
structure Unread (i : Nat) (e : FileEntry) : Prop where
  buf : ∀ p, e.buf i = some p → p.spec = true
  flushing : e.flushing i = none

namespace Unread

variable {i : Nat} {e e' : FileEntry}

theorem congr (h : Unread i e) (hb : e'.buf = e.buf) (hf : e'.flushing = e.flushing) :
    Unread i e' := by
  refine ⟨?_, ?_⟩
  · rw [hb]; exact h.buf
  · rw [hf]; exact h.flushing

/-- One page of the stage replaced, by a speculative one if it is page `i`. -/
theorem update (h : Unread i e) {j : Nat} {q : Option BufPage}
    (hb : e'.buf = Function.update e.buf j q) (hf : e'.flushing = e.flushing)
    (hq : j = i → ∀ p, q = some p → p.spec = true) : Unread i e' := by
  refine ⟨?_, by rw [hf]; exact h.flushing⟩
  intro p hp
  rw [hb] at hp
  by_cases hj : i = j
  · subst hj
    rw [Function.update_self] at hp
    exact hq rfl p hp
  · rw [Function.update_of_ne hj] at hp
    exact h.buf p hp

theorem foldl {α : Type} {sec : FileEntry → α → FileEntry} {as : List α}
    (hsec : ∀ e, ∀ a ∈ as, Unread i e → Unread i (sec e a)) (h : Unread i e) :
    Unread i (as.foldl sec e) := by
  induction as generalizing e with
  | nil => exact h
  | cons a as ih => exact ih (fun e b hb => hsec e b (by simp [hb])) (hsec e a (by simp) h)

/-- A fill that does not cover the page wholly. -/
theorem stagePages (h : Unread i e) {off : Nat} {bytes : Bytes}
    (hi : i ∉ FileEntry.wholePages e.meta_ off (min (off + bytes.length) e.meta_.fileSize)) :
    Unread i (e.stagePages off bytes) := by
  refine foldl ?_ h
  intro e' j hj h'
  have hne : j ≠ i := fun hji => hi (hji ▸ hj)
  unfold FileEntry.stagePage
  split
  · split
    · exact h'.update rfl rfl fun hji => absurd hji hne
    · exact h'
  · split
    · exact h'
    · exact h'.update rfl rfl fun hji => absurd hji hne

theorem stageSpeculative (h : Unread i e) (off : Nat) (bytes : Bytes) :
    Unread i (e.stageSpeculative off bytes) := by
  unfold FileEntry.stageSpeculative
  split
  · exact h
  · refine foldl ?_ h
    intro e' j _ h'
    unfold FileEntry.stageSpecPage
    split
    · exact h'
    · exact h'.update rfl rfl (by rintro - p ⟨⟩; rfl)

theorem dropSpecPage (h : Unread i e) (j : Nat) : Unread i (e.dropSpecPage j) := by
  unfold FileEntry.dropSpecPage
  split
  · split
    · exact h.update (q := none) rfl rfl (by simp)
    · exact h
  · exact h

theorem touchSpecPage (h : Unread i e) (j : Nat) : Unread i (e.touchSpecPage j) := by
  unfold FileEntry.touchSpecPage
  split
  · split
    · rename_i hs
      exact h.update rfl rfl (by rintro - p ⟨⟩; exact hs)
    · exact h
  · exact h

theorem dropSpeculative (h : Unread i e) (off len : Nat) : Unread i (e.dropSpeculative off len) :=
  foldl (fun _ j _ h' => h'.dropSpecPage j) h

theorem consumeSpeculative (h : Unread i e) (off len : Nat) :
    Unread i (e.consumeSpeculative off len) := by
  unfold FileEntry.consumeSpeculative
  simp only
  split
  · exact h
  · exact foldl (fun _ j _ h' => h'.dropSpecPage j) (foldl (fun _ j _ h' => h'.touchSpecPage j) h)

/-- The snapshot of a drain leaves it behind. -/
theorem drainSnapshot (h : Unread i e) : Unread i e.drainSnapshot := by
  refine ⟨?_, ?_⟩
  · intro p hp
    exact (Option.filter_eq_some_iff.1 hp).2
  · cases hb : e.buf i with
    | none => simp [FileEntry.drainSnapshot, hb]
    | some p => simp [FileEntry.drainSnapshot, hb, Option.filter, h.buf p hb]

theorem publishAll (h : Unread i e) (done : List (Nat × UInt32)) : Unread i (e.publishAll done) :=
  h.congr (StagedOk.publishAll_buf e done).1 (StagedOk.publishAll_buf e done).2

theorem drainPublish (h : Unread i e) (done : List (Nat × UInt32)) :
    Unread i (e.drainPublish done) := by
  refine ⟨?_, rfl⟩
  intro p hp
  refine h.buf p ?_
  unfold FileEntry.drainPublish at hp
  simp only at hp
  split at hp
  · rwa [(StagedOk.publishAll_buf e done).1] at hp
  · rwa [FileEntry.markPublished, (StagedOk.publishAll_buf e done).1] at hp

theorem dropStaged (h : Unread i e) (j : Nat) : Unread i (e.dropStaged j) := by
  unfold FileEntry.dropStaged
  split
  · split
    · exact h.update (q := none) rfl rfl (by simp)
    · exact h.update (q := none) rfl rfl (by simp)
  · exact h

theorem releasePage (h : Unread i e) (j : Nat) : Unread i (e.releasePage j) := by
  unfold FileEntry.releasePage
  split
  · exact (h.dropStaged j).congr rfl rfl
  · exact h.dropStaged j

theorem releaseSection (h : Unread i e) (ranges : List (Nat × Nat)) :
    Unread i (e.releaseSection ranges).1 := by
  refine foldl ?_ h
  intro e' span _ h'
  have hpages : Unread i
      ((List.range' span.1 (span.2 - span.1)).foldl FileEntry.releasePage e') :=
    foldl (fun _ j _ h'' => h''.releasePage j) h'
  exact hpages.congr rfl rfl

theorem demoteRun (h : Unread i e) (j : Nat) : Unread i (e.demoteRun j j) := by
  have hone : j + 1 - j = 1 := by omega
  refine h.congr ?_ ?_
  · simp [FileEntry.demoteRun, hone, FileEntry.retractPage]
  · simp [FileEntry.demoteRun, hone, FileEntry.retractPage]

/-- The cache reading its own stage, or a reader that does not come to the page. -/
theorem planPages (off len : Nat) (account : Bool) :
    ∀ (pages : List Nat) (st : FileEntry.ReadPlan), Unread i st.e →
      (account = true → i ∉ pages) →
      Unread i (FileEntry.planPages off len account st pages).1.e
  | [], _, h, _ => h
  | j :: rest, st, h, hnot => by
      unfold FileEntry.planPages
      split
      · rename_i st' hst
        refine planPages off len account rest st' ?_ fun ha hmem => hnot ha (by simp [hmem])
        unfold FileEntry.planPage at hst
        simp only at hst
        split at hst
        · cases hst
          simp only
          split
          · rename_i hmark
            have ha : account = true := (Bool.and_eq_true_iff.1 hmark).2
            exact h.update rfl rfl fun hji => absurd (by simp [hji]) (hnot ha)
          · exact h
        · split at hst
          · cases hst
            exact h
          · simp at hst
      · exact h

end Unread

/-! ### Write-outs -/

variable {r : FileEntry × Disk × List Frame} {fr : Frame}

/-- Pages a write-out has in hand: still to write, or written and still to publish. -/
def Frame.carried : Frame → List Nat
  | .directCheck _ _ todo done => todo ++ done.map Prod.fst
  | .directWrite _ _ j todo done => j :: todo ++ done.map Prod.fst
  | .directPublish done => done.map Prod.fst
  | .drainWrite todo done _ => todo.map Prod.fst ++ done.map Prod.fst
  | .drainPublish done _ => done.map Prod.fst
  | _ => []

namespace Frame

variable {i : Nat} {c : Choice} {e : FileEntry} {d : Disk}

/-- A fill whose loop comes to page `i` covers it wholly. -/
theorem asks_of_mem_wholePages {m : MetaData} {off : Nat} {bytes : Bytes}
    (h : i ∈ FileEntry.wholePages m off (min (off + bytes.length) m.fileSize)) :
    Frame.asks m i (.writePages off bytes) := by
  obtain ⟨-, hoff, hend⟩ := mem_wholePages h
  exact ⟨hoff, by omega⟩

/-- A reader whose loop comes to page `i` touches it. -/
theorem asks_of_mem_range {m : MetaData} {off : Nat} {buf : Bytes} (hi : i < m.npages)
    (hbuf : buf.isEmpty = false) (hin : off + buf.length ≤ m.fileSize)
    (h : i ∈ List.range' (off / m.pageSize)
      ((off + buf.length - 1) / m.pageSize + 1 - off / m.pageSize)) :
    Frame.asks m i (.readCached off buf true) := by
  have hp := MetaData.pageSize_pos_of_lt hi
  have hlen : 0 < buf.length := by
    cases buf with
    | nil => simp at hbuf
    | cons b buf => simp
  rw [List.mem_range'_1] at h
  have hfirst : off < (i + 1) * m.pageSize := by
    rw [← Nat.div_lt_iff_lt_mul hp]
    omega
  have hlast : i * m.pageSize ≤ off + buf.length - 1 := by
    rw [← Nat.le_div_iff_mul_le hp]
    omega
  rw [Nat.add_mul, Nat.one_mul] at hfirst
  refine ⟨rfl, ?_, by omega⟩
  unfold MetaData.pageBytes
  omega

theorem unread_writePages (h : Unread i e) {off : Nat} {bytes : Bytes}
    (hask : ¬ Frame.asks e.meta_ i (.writePages off bytes)) :
    Unread i (stepWritePages e d off bytes).1 ∧
      ∀ fr' ∈ (stepWritePages e d off bytes).2.2, i ∉ fr'.carried := by
  have hout : i ∉ FileEntry.wholePages e.meta_ off (min (off + bytes.length) e.meta_.fileSize) :=
    fun hmem => hask (asks_of_mem_wholePages hmem)
  simp only [stepWritePages]
  split
  · exact ⟨h, by simp⟩
  · split
    · exact ⟨h, by simpa [carried] using hout⟩
    · refine ⟨h.stagePages hout, ?_⟩
      split <;> simp [carried]

theorem flushBuffer_cases {force : Bool} (hstep : stepFlushBuffer c e d force = some r) :
    r = (e, d, []) ∨ (e.flushInProgress = false ∧
      r = (e.drainSnapshot, d, [.drainWrite e.drainSnapshot.drainTodo [] force])) := by
  unfold stepFlushBuffer at hstep
  split at hstep
  · split at hstep
    · simp at hstep
    · exact Or.inl (by simpa using hstep.symm)
  · rename_i hbusy
    split at hstep
    · exact Or.inl (by simpa using hstep.symm)
    · exact Or.inr ⟨by simpa using hbusy, by simpa using hstep.symm⟩

theorem unread_flushBuffer (h : Unread i e) {force : Bool}
    (hstep : stepFlushBuffer c e d force = some r) :
    Unread i r.1 ∧ ∀ fr' ∈ r.2.2, i ∉ fr'.carried := by
  rcases flushBuffer_cases hstep with rfl | ⟨-, rfl⟩
  · exact ⟨h, by simp⟩
  · refine ⟨h.drainSnapshot, ?_⟩
    -- The snapshot holds only what is being written, and page `i` is not.
    have hnot : ∀ p, (i, p) ∉ e.drainSnapshot.drainTodo := by
      intro p hp
      simp only [FileEntry.drainTodo, List.mem_filterMap, Option.map_eq_some_iff,
        Prod.mk.injEq] at hp
      obtain ⟨j, -, q, hq, rfl, -⟩ := hp
      simp [h.drainSnapshot.flushing] at hq
    simpa [carried] using hnot

theorem unread_drainWrite {todo : List (Nat × BufPage)} {done : List (Nat × UInt32)} {force : Bool}
    (hfr : i ∉ (Frame.drainWrite todo done force).carried) :
    ∀ fr' ∈ (stepDrainWrite c e d todo done force).2.2, i ∉ fr'.carried := by
  simp only [carried, List.mem_append, not_or] at hfr
  unfold stepDrainWrite
  split
  · rename_i first p rest
    have hsplit := (takeRun_spec e.meta_ ((first, p) :: rest) first 0).1
    simp only at hsplit ⊢
    generalize FileEntry.takeRun e.meta_ first 0 ((first, p) :: rest) = cut at hsplit ⊢
    obtain ⟨run, left⟩ := cut
    simp only at hsplit ⊢
    rw [← hsplit, List.map_append, List.mem_append, not_or] at hfr
    split
    · intro fr' hfr'
      rw [List.mem_singleton.1 hfr']
      simp only [carried, List.map_append, List.mem_append, not_or, List.map_map]
      exact ⟨hfr.1.2, hfr.2, hfr.1.1⟩
    · intro fr' hfr'
      rw [List.mem_singleton.1 hfr']
      simpa [carried] using hfr.2
  · intro fr' hfr'
    rw [List.mem_singleton.1 hfr']
    simp only [carried]
    split
    · simp
    · exact hfr.2

theorem unread_readCached (hi : i < e.meta_.npages) (h : Unread i e) {off : Nat} {buf : Bytes}
    {account : Bool} (hask : ¬ Frame.asks e.meta_ i (.readCached off buf account)) :
    Unread i (stepReadCached e d off buf account).1 ∧
      ∀ fr' ∈ (stepReadCached e d off buf account).2.2, i ∉ fr'.carried := by
  simp only [stepReadCached]
  split
  · exact ⟨h, by simp [carried]⟩
  · rename_i hbuf
    split
    · exact ⟨h, by simp⟩
    · rename_i hin
      refine ⟨?_, ?_⟩
      · refine Unread.planPages off buf.length account _ { e := e, out := buf, runs := [] } h ?_
        rintro rfl hmem
        exact hask (asks_of_mem_range hi (by simpa using hbuf) (by omega) hmem)
      · split <;> simp [carried]

/-- A section nobody asks for page `i` with leaves it unread, and takes it into no write-out. -/
theorem unread_step (hi : i < e.meta_.npages) (h : Unread i e) (hfr : i ∉ fr.carried)
    (hask : ¬ fr.asks e.meta_ i) (hstep : fr.step c e d = some r) :
    Unread i r.1 ∧ ∀ fr' ∈ r.2.2, i ∉ fr'.carried := by
  cases fr with
  | flushMeta force =>
      cases hstep
      unfold stepFlushMeta
      split
      · exact ⟨h, by simp⟩
      · exact ⟨h.congr rfl rfl, by simp [carried]⟩
  | metaEnd f out merged ok =>
      cases hstep
      refine ⟨?_, by simp [stepMetaEnd]⟩
      unfold stepMetaEnd
      cases ok <;> cases merged <;> exact h.congr rfl rfl
  | touchAtime =>
      cases hstep
      refine ⟨?_, by simp [stepTouchAtime]⟩
      simp only [stepTouchAtime]
      split
      · exact h.congr rfl rfl
      · exact h
  | writePages off bytes =>
      cases hstep
      exact unread_writePages h hask
  | directCheck off bytes todo done =>
      cases hstep
      unfold stepDirectCheck
      split
      · simp only [carried, List.cons_append, List.mem_cons, not_or] at hfr
        split
        · exact ⟨h, by simpa [carried] using hfr.2⟩
        · exact ⟨h, by simpa [carried] using hfr⟩
      · split
        · exact ⟨h, by simp⟩
        · exact ⟨h, by simpa [carried] using hfr⟩
  | directWrite off bytes j todo done =>
      cases hstep
      simp only [carried, List.cons_append, List.mem_cons, List.mem_append, not_or] at hfr
      simp only [stepDirectWrite]
      split
      · refine ⟨h, ?_⟩
        intro fr' hfr'
        rw [List.mem_singleton.1 hfr']
        simp only [carried, List.map_append, List.map_cons, List.map_nil, List.mem_append,
          List.mem_singleton, not_or]
        exact ⟨hfr.2.1, hfr.2.2, hfr.1⟩
      · refine ⟨h, ?_⟩
        intro fr' hfr'
        rw [List.mem_singleton.1 hfr']
        simpa [carried] using hfr.2.2
  | directPublish done =>
      cases hstep
      exact ⟨(h.publishAll done).congr rfl rfl, by simp [carried]⟩
  | flushBuffer force => exact unread_flushBuffer h hstep
  | drainWrite todo done force =>
      cases hstep
      refine ⟨?_, unread_drainWrite hfr⟩
      unfold stepDrainWrite
      split
      · simp only
        split <;> exact h
      · exact h
  | drainPublish done force =>
      cases hstep
      exact ⟨h.drainPublish done, by simp [carried]⟩
  | stageSpeculative off bytes =>
      cases hstep
      exact ⟨h.stageSpeculative off bytes, by simp⟩
  | dropSpeculative off len =>
      cases hstep
      exact ⟨h.dropSpeculative off len, by simp⟩
  | consumeSpeculative off len =>
      cases hstep
      exact ⟨h.consumeSpeculative off len, by simp⟩
  | checkpoint =>
      simp only [step] at hstep
      split at hstep <;> (cases hstep; exact ⟨h, by simp [carried]⟩)
  | setPinned p =>
      cases hstep
      exact ⟨h.congr rfl rfl, by simp [carried]⟩
  | releaseRanges ranges =>
      cases hstep
      refine ⟨h.releaseSection ranges, ?_⟩
      simp only [stepReleaseRanges]
      split <;> simp [carried]
  | readCached off buf account =>
      cases hstep
      exact unread_readCached hi h hask
  | demote j =>
      cases hstep
      exact ⟨h.demoteRun j, by simp⟩
  | _ =>
      cases hstep
      simp only [stepMetaLoad, stepMetaStore, stepPunch, stepReadRuns, stepDemoteBadPages,
        stepVerifyAll, stepScrubPage]
      repeat' split
      all_goals exact ⟨h, by simp [carried]⟩

/-- The stretch of `.data` the `pwrite` of a frame covers: where it starts and its length. -/
def pwrite (m : MetaData) : Frame → Option (Nat × Nat)
  | .directWrite off bytes i _ _ =>
      some (i * m.pageSize, (FileEntry.cutPage m off bytes i).data.length)
  | .drainWrite ((first, p) :: rest) _ _ =>
      some (first * m.pageSize,
        (runData m (FileEntry.takeRun m first 0 ((first, p) :: rest)).1).length)
  | _ => none

/-- Consecutive pages take no more room than their number says. -/
theorem length_runData_le (m : MetaData) (run : List (Nat × BufPage)) :
    (runData m run).length ≤ run.length * m.pageSize := by
  induction run with
  | nil => simp [runData]
  | cons ip run ih =>
      have hlen : (runData m (ip :: run)).length =
          (ip.2.data.take (m.pageBytes ip.1)).length + (runData m run).length := by
        simp [runData]
      have hpage := MetaData.pageBytes_le m ip.1
      rw [hlen, List.length_take, List.length_cons, Nat.add_mul, Nat.one_mul]
      omega

/-- A `pwrite` that reaches into page `i` is of a write-out that has the page in hand. -/
theorem carried_of_pwrite {m : MetaData} {start len : Nat} (hw : fr.pwrite m = some (start, len))
    (hlo : start < i * m.pageSize + m.pageBytes i) (hhi : i * m.pageSize < start + len) :
    i ∈ fr.carried := by
  have hle := MetaData.pageBytes_le m i
  have hp : 0 < m.pageSize := by
    rcases Nat.eq_zero_or_pos m.pageSize with hz | hp
    · rw [hz] at hle
      rw [hz, Nat.mul_zero] at hlo
      omega
    · exact hp
  cases fr with
  | directWrite off bytes j todo done =>
      simp only [pwrite, Option.some.injEq, Prod.mk.injEq] at hw
      obtain ⟨rfl, rfl⟩ := hw
      have hlen : (FileEntry.cutPage m off bytes j).data.length ≤ m.pageSize := by
        have := MetaData.pageBytes_le m j
        simp only [FileEntry.cutPage, length_slice]
        omega
      have h1 : j < i + 1 := by
        refine Nat.lt_of_mul_lt_mul_right (a := m.pageSize) ?_
        rw [Nat.add_mul, Nat.one_mul]
        omega
      have h2 : i < j + 1 := by
        refine Nat.lt_of_mul_lt_mul_right (a := m.pageSize) ?_
        rw [Nat.add_mul, Nat.one_mul]
        omega
      have hij : i = j := by omega
      simp [carried, hij]
  | drainWrite todo done force =>
      cases todo with
      | nil => simp [pwrite] at hw
      | cons fp rest =>
          obtain ⟨first, p⟩ := fp
          simp only [pwrite, Option.some.injEq, Prod.mk.injEq] at hw
          obtain ⟨rfl, rfl⟩ := hw
          obtain ⟨hsplit, hpages⟩ := takeRun_spec m ((first, p) :: rest) first 0
          have hlen := length_runData_le m (FileEntry.takeRun m first 0 ((first, p) :: rest)).1
          generalize FileEntry.takeRun m first 0 ((first, p) :: rest) = cut at *
          have h1 : first < i + 1 := by
            refine Nat.lt_of_mul_lt_mul_right (a := m.pageSize) ?_
            rw [Nat.add_mul, Nat.one_mul]
            omega
          have h2 : i < first + cut.1.length := by
            refine Nat.lt_of_mul_lt_mul_right (a := m.pageSize) ?_
            rw [Nat.add_mul]
            omega
          have hmem : i ∈ cut.1.map Prod.fst := by
            rw [hpages, List.mem_range'_1]
            omega
          simp only [carried, ← hsplit, List.map_append, List.mem_append]
          exact Or.inl (Or.inl hmem)
  | _ => simp [pwrite] at hw

/-- The transitions of a step: every page it publishes is one its write-out has in hand. -/
theorem published_step (hstep : fr.step c e d = some r) :
    ∃ ts, r.1.trace = e.trace ++ ts ∧ ∀ crc, Transition.publish i crc ∈ ts → i ∈ fr.carried := by
  have hsame : r.1.trace = e.trace →
      ∃ ts, r.1.trace = e.trace ++ ts ∧
        ∀ crc, Transition.publish i crc ∈ ts → i ∈ fr.carried := fun h =>
    ⟨[], by simp [h], by simp⟩
  have hpub : ∀ (done : List (Nat × UInt32)) (crc : UInt32),
      Transition.publish i crc ∈ publications done → i ∈ done.map Prod.fst := by
    intro done crc hmem
    obtain ⟨pc, hpc, heq⟩ := List.mem_map.1 hmem
    cases heq
    exact List.mem_map.2 ⟨pc, hpc, rfl⟩
  cases fr with
  | directPublish done =>
      cases hstep
      exact ⟨_, (section_directPublish e done).extends_.trace, hpub done⟩
  | drainPublish done force =>
      cases hstep
      exact ⟨_, (section_drainPublish e done).extends_.trace, hpub done⟩
  | setPinned p =>
      cases hstep
      exact ⟨_, (section_setPinned e p).extends_.trace, by simp⟩
  | demote j =>
      cases hstep
      exact ⟨_, (section_demoteRun e j).extends_.trace, by simp⟩
  | releaseRanges ranges =>
      cases hstep
      obtain ⟨ts, hret, hsec, -⟩ := section_releaseSection e ranges
      refine ⟨ts, hsec.extends_.trace, ?_⟩
      intro crc hmem
      obtain ⟨j, hj⟩ := hret _ hmem
      cases hj
  | writePages off bytes =>
      cases hstep
      refine hsame ?_
      simp only [stepWritePages]
      split
      · rfl
      · split
        · rfl
        · simpa using (section_stagePages e off bytes).extends_.trace
  | flushBuffer force =>
      rcases flushBuffer_cases hstep with rfl | ⟨-, rfl⟩
      · exact hsame rfl
      · exact hsame rfl
  | stageSpeculative off bytes =>
      cases hstep
      exact hsame (by simpa using (section_stageSpeculative e off bytes).extends_.trace)
  | dropSpeculative off len =>
      cases hstep
      exact hsame (by simpa using (section_dropSpeculative e off len).extends_.trace)
  | consumeSpeculative off len =>
      cases hstep
      exact hsame (by simpa using (section_consumeSpeculative e off len).extends_.trace)
  | checkpoint =>
      refine hsame ?_
      simp only [step] at hstep
      split at hstep <;> (cases hstep; rfl)
  | readCached off buf account =>
      cases hstep
      refine hsame ?_
      simp only [stepReadCached]
      split
      · rfl
      · split
        · rfl
        · simpa using (section_readPlan e off buf account).extends_.trace
  | _ =>
      cases hstep
      refine hsame ?_
      simp only [stepFlushMeta, stepMetaLoad, stepMetaStore, stepMetaEnd, stepTouchAtime,
        stepDirectCheck, stepDirectWrite, stepDrainWrite, stepPunch, stepReadRuns,
        stepDemoteBadPages, stepVerifyAll, stepScrubPage]
      repeat' split
      all_goals rfl

end Frame

/-! ### One drain at a time -/

/-- A section that leaves the drain in progress alone. -/
structure Kept (e e' : FileEntry) : Prop where
  flushing : e'.flushing = e.flushing
  busy : e'.flushInProgress = e.flushInProgress

namespace Kept

variable {e e' e'' : FileEntry}

theorem refl (e : FileEntry) : Kept e e := ⟨rfl, rfl⟩

theorem trans (h1 : Kept e e') (h2 : Kept e' e'') : Kept e e'' :=
  ⟨h2.flushing.trans h1.flushing, h2.busy.trans h1.busy⟩

theorem foldl {α : Type} {sec : FileEntry → α → FileEntry} (hsec : ∀ e a, Kept e (sec e a)) :
    ∀ (as : List α) (e : FileEntry), Kept e (as.foldl sec e)
  | [], e => refl e
  | a :: as, e => (hsec e a).trans (foldl hsec as (sec e a))

theorem stagePages (e : FileEntry) (off : Nat) (bytes : Bytes) : Kept e (e.stagePages off bytes) := by
  refine foldl ?_ _ e
  intro e' i
  unfold FileEntry.stagePage
  split
  · split <;> exact ⟨rfl, rfl⟩
  · split <;> exact ⟨rfl, rfl⟩

theorem stageSpeculative (e : FileEntry) (off : Nat) (bytes : Bytes) :
    Kept e (e.stageSpeculative off bytes) := by
  unfold FileEntry.stageSpeculative
  split
  · exact refl e
  · refine foldl ?_ _ e
    intro e' i
    unfold FileEntry.stageSpecPage
    split <;> exact ⟨rfl, rfl⟩

theorem dropSpecPage (e : FileEntry) (i : Nat) : Kept e (e.dropSpecPage i) := by
  unfold FileEntry.dropSpecPage
  split
  · split <;> exact ⟨rfl, rfl⟩
  · exact refl e

theorem touchSpecPage (e : FileEntry) (i : Nat) : Kept e (e.touchSpecPage i) := by
  unfold FileEntry.touchSpecPage
  split
  · split <;> exact ⟨rfl, rfl⟩
  · exact refl e

theorem consumeSpeculative (e : FileEntry) (off len : Nat) :
    Kept e (e.consumeSpeculative off len) := by
  unfold FileEntry.consumeSpeculative
  simp only
  split
  · exact refl e
  · exact (foldl touchSpecPage _ e).trans (foldl dropSpecPage _ _)

theorem releaseSection (e : FileEntry) (ranges : List (Nat × Nat)) :
    Kept e (e.releaseSection ranges).1 := by
  refine foldl ?_ _ e
  intro e' span
  have hpage : ∀ (e' : FileEntry) (i : Nat), Kept e' (e'.releasePage i) := by
    intro e' i
    unfold FileEntry.releasePage FileEntry.dropStaged
    split <;> split <;> try split
    all_goals exact ⟨rfl, rfl⟩
  have hpages := foldl hpage (List.range' span.1 (span.2 - span.1)) e'
  exact ⟨hpages.flushing, hpages.busy⟩

theorem planPages (off len : Nat) (account : Bool) :
    ∀ (pages : List Nat) (st : FileEntry.ReadPlan),
      Kept st.e (FileEntry.planPages off len account st pages).1.e
  | [], st => refl st.e
  | i :: rest, st => by
      unfold FileEntry.planPages
      split
      · rename_i st' hst
        refine trans ?_ (planPages off len account rest st')
        unfold FileEntry.planPage at hst
        simp only at hst
        split at hst
        · cases hst
          simp only
          split <;> exact ⟨rfl, rfl⟩
        · split at hst
          · cases hst
            exact refl _
          · simp at hst
      · exact refl st.e

theorem demoteRun (e : FileEntry) (i : Nat) : Kept e (e.demoteRun i i) := by
  have hone : i + 1 - i = 1 := by omega
  refine ⟨?_, ?_⟩ <;> simp [FileEntry.demoteRun, hone, FileEntry.retractPage]

theorem directPublish (e : FileEntry) (done : List (Nat × UInt32)) :
    Kept e (e.directPublish done) := by
  have hone : ∀ (e : FileEntry) (pc : Nat × UInt32), Kept e (e.publishPage pc.1 pc.2) :=
    fun _ _ => ⟨rfl, rfl⟩
  have hall : Kept e (e.publishAll done) := foldl hone done e
  exact ⟨hall.flushing, hall.busy⟩

end Kept

/-- Frames of a drain past its snapshot. -/
def Frame.isDrain : Frame → Bool
  | .drainWrite _ _ _ => true
  | .drainPublish _ _ => true
  | _ => false

/-- Frames of `writePagesDirect`. -/
def Frame.isDirect : Frame → Bool
  | .directCheck _ _ _ _ => true
  | .directWrite _ _ _ _ _ => true
  | .directPublish _ => true
  | _ => false

namespace Frame

variable {c : Choice} {e : FileEntry} {d : Disk}

/-- A step changes neither the configuration nor the geometry. -/
theorem fixed_step (hstep : fr.step c e d = some r) : r.1.cfg = e.cfg ∧ Geometry e.meta_ r.1 := by
  have hcalm : fr.isMeta = false → (∀ force, fr = .flushMeta force →
      e.dirty = false ∨ (force = false ∧ c.due = false)) →
      r.1.cfg = e.cfg ∧ Geometry e.meta_ r.1 := by
    intro hmeta hsnap
    obtain ⟨ts, hsec⟩ := (step_calm hmeta hsnap hstep).sec
    exact ⟨hsec.extends_.cfg, hsec.extends_.pageSize,
      congrArg Validators.originSize hsec.extends_.validators⟩
  cases fr with
  | metaLoad f =>
      cases hstep
      unfold stepMetaLoad
      split <;> exact ⟨rfl, rfl, rfl⟩
  | metaStore f out merged =>
      cases hstep
      exact ⟨rfl, rfl, rfl⟩
  | metaEnd f out merged ok =>
      cases hstep
      cases ok <;> cases merged <;> exact ⟨rfl, rfl, rfl⟩
  | flushMeta force =>
      cases hstep
      unfold stepFlushMeta
      split <;> exact ⟨rfl, rfl, rfl⟩
  | _ => exact hcalm rfl (by simp)

end Frame

/-! ### Threads -/

namespace Machine

/-- A property of every frame of every thread, after one thread's frames were replaced. -/
theorem forall_threads_update {P : Frame → Prop} {threads : Nat → List Frame} {t : Nat}
    {frames : List Frame} (h : ∀ t', ∀ fr ∈ threads t', P fr) (hnew : ∀ fr ∈ frames, P fr) :
    ∀ t', ∀ fr ∈ Function.update threads t frames t', P fr := by
  intro t' fr hfr
  by_cases ht : t' = t
  · subst ht
    rw [Function.update_self] at hfr
    exact hnew fr hfr
  · rw [Function.update_of_ne ht] at hfr
    exact h t' fr hfr

end Machine

def noDrain (frames : List Frame) : Prop := ∀ fr ∈ frames, fr.isDrain = false

/-- At most one drain is under way, and all its pages are in `flushing_`. -/
def OneDrain (e : FileEntry) (threads : Nat → List Frame) : Prop :=
  (∀ t, noDrain (threads t)) ∨
    ∃ t fr rest, threads t = fr :: rest ∧ fr.isDrain = true ∧ noDrain rest ∧
      (∀ t' ≠ t, noDrain (threads t')) ∧ e.flushInProgress = true ∧
      ∀ i ∈ fr.carried, (e.flushing i).isSome = true

/-- The pages of the snapshot are the ones being written. -/
theorem flushing_of_drainTodo {e : FileEntry} {i : Nat} (h : i ∈ e.drainTodo.map Prod.fst) :
    (e.flushing i).isSome = true := by
  obtain ⟨ip, hip, rfl⟩ := List.mem_map.1 h
  simp only [FileEntry.drainTodo, List.mem_filterMap, Option.map_eq_some_iff] at hip
  obtain ⟨j, -, p, hp, rfl⟩ := hip
  simp [hp]

/-- The steps of a drain: the `pwrite`s keep its pages in hand, the publication ends it. -/
theorem Frame.drain_step {c : Choice} {e : FileEntry} {d : Disk} (hdrain : fr.isDrain = true)
    (hstep : fr.step c e d = some r) :
    (Kept e r.1 ∧ ∃ fr', r.2.2 = [fr'] ∧ fr'.isDrain = true ∧ ∀ i ∈ fr'.carried, i ∈ fr.carried) ∨
      ∃ force, r.2.2 = [.flushMeta force] := by
  cases fr with
  | drainWrite todo done force =>
      cases hstep
      refine Or.inl ?_
      have hcarried : ∀ i, ∀ fr' ∈ (stepDrainWrite c e d todo done force).2.2, i ∈ fr'.carried →
          i ∈ (Frame.drainWrite todo done force).carried := by
        intro i fr' hfr' hmem
        by_contra hnot
        exact unread_drainWrite hnot fr' hfr' hmem
      revert hcarried
      unfold stepDrainWrite
      split
      · simp only
        split
        · exact fun h => ⟨Kept.refl e, _, rfl, rfl, fun i => h i _ (by simp)⟩
        · exact fun h => ⟨Kept.refl e, _, rfl, rfl, fun i => h i _ (by simp)⟩
      · exact fun h => ⟨Kept.refl e, _, rfl, rfl, fun i => h i _ (by simp)⟩
  | drainPublish done force =>
      cases hstep
      exact Or.inr ⟨force, rfl⟩
  | _ => simp [isDrain] at hdrain

namespace OneDrain

variable {e e' : FileEntry} {threads : Nat → List Frame} {t : Nat} {fr : Frame}
  {rest frames : List Frame}

/-- A thread that does not stand in the drain holds none of it. -/
theorem outside (h : OneDrain e threads) (ht : threads t = fr :: rest) (hd : fr.isDrain = false) :
    noDrain (threads t) := by
  rcases h with hno | ⟨t₀, fr₀, rest₀, ht₀, hd₀, -, hoth, -⟩
  · exact hno t
  · refine hoth t ?_
    rintro rfl
    rw [ht] at ht₀
    cases ht₀
    simp [hd] at hd₀

/-- A thread outside the drain goes on to frames outside it. -/
theorem update (h : OneDrain e threads) (hkept : Kept e e') (ht : noDrain (threads t))
    (hnew : noDrain frames) : OneDrain e' (Function.update threads t frames) := by
  rcases h with hno | ⟨t₀, fr₀, rest₀, ht₀, hd₀, hrest₀, hoth, hprog, hall⟩
  · exact Or.inl (Machine.forall_threads_update hno hnew)
  · have hne : t₀ ≠ t := by
      rintro rfl
      simp [ht fr₀ (by simp [ht₀])] at hd₀
    refine Or.inr ⟨t₀, fr₀, rest₀, ?_, hd₀, hrest₀, ?_, ?_, ?_⟩
    · rw [Function.update_of_ne hne]
      exact ht₀
    · intro t' ht'
      by_cases htt : t' = t
      · subst htt
        rw [Function.update_self]
        exact hnew
      · rw [Function.update_of_ne htt]
        exact hoth t' ht'
    · rw [hkept.busy]
      exact hprog
    · rw [hkept.flushing]
      exact hall

/-- The snapshot of a new drain, while none is under way. -/
theorem snapshot (h : OneDrain e threads) (hbusy : e.flushInProgress = false)
    (ht : threads t = fr :: rest) (force : Bool) :
    OneDrain e.drainSnapshot (Function.update threads t
      (.drainWrite e.drainSnapshot.drainTodo [] force :: rest)) := by
  rcases h with hno | ⟨-, -, -, -, -, -, -, hprog, -⟩
  · refine Or.inr ⟨t, _, rest, Function.update_self _ _ _, rfl, ?_, ?_, rfl, ?_⟩
    · exact fun fr' hfr' => hno t fr' (by simp [ht, hfr'])
    · intro t' ht'
      rw [Function.update_of_ne ht']
      exact hno t'
    · intro i hi
      exact flushing_of_drainTodo (by simpa [Frame.carried] using hi)
  · simp [hbusy] at hprog

/-- A step of the drain itself. -/
theorem step (h : OneDrain e threads) {c : Choice} {d : Disk} {r : FileEntry × Disk × List Frame}
    (ht : threads t = fr :: rest) (hdrain : fr.isDrain = true) (hr : fr.step c e d = some r) :
    OneDrain r.1 (Function.update threads t (r.2.2 ++ rest)) := by
  rcases h with hno | ⟨t₀, fr₀, rest₀, ht₀, hd₀, hrest₀, hoth, hprog, hall⟩
  · simp [hno t fr (by simp [ht])] at hdrain
  · have heq : t₀ = t := by
      by_contra hne
      simp [hoth t (fun h' => hne h'.symm) fr (by simp [ht])] at hdrain
    subst heq
    rw [ht] at ht₀
    cases ht₀
    have hothers : ∀ t' ≠ t₀, ∀ new, noDrain (Function.update threads t₀ new t') := by
      intro t' ht' new
      rw [Function.update_of_ne ht']
      exact hoth t' ht'
    rcases Frame.drain_step hdrain hr with ⟨hkept, fr', hframes, hd', hsub⟩ | ⟨force, hframes⟩
    · refine Or.inr ⟨t₀, fr', rest, ?_, hd', hrest₀, fun t' ht' => hothers t' ht' _, ?_, ?_⟩
      · rw [Function.update_self, hframes]
        rfl
      · rw [hkept.busy]
        exact hprog
      · intro i hi
        rw [hkept.flushing]
        exact hall i (hsub i hi)
    · refine Or.inl ?_
      intro t'
      by_cases htt : t' = t₀
      · subst htt
        rw [Function.update_self, hframes]
        intro fr' hfr'
        rcases List.mem_cons.1 hfr' with rfl | hmem
        · rfl
        · exact hrest₀ fr' hmem
      · exact hothers t' htt _

end OneDrain

end UCache
