/-
Module: UCache.Core.Stage
Purpose: The pages held in memory.  A property of staged pages that depends only on their bytes and
  CRC is kept by every section once the pages newly staged have it; and a drain writes every page
  it takes whole, at its place.
Trusted boundary: none
Main exports: Geometry, StagedOk, length_cutPage
-/
import UCache.Core.Sections
import UCache.Core.EntryMachine

namespace UCache

open Lib

/-! ### Page geometry -/

variable {m : MetaData} {i : Nat}

theorem MetaData.pageSize_pos_of_lt (h : i < m.npages) : 0 < m.pageSize := by
  rcases Nat.eq_zero_or_pos m.pageSize with h0 | h0
  · simp [MetaData.npages, MetaData.pagesOf, h0] at h
  · exact h0

/-- A page below the count starts inside the file. -/
theorem MetaData.start_lt (h : i < m.npages) : i * m.pageSize < m.fileSize := by
  have hp := MetaData.pageSize_pos_of_lt h
  simp only [MetaData.npages, MetaData.pagesOf, hp.ne', if_false] at h
  have h' : (i + 1) * m.pageSize ≤ m.fileSize + m.pageSize - 1 := by
    have := Nat.div_mul_le_self (m.fileSize + m.pageSize - 1) m.pageSize
    have hle : (i + 1) * m.pageSize ≤
        (m.fileSize + m.pageSize - 1) / m.pageSize * m.pageSize :=
      Nat.mul_le_mul_right _ h
    omega
  rw [Nat.add_mul, Nat.one_mul] at h'
  omega

/-- A page that starts inside the file is below the count. -/
theorem MetaData.lt_npages (hp : 0 < m.pageSize) (h : i * m.pageSize < m.fileSize) :
    i < m.npages := by
  simp only [MetaData.npages, MetaData.pagesOf, hp.ne', if_false]
  rw [Nat.lt_iff_add_one_le, Nat.le_div_iff_mul_le hp, Nat.add_mul, Nat.one_mul]
  omega

theorem MetaData.pageBytes_le (m : MetaData) (i : Nat) : m.pageBytes i ≤ m.pageSize := by
  unfold MetaData.pageBytes
  omega

theorem MetaData.end_le (h : i < m.npages) : i * m.pageSize + m.pageBytes i ≤ m.fileSize := by
  have := MetaData.start_lt h
  unfold MetaData.pageBytes
  omega

/-- Every page but the last is full. -/
theorem MetaData.pageBytes_of_succ_lt (h : i + 1 < m.npages) : m.pageBytes i = m.pageSize := by
  have := MetaData.start_lt h
  rw [Nat.add_mul, Nat.one_mul] at this
  unfold MetaData.pageBytes
  omega

/-- The geometry of the handle is the one it was opened with. -/
structure Geometry (m₀ : MetaData) (e : FileEntry) : Prop where
  pageSize : e.meta_.pageSize = m₀.pageSize
  fileSize : e.meta_.fileSize = m₀.fileSize

theorem Geometry.pageBytes {m₀ : MetaData} {e : FileEntry} (h : Geometry m₀ e) (i : Nat) :
    e.meta_.pageBytes i = m₀.pageBytes i := by
  simp [MetaData.pageBytes, h.pageSize, h.fileSize]

theorem Geometry.npages {m₀ : MetaData} {e : FileEntry} (h : Geometry m₀ e) :
    e.meta_.npages = m₀.npages := by
  simp [MetaData.npages, h.pageSize, h.fileSize]

theorem mem_wholePages {off stop : Nat} (h : i ∈ FileEntry.wholePages m off stop) :
    i < m.npages ∧ off ≤ i * m.pageSize ∧ i * m.pageSize + m.pageBytes i ≤ stop := by
  unfold FileEntry.wholePages at h
  simp only at h
  have hmem := (List.takeWhile_subset _) h
  have hcond := List.all_eq_true.1 List.all_takeWhile i h
  simp only [Bool.and_eq_true, decide_eq_true_eq] at hcond
  rw [List.mem_range'_1] at hmem
  have hlt : i < m.npages := by omega
  refine ⟨hlt, ?_, hcond.2⟩
  have hp := MetaData.pageSize_pos_of_lt hlt
  have hdiv : (off + m.pageSize - 1) / m.pageSize < i + 1 := by omega
  rw [Nat.div_lt_iff_lt_mul hp, Nat.add_mul, Nat.one_mul] at hdiv
  omega

/-- A page cut out of a buffer that covers it has its full length. -/
theorem length_cutPage {off : Nat} {bytes : Bytes} (h₁ : off ≤ i * m.pageSize)
    (h₂ : i * m.pageSize + m.pageBytes i ≤ off + bytes.length) :
    (FileEntry.cutPage m off bytes i).data.length = m.pageBytes i := by
  simp only [FileEntry.cutPage, length_slice]
  omega

/-! ### Staged pages -/

/-- Every staged page, in the stage or being written, satisfies `ok`. -/
def StagedOk (ok : Nat → Bytes → UInt32 → Prop) (e : FileEntry) : Prop :=
  ∀ i p, e.buf i = some p ∨ e.flushing i = some p → ok i p.data p.crc

namespace StagedOk

variable {ok : Nat → Bytes → UInt32 → Prop} {e e' : FileEntry}

theorem congr (h : StagedOk ok e) (hb : e'.buf = e.buf) (hf : e'.flushing = e.flushing) :
    StagedOk ok e' := by
  unfold StagedOk
  rw [hb, hf]
  exact h

/-- One page of the stage replaced by a page with the property, or dropped. -/
theorem update (h : StagedOk ok e) {q : Option BufPage} (hb : e'.buf = Function.update e.buf i q)
    (hf : e'.flushing = e.flushing) (hq : ∀ p, q = some p → ok i p.data p.crc) :
    StagedOk ok e' := by
  intro j p hp
  rw [hb, hf] at hp
  by_cases hj : j = i
  · subst hj
    rcases hp with hp | hp
    · exact hq p (by simpa using hp)
    · exact h j p (Or.inr hp)
  · rw [Function.update_of_ne hj] at hp
    exact h j p hp

theorem foldl {α : Type} {sec : FileEntry → α → FileEntry} (inv : FileEntry → Prop)
    {as : List α} (hinv : inv e)
    (hsec : ∀ e, ∀ a ∈ as, inv e → StagedOk ok e → inv (sec e a) ∧ StagedOk ok (sec e a))
    (h : StagedOk ok e) : StagedOk ok (as.foldl sec e) := by
  induction as generalizing e with
  | nil => exact h
  | cons a as ih =>
      obtain ⟨hinv', h'⟩ := hsec e a (by simp) hinv h
      exact ih hinv' (fun e b hb => hsec e b (by simp [hb])) h'

theorem unmarkSpeculative (h : StagedOk ok e) {p : BufPage} (hp : ok i p.data p.crc) :
    StagedOk ok (e.unmarkSpeculative i p) :=
  h.update rfl rfl (by rintro q ⟨⟩; exact hp)

theorem stagePages (h : StagedOk ok e) {off : Nat} {bytes : Bytes}
    (hnew : ∀ i ∈ FileEntry.wholePages e.meta_ off (min (off + bytes.length) e.meta_.fileSize),
      ok i (FileEntry.cutPage e.meta_ off bytes i).data
        (FileEntry.cutPage e.meta_ off bytes i).crc) :
    StagedOk ok (e.stagePages off bytes) := by
  refine foldl (fun e' => e'.meta_ = e.meta_) rfl ?_ h
  intro e' i hi hm h'
  unfold FileEntry.stagePage
  split
  · rename_i p hp
    split
    · exact ⟨hm, h'.unmarkSpeculative (h' i p (Or.inl hp))⟩
    · exact ⟨hm, h'⟩
  · split
    · exact ⟨hm, h'⟩
    · refine ⟨hm, h'.update rfl rfl ?_⟩
      rintro q ⟨⟩
      rw [hm]
      exact hnew i hi

theorem stageSpeculative (h : StagedOk ok e) {off : Nat} {bytes : Bytes}
    (hnew : ∀ i ∈ FileEntry.wholePages e.meta_ off (min (off + bytes.length) e.meta_.fileSize),
      ok i (FileEntry.cutPage e.meta_ off bytes i).data
        (FileEntry.cutPage e.meta_ off bytes i).crc) :
    StagedOk ok (e.stageSpeculative off bytes) := by
  unfold FileEntry.stageSpeculative
  split
  · exact h
  · refine foldl (fun e' => e'.meta_ = e.meta_) rfl ?_ h
    intro e' i hi hm h'
    unfold FileEntry.stageSpecPage
    split
    · exact ⟨hm, h'⟩
    · refine ⟨hm, h'.update rfl rfl ?_⟩
      rintro q ⟨⟩
      simp only
      rw [hm]
      exact hnew i hi

theorem dropSpecPage (h : StagedOk ok e) (i : Nat) : StagedOk ok (e.dropSpecPage i) := by
  unfold FileEntry.dropSpecPage
  split
  · split
    · exact h.update (q := none) rfl rfl (by simp)
    · exact h
  · exact h

theorem touchSpecPage (h : StagedOk ok e) (i : Nat) : StagedOk ok (e.touchSpecPage i) := by
  unfold FileEntry.touchSpecPage
  split
  · rename_i p hp
    split
    · exact h.update rfl rfl (by rintro q ⟨⟩; exact h i p (Or.inl hp))
    · exact h
  · exact h

theorem dropSpeculative (h : StagedOk ok e) (off len : Nat) :
    StagedOk ok (e.dropSpeculative off len) :=
  foldl (fun _ => True) trivial (fun _ i _ _ h' => ⟨trivial, h'.dropSpecPage i⟩) h

theorem consumeSpeculative (h : StagedOk ok e) (off len : Nat) :
    StagedOk ok (e.consumeSpeculative off len) := by
  unfold FileEntry.consumeSpeculative
  simp only
  split
  · exact h
  · refine foldl (fun _ => True) trivial (fun _ i _ _ h' => ⟨trivial, h'.dropSpecPage i⟩) ?_
    exact foldl (fun _ => True) trivial (fun _ i _ _ h' => ⟨trivial, h'.touchSpecPage i⟩) h

theorem drainSnapshot (h : StagedOk ok e) : StagedOk ok e.drainSnapshot := by
  intro i p hp
  simp only [FileEntry.drainSnapshot, Option.filter_eq_some_iff] at hp
  rcases hp with hp | hp
  · exact h i p (Or.inl hp.1)
  · exact h i p (Or.inl hp.1)

theorem publishAll_buf (e : FileEntry) (done : List (Nat × UInt32)) :
    (e.publishAll done).buf = e.buf ∧ (e.publishAll done).flushing = e.flushing := by
  induction done generalizing e with
  | nil => exact ⟨rfl, rfl⟩
  | cons pc done ih => exact ih (e.publishPage pc.1 pc.2)

theorem directPublish (h : StagedOk ok e) (done : List (Nat × UInt32)) :
    StagedOk ok (e.directPublish done) :=
  h.congr (publishAll_buf e done).1 (publishAll_buf e done).2

theorem drainPublish (h : StagedOk ok e) (done : List (Nat × UInt32)) :
    StagedOk ok (e.drainPublish done) := by
  have hbuf : (e.drainPublish done).buf = e.buf := by
    unfold FileEntry.drainPublish
    simp only
    split
    · exact (publishAll_buf e done).1
    · exact (publishAll_buf e done).1
  intro i p hp
  rcases hp with hp | hp
  · exact h i p (Or.inl (hbuf ▸ hp))
  · simp [FileEntry.drainPublish] at hp

theorem dropStaged (h : StagedOk ok e) (i : Nat) : StagedOk ok (e.dropStaged i) := by
  unfold FileEntry.dropStaged
  split
  · split
    · exact h.update (q := none) rfl rfl (by simp)
    · exact h.update (q := none) rfl rfl (by simp)
  · exact h

theorem releasePage (h : StagedOk ok e) (i : Nat) : StagedOk ok (e.releasePage i) := by
  unfold FileEntry.releasePage
  split
  · exact (h.dropStaged i).congr rfl rfl
  · exact h.dropStaged i

theorem releaseSection (h : StagedOk ok e) (ranges : List (Nat × Nat)) :
    StagedOk ok (e.releaseSection ranges).1 := by
  refine foldl (fun _ => True) trivial ?_ h
  intro e' span _ _ h'
  refine ⟨trivial, ?_⟩
  have hpages : StagedOk ok
      ((List.range' span.1 (span.2 - span.1)).foldl FileEntry.releasePage e') :=
    foldl (fun _ => True) trivial (fun _ i _ _ h' => ⟨trivial, h'.releasePage i⟩) h'
  exact hpages.congr rfl rfl

theorem planPages (off len : Nat) (account : Bool) :
    ∀ (pages : List Nat) (st : FileEntry.ReadPlan), StagedOk ok st.e →
      StagedOk ok (FileEntry.planPages off len account st pages).1.e
  | [], _, h => h
  | i :: rest, st, h => by
      unfold FileEntry.planPages
      split
      · rename_i st' hst
        refine planPages off len account rest st' ?_
        unfold FileEntry.planPage at hst
        simp only at hst
        split at hst
        · rename_i p hp
          cases hst
          simp only
          split
          · refine h.unmarkSpeculative (h i p ?_)
            simpa [FileEntry.staged, Option.or_eq_some_iff] using
              (Option.or_eq_some_iff.1 hp).imp id fun h => h.2
          · exact h
        · split at hst
          · cases hst
            exact h
          · simp at hst
      · exact h

theorem readPlan (h : StagedOk ok e) (off : Nat) (buf : Bytes) (account : Bool) :
    StagedOk ok (e.readPlan off buf account).1.e :=
  planPages off buf.length account _ { e := e, out := buf, runs := [] } h

theorem demoteRun (h : StagedOk ok e) (i : Nat) : StagedOk ok (e.demoteRun i i) := by
  have hone : i + 1 - i = 1 := by omega
  refine h.congr ?_ ?_
  · simp [FileEntry.demoteRun, hone, FileEntry.retractPage]
  · simp [FileEntry.demoteRun, hone, FileEntry.retractPage]

/-- What the snapshot takes to the disk has the property. -/
theorem drainTodo (h : StagedOk ok e) {p : BufPage} (hp : (i, p) ∈ e.drainTodo) :
    i < e.meta_.npages ∧ ok i p.data p.crc := by
  simp only [FileEntry.drainTodo, List.mem_filterMap, List.mem_range, Option.map_eq_some_iff,
    Prod.mk.injEq] at hp
  obtain ⟨j, hj, q, hq, rfl, rfl⟩ := hp
  exact ⟨hj, h j q (Or.inr hq)⟩

end StagedOk

/-! ### The runs of a drain -/

/-- A run and what is left make up the list, and the run's pages follow one another. -/
theorem takeRun_spec (m : MetaData) (todo : List (Nat × BufPage)) (next bytes : Nat) :
    let r := FileEntry.takeRun m next bytes todo
    r.1 ++ r.2 = todo ∧ r.1.map Prod.fst = List.range' next r.1.length := by
  induction todo generalizing next bytes with
  | nil => exact ⟨rfl, rfl⟩
  | cons ip todo ih =>
      obtain ⟨i, p⟩ := ip
      simp only [FileEntry.takeRun]
      split
      · rename_i h
        obtain ⟨rfl, -⟩ := h
        obtain ⟨h₁, h₂⟩ := ih (i + 1) (bytes + m.pageBytes i)
        refine ⟨by simpa using h₁, ?_⟩
        simp only [List.map_cons, List.length_cons, List.range'_succ]
        rw [h₂]
      · exact ⟨rfl, rfl⟩

/-- Consecutive pages with their full bytes: each lies at its place in the run. -/
theorem run_covers (run : List (Nat × BufPage)) (first : Nat)
    (hpages : run.map Prod.fst = List.range' first run.length)
    (hfull : ∀ ip ∈ run, ip.1 < m.npages ∧ ip.2.data.length = m.pageBytes ip.1) :
    ∀ ip ∈ run, first ≤ ip.1 ∧
      (ip.1 - first) * m.pageSize + m.pageBytes ip.1 ≤ (Frame.runData m run).length := by
  induction run generalizing first with
  | nil => simp
  | cons hd run ih =>
      simp only [List.map_cons, List.length_cons, List.range'_succ, List.cons.injEq] at hpages
      obtain ⟨rfl, hrest⟩ := hpages
      have hhead := hfull hd (by simp)
      have hlen : (Frame.runData m (hd :: run)).length =
          m.pageBytes hd.1 + (Frame.runData m run).length := by
        simp [Frame.runData, hhead.2]
      intro ip hip
      rcases List.mem_cons.1 hip with rfl | hip
      · refine ⟨Nat.le_refl _, ?_⟩
        rw [hlen]
        simp
      · obtain ⟨hle, hcov⟩ := ih (hd.1 + 1) hrest (fun q hq => hfull q (by simp [hq])) ip hip
        -- A page that another one follows is full.
        have hfullPage : m.pageBytes hd.1 = m.pageSize :=
          MetaData.pageBytes_of_succ_lt (Nat.lt_of_le_of_lt hle (hfull ip (by simp [hip])).1)
        refine ⟨by omega, ?_⟩
        rw [hlen, hfullPage]
        have hsub : ip.1 - hd.1 = (ip.1 - (hd.1 + 1)) + 1 := by omega
        rw [hsub, Nat.add_mul, Nat.one_mul]
        omega

end UCache
