/-
Module: UCache.Core.Commits
Purpose: The commits of one handle under every interleaving of its threads.  As long as no two
  `flushMeta` calls overlap, memory and sidecar follow the handle's transitions; two that overlap
  can lose a published page.
Trusted boundary: none
Main exports: Frame.isMeta, flushMeta_safe_without_overlap,
  overlapping_flushMeta_loses_page
-/
import UCache.Core.EntryMachine
import UCache.Core.Sections

namespace UCache

open Lib

/-! ### Frames inside `flushMeta` -/

variable {r : FileEntry × Disk × List Frame} {fr : Frame}

/-- The thread is between the snapshot and the end of a `flushMeta`. -/
def Frame.isMeta : Frame → Bool
  | .metaLoad _ => true
  | .metaStore _ _ _ => true
  | .metaEnd _ _ _ _ => true
  | _ => false

def inFlush (frames : List Frame) : Bool := frames.any Frame.isMeta

@[simp] theorem inFlush_nil : inFlush [] = false := rfl

@[simp] theorem inFlush_cons (fr : Frame) (frames : List Frame) :
    inFlush (fr :: frames) = (fr.isMeta || inFlush frames) := rfl

@[simp] theorem inFlush_append (xs ys : List Frame) :
    inFlush (xs ++ ys) = (inFlush xs || inFlush ys) := List.any_append

theorem Op.inFlush_frames (op : Op) : inFlush op.frames = false := by
  cases op <;> rfl

/-- The step of thread `t` is the snapshot section of a `flushMeta` that goes ahead. -/
def TakesSnapshot (s : Machine) (t : Nat) (c : Choice) : Prop :=
  ∃ force rest, s.threads t = .flushMeta force :: rest ∧ s.e.dirty = true ∧
    (force = true ∨ c.due = true)

/-- No `flushMeta` takes its snapshot while another one of the handle is under way. -/
def NoOverlap (s : Machine) : MachineAct → Prop
  | .start _ _ => True
  | .step t c => TakesSnapshot s t c → ∀ t', inFlush (s.threads t') = false

/-- Every sidecar store succeeds. -/
def StoresSucceed (s : Machine) : MachineAct → Prop
  | .start _ _ => True
  | .step t c => ∀ f out merged rest, s.threads t = .metaStore f out merged :: rest → c.ok = true

/-- The outcome of a step outside `flushMeta`: the transitions of one section, the sidecar left
alone, and no commit entered. -/
structure Calm (e : FileEntry) (d : Disk) (r : FileEntry × Disk × List Frame) : Prop where
  sec : ∃ ts, Section e r.1 ts
  sidecar : r.2.1.sidecar = d.sidecar
  linked : r.2.1.linked = d.linked
  frames : inFlush r.2.2 = false

namespace Frame

variable {c : Choice} {e : FileEntry} {d : Disk}

theorem calm_stay {frames : List Frame} (h : inFlush frames = false) : Calm e d (e, d, frames) :=
  ⟨⟨[], Section.refl e⟩, rfl, rfl, h⟩

theorem calm_section {e' : FileEntry} (ts : List Transition) {frames : List Frame}
    (hs : Section e e' ts) (h : inFlush frames = false) : Calm e d (e', d, frames) :=
  ⟨⟨ts, hs⟩, rfl, rfl, h⟩

theorem calm_data {data : DataFile} {frames : List Frame} (h : inFlush frames = false) :
    Calm e d (e, { d with data := data }, frames) :=
  ⟨⟨[], Section.refl e⟩, rfl, rfl, h⟩

theorem calm_touchAtime : Calm e d (stepTouchAtime c e d) := by
  unfold stepTouchAtime
  split
  · exact calm_section []
      ⟨Extends.of_view rfl rfl rfl rfl rfl rfl rfl, fun _ => rfl⟩ rfl
  · exact calm_stay rfl

theorem calm_writePages {off : Nat} {bytes : Bytes} : Calm e d (stepWritePages e d off bytes) := by
  unfold stepWritePages
  simp only
  split
  · exact calm_stay rfl
  · split
    · exact calm_stay rfl
    · refine calm_section _ (section_stagePages e off bytes) ?_
      split <;> rfl

theorem calm_directCheck {off : Nat} {bytes : Bytes} {todo : List Nat}
    {done : List (Nat × UInt32)} : Calm e d (stepDirectCheck c e d off bytes todo done) := by
  unfold stepDirectCheck
  split
  · split <;> exact calm_stay rfl
  · split <;> exact calm_stay rfl

theorem calm_directWrite {off : Nat} {bytes : Bytes} {i : Nat} {todo : List Nat}
    {done : List (Nat × UInt32)} : Calm e d (stepDirectWrite c e d off bytes i todo done) := by
  unfold stepDirectWrite
  simp only
  split <;> exact calm_data rfl

theorem calm_flushBuffer {force : Bool} (h : stepFlushBuffer c e d force = some r) :
    Calm e d r := by
  unfold stepFlushBuffer at h
  split at h
  · split at h
    · simp at h
    · cases h
      exact calm_stay rfl
  · split at h
    · cases h
      exact calm_stay rfl
    · cases h
      exact calm_section _ (section_drainSnapshot e) rfl

theorem calm_drainWrite {todo : List (Nat × BufPage)} {done : List (Nat × UInt32)} {force : Bool} :
    Calm e d (stepDrainWrite c e d todo done force) := by
  unfold stepDrainWrite
  split
  · simp only
    split <;> exact calm_data rfl
  · exact calm_stay rfl

theorem calm_releaseRanges {ranges : List (Nat × Nat)} :
    Calm e d (stepReleaseRanges e d ranges) := by
  obtain ⟨ts, -, hsec, -⟩ := section_releaseSection e ranges
  unfold stepReleaseRanges
  refine calm_section _ hsec ?_
  split <;> rfl

theorem calm_punch {spans : List (Nat × Nat)} : Calm e d (stepPunch c e d spans) := by
  unfold stepPunch
  split
  · simp only
    split
    · exact calm_data rfl
    · exact calm_stay rfl
  · exact calm_stay rfl

theorem calm_readCached {off : Nat} {buf : Bytes} {account : Bool} :
    Calm e d (stepReadCached e d off buf account) := by
  unfold stepReadCached
  split
  · exact calm_stay rfl
  · split
    · exact calm_stay rfl
    · refine calm_section _ (section_readPlan e off buf account) ?_
      split <;> rfl

theorem calm_readRuns {off : Nat} {out : Bytes} {runs : List FileEntry.ReadRun} {account : Bool} :
    Calm e d (stepReadRuns c e d off out runs account) := by
  unfold stepReadRuns
  split
  · simp only
    split <;> exact calm_stay rfl
  · refine calm_stay ?_
    split <;> rfl

theorem calm_demoteBadPages {todo : List (Nat × UInt32)} :
    Calm e d (stepDemoteBadPages c e d todo) := by
  unfold stepDemoteBadPages
  split
  · split <;> exact calm_stay rfl
  · exact calm_stay rfl

theorem calm_verifyAll {i : Nat} {bad : Bool} : Calm e d (stepVerifyAll e d i bad) := by
  unfold stepVerifyAll
  split
  · refine calm_stay ?_
    split <;> rfl
  · split <;> exact calm_stay rfl

theorem calm_scrubPage {i : Nat} {expect : UInt32} {bad : Bool} :
    Calm e d (stepScrubPage c e d i expect bad) := by
  unfold stepScrubPage
  split <;> exact calm_stay rfl

/-- Every frame outside `flushMeta`, and a `flushMeta` that returns before its snapshot. -/
theorem step_calm (hmeta : fr.isMeta = false)
    (hsnap : ∀ force, fr = .flushMeta force → e.dirty = false ∨ (force = false ∧ c.due = false))
    (hstep : fr.step c e d = some r) : Calm e d r := by
  cases fr with
  | metaLoad f => simp [isMeta] at hmeta
  | metaStore f out merged => simp [isMeta] at hmeta
  | metaEnd f out merged ok => simp [isMeta] at hmeta
  | flushMeta force =>
      have hearly : (!e.dirty || (!force && !c.due)) = true := by
        rcases hsnap force rfl with h | ⟨h1, h2⟩
        · simp [h]
        · simp [h1, h2]
      simp only [step, stepFlushMeta, hearly, if_true, Option.some.injEq] at hstep
      exact hstep ▸ calm_stay rfl
  | touchAtime => cases hstep; exact calm_touchAtime
  | writePages off bytes => cases hstep; exact calm_writePages
  | directCheck off bytes todo done => cases hstep; exact calm_directCheck
  | directWrite off bytes i todo done => cases hstep; exact calm_directWrite
  | directPublish done => cases hstep; exact calm_section _ (section_directPublish e done) rfl
  | flushBuffer force => exact calm_flushBuffer hstep
  | drainWrite todo done force => cases hstep; exact calm_drainWrite
  | drainPublish done force => cases hstep; exact calm_section _ (section_drainPublish e done) rfl
  | stageSpeculative off bytes =>
      cases hstep; exact calm_section _ (section_stageSpeculative e off bytes) rfl
  | dropSpeculative off len => cases hstep; exact calm_section _ (section_dropSpeculative e off len) rfl
  | consumeSpeculative off len =>
      cases hstep; exact calm_section _ (section_consumeSpeculative e off len) rfl
  | checkpoint =>
      simp only [step] at hstep
      split at hstep <;> (cases hstep; exact calm_stay rfl)
  | setPinned p => cases hstep; exact calm_section _ (section_setPinned e p) rfl
  | releaseRanges ranges => cases hstep; exact calm_releaseRanges
  | punch spans => cases hstep; exact calm_punch
  | readCached off buf account => cases hstep; exact calm_readCached
  | readRuns off out runs account => cases hstep; exact calm_readRuns
  | readDone off out => cases hstep; exact calm_stay rfl
  | demote i => cases hstep; exact calm_section _ (section_demoteRun e i) rfl
  | demoteBadPages todo => cases hstep; exact calm_demoteBadPages
  | verifyAll i bad => cases hstep; exact calm_verifyAll
  | scrubPage i expect bad => cases hstep; exact calm_scrubPage

end Frame

/-! ### The invariant -/

section Invariant

variable {m₀ m : MetaData} {e e' : FileEntry} {ts : List Transition}
variable {k : Nat} {sidecar : Option MetaData}

/-- `m` shows the image of the log `ts` over the state the handle started from. -/
def Shows (m₀ m : MetaData) (ts : List Transition) : Prop :=
  ∀ i < m₀.npages, m.seen i = (lastPage ts i).getD (m₀.seen i)

/-- The sidecar shows the first `k` transitions; or nothing was committed yet and the sidecar, if
there is any, is not one a commit of this handle merges with. -/
def Durable (m₀ : MetaData) (e : FileEntry) (sidecar : Option MetaData) (k : Nat) : Prop :=
  (∃ m, sidecar = some m ∧ Shows m₀ m (e.trace.take k)) ∨
    (k = 0 ∧ ∀ f : MetaFlush, f.snapshot.validators = m₀.validators →
      f.image e.cfg e.key sidecar = (f.snapshot, false))

/-- No commit under way: the first `k` transitions are durable and the deltas describe the rest. -/
structure Quiescent (m₀ : MetaData) (k : Nat) (e : FileEntry) (sidecar : Option MetaData) :
    Prop where
  durable : Durable m₀ e sidecar k
  clean : e.dirty = false → ∃ m, sidecar = some m ∧ Shows m₀ m (e.trace.take k)

/-- A commit between its snapshot, which took the first `k` transitions, and its load. -/
structure Snapped (m₀ : MetaData) (k : Nat) (e : FileEntry) (sidecar : Option MetaData)
    (f : MetaFlush) : Prop where
  carries : ∃ j ≤ k, Carries m₀.npages f ((e.trace.take k).drop j) ∧ Durable m₀ e sidecar j
  shows_ : Shows m₀ f.snapshot (e.trace.take k)
  validators : f.snapshot.validators = m₀.validators
  pageSize : f.snapshot.pageSize = m₀.pageSize

/-- What holds of the commit a thread is in. -/
def FrameOk (m₀ : MetaData) (k : Nat) (e : FileEntry) (sidecar : Option MetaData) : Frame → Prop
  | .metaLoad f => Snapped m₀ k e sidecar f
  | .metaStore _ out _ => Shows m₀ out (e.trace.take k)
  | .metaEnd _ out _ ok => ok = true ∧ sidecar = some out ∧ Shows m₀ out (e.trace.take k)
  | _ => False

/-- At most one commit is under way, and it or the handle accounts for every transition that is
not in the sidecar.  The first `k` transitions have been taken by a snapshot. -/
structure CommitInv (m₀ : MetaData) (k : Nat) (s : Machine) : Prop where
  linked : s.disk.linked = true
  validators : s.e.meta_.validators = m₀.validators
  pageSize : s.e.meta_.pageSize = m₀.pageSize
  view : Shows m₀ s.e.meta_ s.e.trace
  le_length : k ≤ s.e.trace.length
  tracks : Tracks m₀.npages s.e (s.e.trace.drop k)
  clean : s.e.dirty = false → k = s.e.trace.length
  flush :
    ((∀ t, inFlush (s.threads t) = false) ∧ Quiescent m₀ k s.e s.disk.sidecar) ∨
      ∃ t fr rest, s.threads t = fr :: rest ∧ inFlush rest = false ∧
        (∀ t' ≠ t, inFlush (s.threads t') = false) ∧ FrameOk m₀ k s.e s.disk.sidecar fr

/-- A commit is under way, or the sidecar shows what the last one took. -/
def Begun (m₀ : MetaData) (k : Nat) (s : Machine) : Prop :=
  (∃ t, inFlush (s.threads t) = true) ∨
    ∃ m, s.disk.sidecar = some m ∧ Shows m₀ m (s.e.trace.take k)

theorem CommitInv.begun_of_clean {s : Machine} (h : CommitInv m₀ k s) (hd : s.e.dirty = false) :
    Begun m₀ k s := by
  rcases h.flush with ⟨-, hq⟩ | ⟨t, fr, rest, ht, -, -, hok⟩
  · exact Or.inr (hq.clean hd)
  · refine Or.inl ⟨t, ?_⟩
    rw [ht]
    cases fr with
    | metaLoad f => rfl
    | metaStore f out merged => rfl
    | metaEnd f out merged ok => rfl
    | _ => exact False.elim hok

theorem npages_eq (hv : m.validators = m₀.validators) (hp : m.pageSize = m₀.pageSize) :
    m.npages = m₀.npages := by
  have hfs : m.fileSize = m₀.fileSize := congrArg Validators.originSize hv
  simp [MetaData.npages, hp, hfs]

theorem Shows.extends (h : Shows m₀ e.meta_ e.trace) (hx : Extends e e' ts) :
    Shows m₀ e'.meta_ e'.trace := by
  intro i hi
  rw [hx.seen, hx.trace, h i hi]
  exact (lastFor_append_getD _ _ _ _).symm

theorem Durable.extends (h : Durable m₀ e sidecar k) (hk : k ≤ e.trace.length)
    (hx : Extends e e' ts) : Durable m₀ e' sidecar k := by
  unfold Durable
  rw [hx.trace, List.take_append_of_le_length hk, hx.cfg, hx.key]
  exact h

/-- A pending log grows by what the section did. -/
theorem tracks_drop_extends {n : Nat} (h : Tracks n e (e.trace.drop k)) (hk : k ≤ e.trace.length)
    (hx : Extends e e' ts) : Tracks n e' (e'.trace.drop k) := by
  rw [hx.trace, List.drop_append_of_le_length hk]
  exact hx.tracks h

theorem length_extends (hx : Extends e e' ts) : e'.trace.length = e.trace.length + ts.length := by
  rw [hx.trace, List.length_append]

/-- A section that leaves the handle clean made no transition and found it clean. -/
theorem Section.clean (h : Section e e' ts) (hd : e'.dirty = false) : e.dirty = false ∧ ts = [] := by
  by_contra hne
  have hor : e.dirty = true ∨ ts ≠ [] := by
    by_cases ht : ts = []
    · left
      cases hed : e.dirty with
      | true => rfl
      | false => exact absurd ⟨hed, ht⟩ hne
    · exact Or.inr ht
  simp [h.dirty hor] at hd

theorem Quiescent.section (h : Quiescent m₀ k e sidecar) (hk : k ≤ e.trace.length)
    (hs : Section e e' ts) : Quiescent m₀ k e' sidecar := by
  have hx := hs.extends_
  refine ⟨h.durable.extends hk hx, ?_⟩
  intro hd
  rw [hx.trace, List.take_append_of_le_length hk]
  exact h.clean (hs.clean hd).1

theorem FrameOk.section (h : FrameOk m₀ k e sidecar fr) (hk : k ≤ e.trace.length)
    (hs : Section e e' ts) : FrameOk m₀ k e' sidecar fr := by
  have hx := hs.extends_
  have htake : e'.trace.take k = e.trace.take k := by
    rw [hx.trace, List.take_append_of_le_length hk]
  cases fr with
  | metaLoad f =>
      obtain ⟨⟨j, hj, hca, hdur⟩, hsh, hv, hp⟩ := h
      refine ⟨⟨j, hj, ?_, hdur.extends (Nat.le_trans hj hk) hx⟩, ?_, hv, hp⟩
      · rw [htake]
        exact hca
      · rw [htake]
        exact hsh
  | metaStore f out merged =>
      unfold FrameOk
      rw [htake]
      exact h
  | metaEnd f out merged ok =>
      unfold FrameOk
      rw [htake]
      exact h
  | _ => exact False.elim h

theorem FrameOk.isMeta (h : FrameOk m₀ k e sidecar fr) : fr.isMeta = true := by
  cases fr with
  | metaLoad f => rfl
  | metaStore f out merged => rfl
  | metaEnd f out merged ok => rfl
  | _ => exact False.elim h

/-! ### The steps of a commit -/

/-- The image to store shows everything up to the snapshot, merged or not. -/
theorem Snapped.image {f : MetaFlush} (h : Snapped m₀ k e sidecar f) :
    Shows m₀ (f.image e.cfg e.key sidecar).1 (e.trace.take k) := by
  obtain ⟨⟨j, hjk, hca, hdur⟩, hsh, hv, hp⟩ := h
  rcases f.image_cases e.cfg e.key sidecar with himg | ⟨m, d, rfl, himg, hpage, -, -, hnp, -⟩
  · rw [himg]
    exact hsh
  · rcases hdur with ⟨m', hm', hm⟩ | ⟨-, hun⟩
    · cases hm'
      have hn : d.npages = m₀.npages := hnp.trans (npages_eq hv hp)
      have hsplit : e.trace.take k = e.trace.take j ++ (e.trace.take k).drop j := by
        have htj : e.trace.take j = (e.trace.take k).take j := by
          rw [List.take_take, Nat.min_eq_left hjk]
        rw [htj, List.take_append_drop]
      intro i hi
      rw [himg, hca.seen_merge hn hi, MetaData.seen_congr (hpage i), hm i hi]
      conv_rhs => rw [hsplit]
      exact (lastFor_append_getD _ _ _ _).symm
    · rw [hun f hv] at himg
      simp at himg

/-- Adopting an image that shows everything up to the snapshot changes nothing a reader sees. -/
theorem Shows.adopt {out : MetaData} (hsh : Shows m₀ out (e.trace.take k))
    (htr : Tracks m₀.npages e (e.trace.drop k)) (hn : e.meta_.npages = m₀.npages) :
    Shows m₀ (e.flushMetaAdopt out).meta_ e.trace := by
  intro i hi
  rw [htr.seen_adopt hn out hi, hsh i hi]
  conv_rhs => rw [← List.take_append_drop k e.trace]
  exact (lastFor_append_getD _ _ _ _).symm

/-! ### One step of the machine -/

variable {s s' : Machine} {t k : Nat} {c : Choice}

theorem inFlush_update {threads : Nat → List Frame} {frames : List Frame}
    (h : ∀ t', inFlush (threads t') = false) (hf : inFlush frames = false) (t' : Nat) :
    inFlush (Function.update threads t frames t') = false := by
  by_cases ht : t' = t
  · subst ht
    simpa using hf
  · simpa [Function.update_of_ne ht] using h t'

/-- Thread `t` now stands at the commit frame `fr`; no other thread is in a commit. -/
theorem busy_update {threads : Nat → List Frame} (fr : Frame) {rest : List Frame}
    (hrest : inFlush rest = false) (hoth : ∀ t' ≠ t, inFlush (threads t') = false)
    (hok : FrameOk m₀ k e sidecar fr) :
    ∃ t₁ fr₁ rest₁, Function.update threads t ([fr] ++ rest) t₁ = fr₁ :: rest₁ ∧
      inFlush rest₁ = false ∧
      (∀ t' ≠ t₁, inFlush (Function.update threads t ([fr] ++ rest) t') = false) ∧
      FrameOk m₀ k e sidecar fr₁ := by
  refine ⟨t, fr, rest, by simp, hrest, ?_, hok⟩
  intro t' ht'
  simpa [Function.update_of_ne ht'] using hoth t' ht'

theorem commitInv_start {op : Op} (h : CommitInv m₀ k s)
    (hstep : s.step (.start t op) = some s') : CommitInv m₀ k s' := by
  obtain ⟨ht, rfl⟩ := Machine.start_inv hstep
  refine ⟨h.linked, h.validators, h.pageSize, h.view, h.le_length, h.tracks, h.clean, ?_⟩
  rcases h.flush with ⟨hno, hq⟩ | ⟨t₀, fr, rest, ht₀, hrest, hoth, hok⟩
  · exact Or.inl ⟨inFlush_update hno op.inFlush_frames, hq⟩
  · have hne : t₀ ≠ t := by
      rintro rfl
      simp [ht] at ht₀
    refine Or.inr ⟨t₀, fr, rest, by simpa [Function.update_of_ne hne] using ht₀, hrest, ?_, hok⟩
    intro t' ht'
    by_cases h' : t' = t
    · subst h'
      simpa using op.inFlush_frames
    · simpa [Function.update_of_ne h'] using hoth t' ht'

/-- A step outside `flushMeta` by a thread that is not in one. -/
theorem commitInv_calm {rest : List Frame} (h : CommitInv m₀ k s) (ht : s.threads t = fr :: rest)
    (hmeta : fr.isMeta = false) (hr : Calm s.e s.disk r) :
    CommitInv m₀ k
      { e := r.1, disk := r.2.1, threads := Function.update s.threads t (r.2.2 ++ rest) } := by
  obtain ⟨⟨ts, hs⟩, hsc, hl, hfr⟩ := hr
  have hx := hs.extends_
  refine ⟨hl.trans h.linked, hx.validators.trans h.validators, hx.pageSize.trans h.pageSize,
    h.view.extends hx, ?_, tracks_drop_extends h.tracks h.le_length hx, ?_, ?_⟩
  · rw [length_extends hx]
    exact Nat.le_add_right_of_le h.le_length
  · intro hd
    obtain ⟨hed, rfl⟩ := hs.clean hd
    rw [length_extends hx]
    exact h.clean hed
  simp only [hsc]
  rcases h.flush with ⟨hno, hq⟩ | ⟨t₀, fr₀, rest₀, ht₀, hrest₀, hoth, hok⟩
  · have hrest : inFlush rest = false := by
      have := hno t
      rw [ht] at this
      simpa [hmeta] using this
    exact Or.inl ⟨inFlush_update hno (by simp [hfr, hrest]), hq.section h.le_length hs⟩
  · have hne : t₀ ≠ t := by
      rintro rfl
      rw [ht] at ht₀
      cases ht₀
      simp [hok.isMeta] at hmeta
    have hrest : inFlush rest = false := by
      have := hoth t (Ne.symm hne)
      rw [ht] at this
      simpa [hmeta] using this
    refine Or.inr ⟨t₀, fr₀, rest₀, by simpa [Function.update_of_ne hne] using ht₀, hrest₀, ?_,
      hok.section h.le_length hs⟩
    intro t' ht'
    by_cases h' : t' = t
    · subst h'
      simp [hfr, hrest]
    · simpa [Function.update_of_ne h'] using hoth t' ht'

/-- The snapshot of a commit, with no other commit under way: it takes everything pending. -/
theorem commitInv_snapshot {force : Bool} {rest : List Frame} (h : CommitInv m₀ k s)
    (ht : s.threads t = .flushMeta force :: rest)
    (hno : ∀ t', inFlush (s.threads t') = false) :
    CommitInv m₀ s.e.trace.length
      { e := s.e.flushMetaBegin.1
        disk := s.disk
        threads := Function.update s.threads t ([.metaLoad s.e.flushMetaBegin.2] ++ rest) } := by
  obtain ⟨hnew, hca⟩ := h.tracks.flushMetaBegin
  refine ⟨h.linked, h.validators, h.pageSize, h.view, Nat.le_refl _, ?_, fun _ => rfl, Or.inr ?_⟩
  · simpa [FileEntry.flushMetaBegin] using hnew
  have hrest : inFlush rest = false := by
    have := hno t
    rw [ht] at this
    simpa [Frame.isMeta] using this
  refine busy_update _ hrest (fun t' _ => hno t') ?_
  rcases h.flush with ⟨-, hq⟩ | ⟨t₀, fr₀, rest₀, ht₀, -, -, hok⟩
  · refine ⟨⟨k, h.le_length, ?_, hq.durable⟩, ?_, h.validators, h.pageSize⟩
    · simpa [FileEntry.flushMetaBegin] using hca
    · simpa [FileEntry.flushMetaBegin] using h.view
  · have := hno t₀
    rw [ht₀] at this
    simp [hok.isMeta] at this

/-- A step of the commit under way. -/
theorem commitInv_meta {rest : List Frame} (h : CommitInv m₀ k s) (hrest : inFlush rest = false)
    (hoth : ∀ t' ≠ t, inFlush (s.threads t') = false) (hok : FrameOk m₀ k s.e s.disk.sidecar fr)
    (hstore : ∀ f out merged, fr = .metaStore f out merged → c.ok = true)
    (hr : fr.step c s.e s.disk = some r) :
    CommitInv m₀ k
      { e := r.1, disk := r.2.1, threads := Function.update s.threads t (r.2.2 ++ rest) } := by
  cases fr with
  | metaLoad f =>
      simp only [Frame.step, Frame.stepMetaLoad, h.linked, Bool.not_true, Bool.false_eq_true,
        if_false, Option.some.injEq] at hr
      subst hr
      refine ⟨h.linked, h.validators, h.pageSize, h.view, h.le_length, h.tracks, h.clean,
        Or.inr ?_⟩
      exact busy_update (.metaStore f _ _) hrest hoth (Snapped.image hok)
  | metaStore f out merged =>
      simp only [Frame.step, Frame.stepMetaStore, hstore f out merged rfl, if_true,
        Option.some.injEq] at hr
      subst hr
      refine ⟨h.linked, h.validators, h.pageSize, h.view, h.le_length, h.tracks, h.clean,
        Or.inr ?_⟩
      exact busy_update (.metaEnd f out merged true) hrest hoth ⟨rfl, rfl, hok⟩
  | metaEnd f out merged ok =>
      obtain ⟨rfl, hsc, hsh⟩ := hok
      have hn := npages_eq h.validators h.pageSize
      simp only [Frame.step, Frame.stepMetaEnd, if_true, Option.some.injEq] at hr
      subst hr
      have hquiet : ∀ t', inFlush (Function.update s.threads t ([] ++ rest) t') = false := by
        intro t'
        by_cases h' : t' = t
        · subst h'
          simpa using hrest
        · simpa [Function.update_of_ne h'] using hoth t' h'
      cases merged with
      | false =>
          refine ⟨h.linked, h.validators, h.pageSize, h.view, h.le_length, h.tracks, h.clean,
            Or.inl ⟨hquiet, ?_, ?_⟩⟩
          · exact Or.inl ⟨out, hsc, hsh⟩
          · exact fun _ => ⟨out, hsc, hsh⟩
      | true =>
          refine ⟨h.linked, h.validators, h.pageSize, hsh.adopt h.tracks hn, h.le_length,
            h.tracks.flushMetaAdopt hn out, h.clean, Or.inl ⟨hquiet, ?_, ?_⟩⟩
          · exact Or.inl ⟨out, hsc, hsh⟩
          · exact fun _ => ⟨out, hsc, hsh⟩
  | _ => exact False.elim hok

theorem begun_start {op : Op} (h : Begun m₀ k s) (hstep : s.step (.start t op) = some s') :
    Begun m₀ k s' := by
  obtain ⟨ht, rfl⟩ := Machine.start_inv hstep
  rcases h with ⟨t', h'⟩ | h'
  · refine Or.inl ⟨t', ?_⟩
    have hne : t' ≠ t := by
      rintro rfl
      simp [ht] at h'
    simpa [Function.update_of_ne hne] using h'
  · exact Or.inr h'

theorem begun_calm {rest : List Frame} (h : Begun m₀ k s) (hk : k ≤ s.e.trace.length)
    (ht : s.threads t = fr :: rest) (hmeta : fr.isMeta = false) (hr : Calm s.e s.disk r) :
    Begun m₀ k
      { e := r.1, disk := r.2.1, threads := Function.update s.threads t (r.2.2 ++ rest) } := by
  rcases h with ⟨t', h'⟩ | ⟨m, hm, hshow⟩
  · refine Or.inl ⟨t', ?_⟩
    by_cases hne : t' = t
    · subst hne
      rw [ht] at h'
      simpa [hmeta, hr.frames] using h'
    · simpa [Function.update_of_ne hne] using h'
  · obtain ⟨ts, hs⟩ := hr.sec
    refine Or.inr ⟨m, hr.sidecar.trans hm, ?_⟩
    rw [hs.extends_.trace, List.take_append_of_le_length hk]
    exact hshow

/-- A step of the commit under way: it goes on, or it has just made the sidecar show its image. -/
theorem begun_meta {rest : List Frame} (hl : s.disk.linked = true)
    (hok : FrameOk m₀ k s.e s.disk.sidecar fr) (hr : fr.step c s.e s.disk = some r) :
    Begun m₀ k
      { e := r.1, disk := r.2.1, threads := Function.update s.threads t (r.2.2 ++ rest) } := by
  cases fr with
  | metaLoad f =>
      simp only [Frame.step, Frame.stepMetaLoad, hl, Bool.not_true, Bool.false_eq_true, if_false,
        Option.some.injEq] at hr
      subst hr
      exact Or.inl ⟨t, by simp [Frame.isMeta]⟩
  | metaStore f out merged =>
      simp only [Frame.step, Frame.stepMetaStore, Option.some.injEq] at hr
      subst hr
      exact Or.inl ⟨t, by simp [Frame.isMeta]⟩
  | metaEnd f out merged ok =>
      obtain ⟨rfl, hsc, hsh⟩ := hok
      simp only [Frame.step, Frame.stepMetaEnd, if_true, Option.some.injEq] at hr
      subst hr
      refine Or.inr ⟨out, hsc, ?_⟩
      cases merged <;> exact hsh
  | _ => exact False.elim hok

/-- A step either leaves the taken prefix as it is, or is a snapshot that takes everything; and
once a commit has begun there is always one under way or shown by the sidecar. -/
theorem commitInv_step {a : MachineAct} (h : CommitInv m₀ k s) (hno : NoOverlap s a)
    (hst : StoresSucceed s a) (hstep : s.step a = some s') :
    ∃ k', CommitInv m₀ k' s' ∧
      ((k' = k ∧ (Begun m₀ k s → Begun m₀ k' s')) ∨
        (k' = s.e.trace.length ∧ Begun m₀ k' s' ∧ ∃ t c, a = .step t c ∧ TakesSnapshot s t c)) := by
  cases a with
  | start t op =>
      exact ⟨k, commitInv_start h hstep, Or.inl ⟨rfl, fun hb => begun_start hb hstep⟩⟩
  | step t c =>
      obtain ⟨fr, rest, r, ht, hr, rfl⟩ := Machine.step_inv hstep
      by_cases hmeta : fr.isMeta = true
      · rcases h.flush with ⟨hquiet, -⟩ | ⟨t₀, fr₀, rest₀, ht₀, hrest₀, hoth, hok⟩
        · have := hquiet t
          rw [ht] at this
          simp [hmeta] at this
        · have heq : t = t₀ := by
            by_contra hne
            have := hoth t hne
            rw [ht] at this
            simp [hmeta] at this
          subst heq
          rw [ht] at ht₀
          cases ht₀
          exact ⟨k, commitInv_meta h hrest₀ hoth hok
            (fun f out merged hfr => hst f out merged rest (hfr ▸ ht)) hr,
            Or.inl ⟨rfl, fun _ => begun_meta h.linked hok hr⟩⟩
      · have hmeta' : fr.isMeta = false := by simpa using hmeta
        by_cases hsnap : TakesSnapshot s t c
        · have hsnap' := hsnap
          obtain ⟨force, rest', ht', hdirty, hdue⟩ := hsnap
          rw [ht] at ht'
          cases ht'
          have hgo : (!s.e.dirty || (!force && !c.due)) = false := by
            rcases hdue with h' | h' <;> simp [hdirty, h']
          simp only [Frame.step, Frame.stepFlushMeta, hgo, Bool.false_eq_true, if_false,
            Option.some.injEq] at hr
          subst hr
          exact ⟨_, commitInv_snapshot h ht (hno hsnap'),
            Or.inr ⟨rfl, Or.inl ⟨t, by simp [Frame.isMeta]⟩, t, c, rfl, hsnap'⟩⟩
        · have hcalm : Calm s.e s.disk r := by
            refine Frame.step_calm hmeta' ?_ hr
            rintro force rfl
            by_contra hne
            apply hsnap
            refine ⟨force, rest, ht, ?_, ?_⟩
            · cases hd : s.e.dirty with
              | true => rfl
              | false => exact absurd (Or.inl hd) hne
            · cases force with
              | true => exact Or.inl rfl
              | false =>
                  cases hdue : c.due with
                  | true => exact Or.inr rfl
                  | false => exact absurd (Or.inr ⟨rfl, hdue⟩) hne
          exact ⟨k, commitInv_calm h ht hmeta' hcalm,
            Or.inl ⟨rfl, fun hb => begun_calm hb h.le_length ht hmeta' hcalm⟩⟩

/-! ### Whole runs -/

theorem openAdopt_eq_some {cfg : Config} {key : Bytes} {v : Validators}
    (h : FileEntry.openAdopt cfg key v sidecar = some e) :
    ∃ d m, sidecar = some m ∧ e = FileEntry.ofMeta cfg key d false ∧
      adoptable d cfg key v = true ∧ d.validators = m.validators ∧ ∀ i, d.page i = m.page i := by
  simp only [FileEntry.openAdopt, Option.bind_eq_some_iff] at h
  obtain ⟨d, hload, hadopt⟩ := h
  obtain ⟨m, hm, -, hd⟩ := MetaFile.load_eq_some hload
  split at hadopt
  · rename_i ha
    refine ⟨d, m, hm, by simpa using hadopt.symm, ha, ?_, ?_⟩
    · rw [hd]
      rfl
    · rw [hd]
      exact fun _ => rfl
  · simp at hadopt

theorem tracks_ofMeta (n : Nat) (cfg : Config) (key : Bytes) (m : MetaData) (dirty : Bool) :
    Tracks n (FileEntry.ofMeta cfg key m dirty) [] := by
  constructor <;> simp [FileEntry.ofMeta]

/-- A handle as `open` leaves it. -/
theorem commitInv_opened (cfg : Config) (key : Bytes) (v : Validators) (now : Nat) (stored : Bool)
    (sidecar : Option MetaData) (data : DataFile) :
    CommitInv (Machine.opened cfg key v now stored sidecar data).e.meta_ 0
      (Machine.opened cfg key v now stored sidecar data) := by
  unfold Machine.opened
  split
  · rename_i e he
    obtain ⟨d, m, rfl, rfl, -, -, hpage⟩ := openAdopt_eq_some he
    have hshow : Shows d m [] := fun i _ => (MetaData.seen_congr (hpage i)).symm
    refine ⟨rfl, rfl, rfl, fun i _ => rfl, Nat.le_refl _, tracks_ofMeta _ cfg key d false,
      fun _ => rfl, Or.inl ⟨fun _ => rfl, ?_, ?_⟩⟩
    · exact Or.inl ⟨m, rfl, hshow⟩
    · exact fun _ => ⟨m, rfl, hshow⟩
  · rename_i hnone
    refine ⟨rfl, rfl, rfl, fun i _ => rfl, Nat.le_refl _, tracks_ofMeta _ cfg key _ _,
      fun _ => rfl, Or.inl ⟨fun _ => rfl, ?_, ?_⟩⟩
    · cases stored with
      | true => exact Or.inl ⟨_, rfl, fun i _ => rfl⟩
      | false =>
          refine Or.inr ⟨rfl, ?_⟩
          intro f hf
          rcases f.image_cases cfg key sidecar with h | ⟨m, d, rfl, himg, -, -, -, -, hadopt⟩
          · exact h
          · -- A sidecar a commit would merge with is one `open` would have adopted.
            have hv : f.snapshot.validators = v := hf
            unfold MetaFlush.image at himg
            cases hload : MetaFile.load (some m) with
            | none => simp [hload] at himg
            | some d' =>
                simp only [hload] at himg
                split at himg
                · rename_i hguard
                  simp [FileEntry.openAdopt, hload, ← hv, hguard.2] at hnone
                · simp at himg
    · intro hclean
      cases stored with
      | true => exact ⟨_, rfl, fun i _ => rfl⟩
      | false => simp [FileEntry.openFresh, FileEntry.ofMeta] at hclean

/-- A page pending as set is present with the CRC it was last published with. -/
theorem CommitInv.setSince (h : CommitInv m₀ k s) {i : Nat} (hi : i < m₀.npages)
    (hset : s.e.setSince.get i = true) :
    ∃ crc, lastPage s.e.trace i = some (true, crc) ∧ s.e.meta_.seen i = (true, crc) := by
  obtain ⟨crc, hlast⟩ := (h.tracks.set_iff i hi).1 hset
  have htrace : lastPage s.e.trace i = some (true, crc) := by
    have hsplit := lastPage_append (s.e.trace.take k) (s.e.trace.drop k) i
    rw [List.take_append_drop, hlast] at hsplit
    simpa using hsplit
  refine ⟨crc, htrace, ?_⟩
  rw [h.view i hi, htrace]
  rfl

/-- The thread that runs the last `flushMeta(true)`, all others being idle: it has not taken its
snapshot, or the handle has been clean since. -/
structure Settling (m₀ : MetaData) (t : Nat) (s : Machine) : Prop where
  inv : ∃ k, CommitInv m₀ k s
  others : ∀ t' ≠ t, s.threads t' = []
  here : s.threads t = [.flushMeta true] ∨
    (s.e.dirty = false ∧ (s.threads t = [] ∨ ∃ fr, s.threads t = [fr] ∧ fr.isMeta = true))

/-- The conditions under which commits are safe, as a condition on each step. -/
def CommitCond (s : Machine) (a : MachineAct) : Prop := NoOverlap s a ∧ StoresSucceed s a

theorem Settling.step (h : Settling m₀ t s) (hcond : CommitCond s (.step t c))
    (hstep : s.step (.step t c) = some s') : Settling m₀ t s' := by
  obtain ⟨k, hk⟩ := h.inv
  obtain ⟨k', hinv, -⟩ := commitInv_step hk hcond.1 hcond.2 hstep
  obtain ⟨fr, rest, r, ht, hr, rfl⟩ := Machine.step_inv hstep
  refine ⟨⟨k', hinv⟩, ?_, ?_⟩
  · intro t' ht'
    simpa [Function.update_of_ne ht'] using h.others t' ht'
  right
  simp only [Function.update_self]
  rcases h.here with hhere | ⟨hd, hhere | ⟨fr', hhere, hmeta⟩⟩
  · rw [ht] at hhere
    cases hhere
    cases hdirty : s.e.dirty with
    | true =>
        simp only [Frame.step, Frame.stepFlushMeta, hdirty, Option.some.injEq] at hr
        subst hr
        exact ⟨rfl, Or.inr ⟨_, rfl, rfl⟩⟩
    | false =>
        simp only [Frame.step, Frame.stepFlushMeta, hdirty, Option.some.injEq] at hr
        subst hr
        exact ⟨hdirty, Or.inl rfl⟩
  · simp [ht] at hhere
  · rw [ht] at hhere
    cases hhere
    cases fr with
    | metaLoad f =>
        simp only [Frame.step, Frame.stepMetaLoad, hk.linked, Option.some.injEq] at hr
        subst hr
        exact ⟨hd, Or.inr ⟨_, rfl, rfl⟩⟩
    | metaStore f out merged =>
        simp only [Frame.step, Frame.stepMetaStore, Option.some.injEq] at hr
        subst hr
        exact ⟨hd, Or.inr ⟨_, rfl, rfl⟩⟩
    | metaEnd f out merged ok =>
        have hok : ok = true := by
          rcases hk.flush with ⟨hno, -⟩ | ⟨t₀, fr₀, rest₀, ht₀, -, hoth, hok⟩
          · have := hno t
            rw [ht] at this
            simp [Frame.isMeta] at this
          · have heq : t = t₀ := by
              by_contra hne
              have := hoth t hne
              rw [ht] at this
              simp [Frame.isMeta] at this
            subst heq
            rw [ht] at ht₀
            cases ht₀
            exact hok.1
        subst hok
        simp only [Frame.step, Frame.stepMetaEnd, Option.some.injEq] at hr
        subst hr
        refine ⟨?_, Or.inl rfl⟩
        cases merged <;> exact hd
    | _ => simp [Frame.isMeta] at hmeta

theorem Settling.exec : ∀ {cs : List Choice} {s s' : Machine}, Settling m₀ t s →
    Along Machine.step CommitCond s (cs.map (.step t)) →
    exec Machine.step s (cs.map (.step t)) = some s' → Settling m₀ t s'
  | [], _, _, h, _, hrun => by
      cases hrun
      exact h
  | _ :: _, _, _, h, halong, hrun => by
      obtain ⟨s₁, hs₁, hrest⟩ := exec_cons_inv hrun
      exact Settling.exec (h.step halong.1 hs₁) (halong.2 s₁ hs₁) hrest

/-- When every thread is idle again, memory and sidecar both show every page as its last
transition left it. -/
theorem Settling.settled (h : Settling m₀ t s) (hidle : s.idle) {i : Nat} (hi : i < m₀.npages)
    {x : Bool × UInt32} (hx : lastPage s.e.trace i = some x) :
    s.e.meta_.seen i = x ∧ ∃ m, s.disk.sidecar = some m ∧ m.seen i = x := by
  have hclean : s.e.dirty = false := by
    rcases h.here with hhere | ⟨hd, -⟩
    · simp [hidle t] at hhere
    · exact hd
  obtain ⟨k, hinv⟩ := h.inv
  refine ⟨by rw [hinv.view i hi, hx]; rfl, ?_⟩
  rcases hinv.flush with ⟨-, hq⟩ | ⟨t₀, fr, rest, ht₀, -⟩
  · obtain ⟨m, hm, hshow⟩ := hq.clean hclean
    rw [hinv.clean hclean, List.take_length] at hshow
    exact ⟨m, hm, by rw [hshow i hi, hx]; rfl⟩
  · simp [hidle t₀] at ht₀

end Invariant

/-- Threads of one handle write out, checkpoint, release, pin, read and scrub in any order.  If no
`flushMeta` takes its snapshot while another is under way and every store succeeds, then at every
moment each page pending as set is present with the CRC it was published with; and once all calls
have returned and one more `flushMeta(true)` has run, memory and sidecar both show every page as
its last transition left it. -/
theorem flushMeta_safe_without_overlap {cfg : Config} {key : Bytes} {v : Validators} {now : Nat}
    {stored : Bool} {sidecar : Option MetaData} {data : DataFile} {acts : List MachineAct}
    {s : Machine}
    (halong : Along Machine.step CommitCond
      (Machine.opened cfg key v now stored sidecar data) acts)
    (hrun : exec Machine.step (Machine.opened cfg key v now stored sidecar data) acts = some s) :
    (∀ i < s.e.meta_.npages, s.e.setSince.get i = true →
      ∃ crc, lastPage s.e.trace i = some (true, crc) ∧ s.e.meta_.seen i = (true, crc)) ∧
    (s.idle → ∀ (t : Nat) (cs : List Choice) (s' : Machine),
      Along Machine.step CommitCond s (.start t (.flushMeta true) :: cs.map (.step t)) →
      exec Machine.step s (.start t (.flushMeta true) :: cs.map (.step t)) = some s' → s'.idle →
      ∀ i < s'.e.meta_.npages, ∀ x, lastPage s'.e.trace i = some x →
        s'.e.meta_.seen i = x ∧ ∃ m, s'.disk.sidecar = some m ∧ m.seen i = x) := by
  obtain ⟨m₀, k, hinv⟩ : ∃ m₀ k, CommitInv m₀ k s :=
    ⟨_, exec_invariant_along (fun s => ∃ k, CommitInv _ k s)
      (fun _ _ _ ⟨_, h⟩ hcond hstep =>
        let ⟨k', h', _⟩ := commitInv_step h hcond.1 hcond.2 hstep
        ⟨k', h'⟩)
      ⟨0, commitInv_opened cfg key v now stored sidecar data⟩ halong hrun⟩
  constructor
  · intro i hi hset
    rw [npages_eq hinv.validators hinv.pageSize] at hi
    exact hinv.setSince hi hset
  · intro hidle t cs s' halong' hrun' hidle' i hi x hx
    obtain ⟨s₁, hs₁, hrest⟩ := exec_cons_inv hrun'
    have hsettling : Settling m₀ t s₁ := by
      refine ⟨⟨k, commitInv_start hinv hs₁⟩, ?_, ?_⟩
      · intro t' ht'
        rw [Machine.step_threads_of_ne hs₁ ht']
        exact hidle t'
      · obtain ⟨-, rfl⟩ := Machine.start_inv hs₁
        exact Or.inl (by simp [Op.frames])
    have hlast := hsettling.exec (halong'.2 s₁ hs₁) hrest
    obtain ⟨k', hk'⟩ := hlast.inv
    rw [npages_eq hk'.validators hk'.pageSize] at hi
    exact hlast.settled hidle' hi hx

/-! ### Runs of finitely many threads -/

/-- `CommitCond`, evaluated for a machine on which only the threads `ts` are active. -/
def commitCheck (ts : List Nat) (s : Machine) : MachineAct → Bool
  | .start _ _ => true
  | .step t c =>
      match s.threads t with
      | .flushMeta force :: _ =>
          !(s.e.dirty && (force || c.due)) || ts.all fun t' => !inFlush (s.threads t')
      | .metaStore _ _ _ :: _ => c.ok
      | _ => true

theorem commitCheck_sound {ts : List Nat} {s : Machine} {a : MachineAct}
    (hs : ∀ t ∉ ts, s.threads t = []) (h : commitCheck ts s a = true) : CommitCond s a := by
  cases a with
  | start t op => exact ⟨trivial, trivial⟩
  | step t c =>
      constructor
      · rintro ⟨force, rest, ht, hd, hdue⟩ t'
        by_cases hmem : t' ∈ ts
        · have hgo : (s.e.dirty && (force || c.due)) = true := by
            rcases hdue with h' | h' <;> simp [hd, h']
          simp only [commitCheck, ht, hgo, Bool.not_true, Bool.false_or, List.all_eq_true] at h
          simpa using h t' hmem
        · simp [hs t' hmem]
      · intro f out merged rest ht
        simpa [commitCheck, ht] using h

theorem along_commitCond (ts : List Nat) {s : Machine} {acts : List MachineAct}
    (hs : ∀ t ∉ ts, s.threads t = []) (hts : ∀ a ∈ acts, a.thread ∈ ts)
    (h : alongB Machine.step (commitCheck ts) s acts = true) :
    Along Machine.step CommitCond s acts := by
  refine along_of_check (fun s => ∀ t ∉ ts, s.threads t = [])
    (fun a => a.thread ∈ ts) ?_ (fun _ _ hs _ => commitCheck_sound hs) hs hts h
  intro s a s' hs ha hstep t ht
  refine (Machine.step_threads_of_ne hstep ?_).trans (hs t ht)
  rintro rfl
  exact ht ha

/-! ### Two commits that overlap -/

/-- A one-byte file, freshly opened. -/
def oneByteEntry : Machine :=
  Machine.opened {} [102] { originSize := 1 } 0 true none (DataFile.truncate 0)

/-- Thread 1 fills, drains, publishes and commits page 0, then thread 2 pins the entry. -/
def serialRun : List MachineAct :=
  [.start 1 (.writePages 0 [42]), .step 1 {}, .step 1 {}, .step 1 {}, .step 1 {}, .step 1 {},
    .step 1 {}, .step 1 {}, .step 1 {}, .step 1 {}, .step 1 {},
    .start 2 (.setPinned true), .step 2 {}, .step 2 {}, .step 2 {}, .step 2 {}, .step 2 {}]

/-- Commits that do not overlap keep the page last written. -/
theorem serial_flushMeta_keeps_page :
    ∃ s s', exec Machine.step oneByteEntry serialRun = some s ∧
      exec Machine.step s (.start 1 (.flushMeta true) :: [({} : Choice)].map (.step 1)) = some s' ∧
      s'.e.meta_.seen 0 = (true, crc32c [42]) ∧
      ∃ m, s'.disk.sidecar = some m ∧ m.seen 0 = (true, crc32c [42]) := by
  have hstart : oneByteEntry.idle := fun _ => rfl
  obtain ⟨s', hs'⟩ : ∃ s', exec Machine.step oneByteEntry
      (serialRun ++ [.start 1 (.flushMeta true), .step 1 {}]) = some s' := ⟨_, rfl⟩
  obtain ⟨s, hs, hlast⟩ := exec_append_inv hs'
  have hobs : (exec Machine.step oneByteEntry serialRun).map
      (fun s => ((s.threads 1).isEmpty, (s.threads 2).isEmpty,
        alongB Machine.step (commitCheck [1, 2]) s
          (.start 1 (.flushMeta true) :: [({} : Choice)].map (.step 1)))) =
      some (true, true, true) := rfl
  have hobs' : (exec Machine.step oneByteEntry
      (serialRun ++ [.start 1 (.flushMeta true), .step 1 {}])).map
      (fun s => ((s.threads 1).isEmpty, (s.threads 2).isEmpty, s.e.meta_.npages,
        lastPage s.e.trace 0)) = some (true, true, 1, some (true, crc32c [42])) := rfl
  simp only [hs, hs', Option.map_some, Option.some.injEq, Prod.mk.injEq, List.isEmpty_iff]
    at hobs hobs'
  obtain ⟨h1, h2, hcheck⟩ := hobs
  obtain ⟨h₁', h₂', hn, htrace⟩ := hobs'
  have hidle : s.idle :=
    Machine.idle_of_threads [1, 2] hs hstart (by decide) (by simp [h1, h2])
  have hidle' : s'.idle :=
    Machine.idle_of_threads [1, 2] hs' hstart (by decide) (by simp [h₁', h₂'])
  have hsafe := flushMeta_safe_without_overlap
    (along_commitCond [1, 2] (fun t _ => hstart t) (by decide) rfl) hs
  exact ⟨s, s', hs, hlast, hsafe.2 hidle 1 [{}] s'
    (along_commitCond [1, 2] (fun t _ => hidle t) (by decide) hcheck) hlast hidle' 0
    (by omega) _ htrace⟩

/-- Thread 1 fills, drains and publishes page 0 and takes its snapshot; thread 2 pins the entry,
takes its snapshot and loads the sidecar as it was; thread 1 commits; thread 2 stores the image it
made from the old one, and adopts it. -/
def overlapRun : List MachineAct :=
  [.start 1 (.writePages 0 [42]), .step 1 {}, .step 1 {}, .step 1 {}, .step 1 {}, .step 1 {},
    .step 1 {}, .step 1 {},
    .start 2 (.setPinned true), .step 2 {}, .step 2 {}, .step 2 {},
    .step 1 {}, .step 1 {}, .step 1 {},
    .step 2 {}, .step 2 {}]

/-- The adopt of one commit takes back what another published meanwhile. -/
theorem overlapping_flushMeta_loses_page :
    ¬ ∀ (acts : List MachineAct) (s : Machine),
        Along Machine.step StoresSucceed oneByteEntry acts →
        exec Machine.step oneByteEntry acts = some s → s.idle →
        ∀ (t : Nat) (cs : List Choice) (s' : Machine),
          Along Machine.step StoresSucceed s (.start t (.flushMeta true) :: cs.map (.step t)) →
          exec Machine.step s (.start t (.flushMeta true) :: cs.map (.step t)) = some s' →
          s'.idle →
          ∀ i < s'.e.meta_.npages, ∀ x, lastPage s'.e.trace i = some x →
            s'.e.meta_.seen i = x ∧ ∃ m, s'.disk.sidecar = some m ∧ m.seen i = x := by
  intro h
  have hok : ∀ acts : List MachineAct, (∀ a ∈ acts, ∀ t c, a = .step t c → c.ok = true) →
      ∀ s, Along Machine.step StoresSucceed s acts := by
    intro acts hacts s
    refine along_of_forall ?_
    intro a ha s
    cases a with
    | start t op => trivial
    | step t c => exact fun _ _ _ _ _ => hacts _ ha t c rfl
  have hstart : oneByteEntry.idle := fun _ => rfl
  -- The run, the last flush after it, and what is seen of page 0 at the end.
  obtain ⟨s', hs'⟩ : ∃ s', exec Machine.step oneByteEntry
      (overlapRun ++ [.start 1 (.flushMeta true), .step 1 {}]) = some s' := ⟨_, rfl⟩
  obtain ⟨s, hs, hlast⟩ := exec_append_inv hs'
  have hobs : (exec Machine.step oneByteEntry overlapRun).map
      (fun s => ((s.threads 1).isEmpty, (s.threads 2).isEmpty)) = some (true, true) := rfl
  have hobs' : (exec Machine.step oneByteEntry
      (overlapRun ++ [.start 1 (.flushMeta true), .step 1 {}])).map
      (fun s => ((s.threads 1).isEmpty, (s.threads 2).isEmpty, s.e.meta_.npages,
        (s.e.meta_.seen 0).1, (lastPage s.e.trace 0).map Prod.fst)) =
      some (true, true, 1, false, some true) := rfl
  simp only [hs, hs', Option.map_some, Option.some.injEq, Prod.mk.injEq, List.isEmpty_iff]
    at hobs hobs'
  obtain ⟨h1, h2, hn, hseen, htrace⟩ := hobs'
  have hidle : s.idle :=
    Machine.idle_of_threads [1, 2] hs hstart (by decide) (by simp [hobs.1, hobs.2])
  have hidle' : s'.idle :=
    Machine.idle_of_threads [1, 2] hs' hstart (by decide) (by simp [h1, h2])
  obtain ⟨x, hx, hx₁⟩ := Option.map_eq_some_iff.1 htrace
  have hsettled := h overlapRun s (hok _ (by simp [overlapRun]) _) hs hidle 1 [{}] s'
    (hok _ (by simp) _) hlast hidle' 0 (by omega) x hx
  simp [hsettled.1, hx₁] at hseen

end UCache
