/-
Module: UCache.Core.Integrity
Purpose: What a cached read returns is the origin's.  Every CRC an entry can come to expect is the
  CRC of the origin's page, in the sidecar, in every handle and in every commit under way, unless a
  failed commit puts back a page that was cleared in the meantime.
Trusted boundary: none
Main exports: MetaOk, HandleOk, cached_read_is_origin
-/
import UCache.Core.Reading
import UCache.Core.World

namespace UCache

open Lib

/-! ### What is right about an entry -/

variable {off : Nat} {v : Validators}

section Sound

-- The bytes the origin has for each set of validators.
variable {origin : Validators → Bytes} {Z : Prop} {O : Bytes} {m₀ : MetaData}

/-- A sidecar image that expects only CRCs of its origin's pages. -/
structure MetaOk (Z : Prop) (origin : Validators → Bytes) (m : MetaData) : Prop where
  length : (origin m.validators).length = m.fileSize
  pages : ∀ i < m.npages, (Z ∨ m.bitmap.get i = true) →
    CrcOk Z (origin m.validators) m i (m.pageCrcs i)

/-- A handle that serves the origin `O` in the geometry of `m₀`: every page it holds or is about to
commit as present has the CRC of the origin's page, and every staged page is the origin's. -/
structure HandleOk (Z : Prop) (origin : Validators → Bytes) (O : Bytes) (m₀ : MetaData)
    (e : FileEntry) : Prop where
  geometry : Geometry m₀ e
  pos : 0 < m₀.pageSize
  length : O.length = m₀.fileSize
  generation : origin e.meta_.validators = O
  pages : ∀ i < m₀.npages, (Z ∨ e.meta_.bitmap.get i = true ∨ e.setSince.get i = true) →
    CrcOk Z O m₀ i (e.meta_.pageCrcs i)
  staged : StagedOk (PageIs O m₀) e

/-- A commit under way that stores only CRCs of the origin's pages. -/
structure FlushOk (Z : Prop) (origin : Validators → Bytes) (O : Bytes) (m₀ : MetaData)
    (f : MetaFlush) : Prop where
  pageSize : f.snapshot.pageSize = m₀.pageSize
  fileSize : f.snapshot.fileSize = m₀.fileSize
  generation : origin f.snapshot.validators = O
  pages : ∀ i < m₀.npages, (Z ∨ f.snapshot.bitmap.get i = true ∨ f.sets.get i = true) →
    CrcOk Z O m₀ i (f.snapshot.pageCrcs i)

/-- The image a commit stores and, when it was merged, adopts. -/
structure ImageOk (Z : Prop) (origin : Validators → Bytes) (O : Bytes) (m₀ : MetaData)
    (out : MetaData) (merged : Bool) : Prop where
  image : MetaOk Z origin out
  adopts : merged = true → ∀ i < m₀.npages, out.bitmap.get i = true →
    CrcOk Z O m₀ i (out.pageCrcs i)

/-- Pages written and not yet published, with the CRCs to publish. -/
def DoneOk (O : Bytes) (m₀ : MetaData) (done : List (Nat × UInt32)) : Prop :=
  ∀ pc ∈ done, pc.2 = crc32c (originPage O m₀ pc.1)

/-- What a thread holds is right.  `asked off len`: a read of that range was called for. -/
def FrameSound (Z : Prop) (origin : Validators → Bytes) (O : Bytes) (m₀ : MetaData)
    (asked : Nat → Nat → Prop) : Frame → Prop
  | .metaLoad f => FlushOk Z origin O m₀ f
  | .metaStore f out merged => FlushOk Z origin O m₀ f ∧ ImageOk Z origin O m₀ out merged
  | .metaEnd f out merged _ => FlushOk Z origin O m₀ f ∧ ImageOk Z origin O m₀ out merged
  | .writePages off bytes => OriginBytes O off bytes
  | .stageSpeculative off bytes => OriginBytes O off bytes
  | .directCheck off bytes todo done =>
      OriginBytes O off bytes ∧ (∀ i ∈ todo, InBuffer m₀ off bytes.length i) ∧ DoneOk O m₀ done
  | .directWrite off bytes i todo done =>
      OriginBytes O off bytes ∧ (∀ j ∈ i :: todo, InBuffer m₀ off bytes.length j) ∧
        DoneOk O m₀ done
  | .directPublish done => DoneOk O m₀ done
  | .drainWrite todo done _ =>
      (∀ ip ∈ todo, PageIs O m₀ ip.1 ip.2.data ip.2.crc) ∧ DoneOk O m₀ done
  | .drainPublish done _ => DoneOk O m₀ done
  | .readCached off buf _ => asked off buf.length
  | .readRuns off out runs _ =>
      asked off out.length ∧ off + out.length ≤ m₀.fileSize ∧ (∀ r ∈ runs, RunOk Z O m₀ r) ∧
        Covered O m₀ off out runs m₀.npages
  | .readDone off out => asked off out.length ∧ out = slice O off out.length
  | _ => True

/-- What the step of a frame must keep. -/
structure SoundStep (Z : Prop) (origin : Validators → Bytes) (O : Bytes) (m₀ : MetaData)
    (asked : Nat → Nat → Prop) (d : Disk) (r : FileEntry × Disk × List Frame) : Prop where
  handle : HandleOk Z origin O m₀ r.1
  sidecar : r.2.1.sidecar = d.sidecar ∨ ∃ m, r.2.1.sidecar = some m ∧ MetaOk Z origin m
  frames : ∀ fr ∈ r.2.2, FrameSound Z origin O m₀ asked fr

/-! ### The geometry carries over -/

theorem CrcOk.congr {m m' : MetaData} {i : Nat} {crc : UInt32} (h : CrcOk Z O m i crc)
    (hps : m'.pageSize = m.pageSize) (hfs : m'.fileSize = m.fileSize) : CrcOk Z O m' i crc := by
  have hpage : originPage O m' i = originPage O m i := by
    simp only [originPage, MetaData.pageBytes, hps, hfs]
  rw [CrcOk, hpage]
  exact h

section Transfer

variable {e : FileEntry} (h : Geometry m₀ e)

include h

theorem Geometry.crcOk {i : Nat} {crc : UInt32} :
    CrcOk Z O e.meta_ i crc ↔ CrcOk Z O m₀ i crc :=
  ⟨fun hc => hc.congr h.pageSize.symm h.fileSize.symm, fun hc => hc.congr h.pageSize h.fileSize⟩

theorem Geometry.pageIs : PageIs O e.meta_ = PageIs O m₀ := by
  funext i data crc
  simp only [PageIs, originPage, h.pageSize, h.pageBytes]

theorem Geometry.runOk {r : FileEntry.ReadRun} : RunOk Z O e.meta_ r ↔ RunOk Z O m₀ r := by
  constructor
  · intro hr
    exact ⟨hr.le, h.npages ▸ hr.lt, hr.length, fun k crc hk => h.crcOk.1 (hr.expect k crc hk)⟩
  · intro hr
    exact ⟨hr.le, h.npages ▸ hr.lt, hr.length, fun k crc hk => h.crcOk.2 (hr.expect k crc hk)⟩

theorem Geometry.covered {out : Bytes} {runs : List FileEntry.ReadRun} {n : Nat} :
    Covered O e.meta_ off out runs n ↔ Covered O m₀ off out runs n := by
  simp only [Covered, h.pageSize]

end Transfer

/-! ### The sections of a handle -/

section Steps

variable {asked : Nat → Nat → Prop} {c : Choice} {e e' : FileEntry} {d : Disk}

/-- A section whose publications carry CRCs of the origin's pages. -/
theorem HandleOk.section {ts : List Transition} (h : HandleOk Z origin O m₀ e)
    (hx : Extends e e' ts) (hst : StagedOk (PageIs O m₀) e')
    (hpub : ∀ i crc, lastPage ts i = some (true, crc) → crc = crc32c (originPage O m₀ i)) :
    HandleOk Z origin O m₀ e' := by
  have hfs : e'.meta_.fileSize = e.meta_.fileSize := congrArg Validators.originSize hx.validators
  refine ⟨⟨hx.pageSize.trans h.geometry.pageSize, hfs.trans h.geometry.fileSize⟩, h.pos, h.length,
    by rw [hx.validators, h.generation], ?_, hst⟩
  intro i hi hset
  have hpage := hx.page i
  have hsince := hx.setSince i
  cases hlast : lastPage ts i with
  | none =>
      rw [hlast] at hpage hsince
      simp only [MetaData.page, Option.getD_none, Option.map_none, Prod.mk.injEq] at hpage hsince
      rw [hpage.2]
      rw [hpage.1, hsince] at hset
      exact h.pages i hi hset
  | some x =>
      obtain ⟨b, crc⟩ := x
      rw [hlast] at hpage hsince
      simp only [MetaData.page, Option.getD_some, Option.map_some, Prod.mk.injEq] at hpage hsince
      rw [hpage.2]
      rw [hpage.1, hsince, or_self] at hset
      cases b with
      | true => exact Or.inl (hpub i crc hlast)
      | false =>
          rcases hset with hz | hset
          · exact Or.inr ⟨hz, lastPage_false hlast⟩
          · simp at hset

/-- A section that publishes nothing. -/
theorem HandleOk.quiet {ts : List Transition} (h : HandleOk Z origin O m₀ e) (hx : Extends e e' ts)
    (hst : StagedOk (PageIs O m₀) e') (hpub : ∀ i crc, lastPage ts i ≠ some (true, crc)) :
    HandleOk Z origin O m₀ e' :=
  h.section hx hst fun i crc hl => absurd hl (hpub i crc)

/-- A step that leaves the sidecar alone. -/
theorem sound_of_handle {d' : Disk} {frames : List Frame} (h : HandleOk Z origin O m₀ e')
    (hd : d'.sidecar = d.sidecar) (hfr : ∀ fr ∈ frames, FrameSound Z origin O m₀ asked fr) :
    SoundStep Z origin O m₀ asked d (e', d', frames) :=
  ⟨h, Or.inl hd, hfr⟩

/-- Such a step that one frame follows. -/
theorem sound_of_frame {d' : Disk} {fr : Frame} (h : HandleOk Z origin O m₀ e')
    (hd : d'.sidecar = d.sidecar) (hfr : FrameSound Z origin O m₀ asked fr) :
    SoundStep Z origin O m₀ asked d (e', d', [fr]) :=
  sound_of_handle h hd (List.forall_mem_singleton.2 hfr)

/-- Page `i` cut out of bytes fetched from the origin is the origin's page. -/
theorem cutPage_origin (h : HandleOk Z origin O m₀ e) {i : Nat} {bytes : Bytes}
    (hbytes : OriginBytes O off bytes) (hi : InBuffer m₀ off bytes.length i) :
    PageIs O m₀ i (FileEntry.cutPage e.meta_ off bytes i).data
      (FileEntry.cutPage e.meta_ off bytes i).crc :=
  cutPage_isOrigin h.length hbytes h.geometry hi

theorem wholePages_inBuffer (h : HandleOk Z origin O m₀ e) {i : Nat} {bytes : Bytes}
    (hi : i ∈ FileEntry.wholePages e.meta_ off (min (off + bytes.length) e.meta_.fileSize)) :
    InBuffer m₀ off bytes.length i := by
  obtain ⟨hlt, hoff, hstop⟩ := mem_wholePages hi
  rw [h.geometry.npages] at hlt
  rw [h.geometry.pageSize] at hoff hstop
  rw [h.geometry.pageBytes] at hstop
  exact ⟨hlt, hoff, by omega⟩

/-! ### The commit -/

variable {f : MetaFlush}

theorem sound_flushMeta (h : HandleOk Z origin O m₀ e) {force : Bool} :
    SoundStep Z origin O m₀ asked d (Frame.stepFlushMeta c e d force) := by
  unfold Frame.stepFlushMeta
  split
  · exact sound_of_handle h rfl (by simp)
  · refine sound_of_frame ⟨⟨h.geometry.pageSize, h.geometry.fileSize⟩, h.pos, h.length,
      h.generation, ?_, h.staged.congr rfl rfl⟩ rfl
      ⟨h.geometry.pageSize, h.geometry.fileSize, h.generation, h.pages⟩
    intro i hi hset
    apply h.pages i hi
    simp only [PageBitmap.get_clearAll, Bool.false_eq_true, or_false] at hset
    exact hset.imp_right Or.inl

/-- A stored image read back is as good as it was. -/
theorem MetaOk.load {sidecar : Option MetaData} {m : MetaData}
    (hside : ∀ m, sidecar = some m → MetaOk Z origin m) (hload : MetaFile.load sidecar = some m) :
    MetaOk Z origin m := by
  obtain ⟨m', hm', -, rfl⟩ := MetaFile.load_eq_some hload
  obtain ⟨hlen, hpages⟩ := hside m' hm'
  exact ⟨hlen, fun i hi hset => (hpages i hi hset).congr rfl rfl⟩

/-- The handle's view, stored whole. -/
theorem FlushOk.image (hf : FlushOk Z origin O m₀ f) (hlen : O.length = m₀.fileSize) :
    MetaOk Z origin f.snapshot := by
  have hn : f.snapshot.npages = m₀.npages := by
    simp only [MetaData.npages, hf.pageSize, hf.fileSize]
  refine ⟨by rw [hf.generation, hlen, hf.fileSize], ?_⟩
  intro i hi hset
  rw [hf.generation]
  exact (hf.pages i (hn ▸ hi) (hset.imp_right Or.inl)).congr hf.pageSize hf.fileSize

/-- The merge with a sidecar of the same origin and geometry. -/
theorem FlushOk.merge {disk : MetaData} (hf : FlushOk Z origin O m₀ f)
    (hdisk : MetaOk Z origin disk) (hps : disk.pageSize = f.snapshot.pageSize)
    (hfs : disk.fileSize = f.snapshot.fileSize) (hgen : origin disk.validators = O) :
    ImageOk Z origin O m₀ (f.merge disk) true := by
  have hps' : disk.pageSize = m₀.pageSize := hps.trans hf.pageSize
  have hfs' : disk.fileSize = m₀.fileSize := hfs.trans hf.fileSize
  have hn : disk.npages = m₀.npages := by simp only [MetaData.npages, hps', hfs']
  have hpages : ∀ i < m₀.npages, (Z ∨ (f.merge disk).bitmap.get i = true) →
      CrcOk Z O m₀ i ((f.merge disk).pageCrcs i) := by
    intro i hi hset
    simp only [MetaFlush.merge, PageBitmap.get_updateRange, hn, hi, if_true] at hset ⊢
    by_cases hc : f.clears.get i = true
    · simp only [hc, if_true, Option.getD_some, Bool.false_eq_true, or_false] at hset ⊢
      exact Or.inr ⟨hset, rfl⟩
    · by_cases hs : f.sets.get i = true
      · simp only [hc, hs, if_true]
        exact hf.pages i hi (Or.inr (Or.inr hs))
      · simp only [hc, hs, Bool.false_eq_true, if_false, Option.getD_none] at hset ⊢
        have := hdisk.pages i (hn ▸ hi) hset
        rw [hgen] at this
        exact this.congr hps'.symm hfs'.symm
  refine ⟨⟨hdisk.length, ?_⟩, fun _ i hi hbit => hpages i hi (Or.inr hbit)⟩
  intro i hi hset
  have hv : (f.merge disk).validators = disk.validators := rfl
  rw [hv, hgen]
  exact (hpages i (hn ▸ hi) hset).congr hps' hfs'

theorem sound_metaLoad (h : HandleOk Z origin O m₀ e) (hf : FlushOk Z origin O m₀ f)
    (hside : ∀ m, d.sidecar = some m → MetaOk Z origin m)
    (hgen : ∀ m, MetaFile.load d.sidecar = some m →
      adoptable m e.cfg e.key f.snapshot.validators = true →
        origin m.validators = origin f.snapshot.validators) :
    SoundStep Z origin O m₀ asked d (Frame.stepMetaLoad e d f) := by
  have himage : ImageOk Z origin O m₀ (f.image e.cfg e.key d.sidecar).1
      (f.image e.cfg e.key d.sidecar).2 := by
    have hwhole : ImageOk Z origin O m₀ f.snapshot false := ⟨hf.image h.length, by simp⟩
    unfold MetaFlush.image
    cases hload : MetaFile.load d.sidecar with
    | none => exact hwhole
    | some disk =>
        simp only
        split
        · rename_i hguard
          obtain ⟨hps, hadopt⟩ := hguard
          have hfs : disk.fileSize = f.snapshot.fileSize := by
            simp only [adoptable, Bool.and_eq_true, decide_eq_true_eq] at hadopt
            exact hadopt.1.1.1.1.2
          exact hf.merge (MetaOk.load hside hload) hps hfs
            ((hgen disk hload hadopt).trans hf.generation)
        · exact hwhole
  unfold Frame.stepMetaLoad
  split
  · exact sound_of_handle h rfl (by simp)
  · exact sound_of_frame h rfl ⟨hf, himage⟩

theorem sound_metaStore (h : HandleOk Z origin O m₀ e) {out : MetaData} {merged : Bool}
    (hf : FlushOk Z origin O m₀ f) (hout : ImageOk Z origin O m₀ out merged) :
    SoundStep Z origin O m₀ asked d (Frame.stepMetaStore c e d f out merged) := by
  unfold Frame.stepMetaStore
  refine ⟨h, ?_, List.forall_mem_singleton.2 ⟨hf, hout⟩⟩
  simp only
  split
  · exact Or.inr ⟨out, rfl, hout.image⟩
  · exact Or.inl rfl

/-- Adopting a committed image. -/
theorem HandleOk.adopt (h : HandleOk Z origin O m₀ e) {out : MetaData}
    (hout : ∀ i < m₀.npages, out.bitmap.get i = true → CrcOk Z O m₀ i (out.pageCrcs i)) :
    HandleOk Z origin O m₀ (e.flushMetaAdopt out) := by
  refine ⟨⟨h.geometry.pageSize, h.geometry.fileSize⟩, h.pos, h.length, h.generation, ?_,
    h.staged.congr rfl rfl⟩
  intro i hi hset
  have hi' : i < e.meta_.npages := h.geometry.npages ▸ hi
  simp only [FileEntry.flushMetaAdopt, PageBitmap.get_updateRange, hi', if_true] at hset ⊢
  by_cases hpend : (e.setSince.get i || e.clearedSince.get i) = true
  · simp only [hpend, if_true, Option.getD_none] at hset ⊢
    exact h.pages i hi hset
  · simp only [hpend, Bool.false_eq_true, if_false, Option.getD_some] at hset ⊢
    by_cases hbit : out.bitmap.get i = true
    · simp only [hbit, if_true]
      exact hout i hi hbit
    · simp only [Bool.or_eq_true, not_or, Bool.not_eq_true] at hpend
      simp only [hbit, hpend.1, Bool.false_eq_true, or_self, or_false, if_false] at hset ⊢
      exact Or.inr ⟨hset, rfl⟩

/-- Putting the deltas of a failed commit back: harmless where the pages are still present. -/
theorem HandleOk.rearm (h : HandleOk Z origin O m₀ e)
    (hkeep : Z ∨ ∀ i < m₀.npages, f.sets.get i = true → e.clearedSince.get i = false →
      e.meta_.bitmap.get i = true) : HandleOk Z origin O m₀ (e.flushMetaFailed f) := by
  refine ⟨⟨h.geometry.pageSize, h.geometry.fileSize⟩, h.pos, h.length, h.generation, ?_,
    h.staged.congr rfl rfl⟩
  intro i hi hset
  have hi' : i < e.meta_.npages := h.geometry.npages ▸ hi
  apply h.pages i hi
  simp only [FileEntry.flushMetaFailed, PageBitmap.get_updateRange, hi', if_true] at hset
  rcases hkeep with hz | hkeep
  · exact Or.inl hz
  · by_cases hback : (f.sets.get i && !e.clearedSince.get i) = true
    · simp only [Bool.and_eq_true, Bool.not_eq_true'] at hback
      exact Or.inr (Or.inl (hkeep i hi hback.1 hback.2))
    · simpa only [hback, Bool.false_eq_true, if_false, Option.getD_none] using hset

theorem sound_metaEnd (h : HandleOk Z origin O m₀ e) {out : MetaData} {merged ok : Bool}
    (hout : ImageOk Z origin O m₀ out merged)
    (hkeep : ok = false → Z ∨ ∀ i < m₀.npages, f.sets.get i = true →
      e.clearedSince.get i = false → e.meta_.bitmap.get i = true) :
    SoundStep Z origin O m₀ asked d (Frame.stepMetaEnd e d f out merged ok) := by
  unfold Frame.stepMetaEnd
  refine sound_of_handle ?_ rfl (by simp)
  cases ok with
  | true =>
      cases merged with
      | true => exact h.adopt (hout.adopts rfl)
      | false => exact h
  | false => exact h.rearm (hkeep rfl)

/-! ### Filling and draining -/

theorem sound_writePages (h : HandleOk Z origin O m₀ e) {bytes : Bytes}
    (hbytes : OriginBytes O off bytes) :
    SoundStep Z origin O m₀ asked d (Frame.stepWritePages e d off bytes) := by
  unfold Frame.stepWritePages
  simp only
  split
  · exact sound_of_handle h rfl (by simp)
  · split
    · exact sound_of_frame h rfl ⟨hbytes, fun i hi => wholePages_inBuffer h hi, by simp [DoneOk]⟩
    · refine sound_of_handle (h.quiet (section_stagePages e off bytes).extends_ ?_ (by simp)) rfl ?_
      · exact h.staged.stagePages fun i hi => cutPage_origin h hbytes (wholePages_inBuffer h hi)
      · split <;> simp [FrameSound]

theorem sound_directCheck (h : HandleOk Z origin O m₀ e) {bytes : Bytes} {todo : List Nat}
    {done : List (Nat × UInt32)} (hbytes : OriginBytes O off bytes)
    (htodo : ∀ i ∈ todo, InBuffer m₀ off bytes.length i) (hdone : DoneOk O m₀ done) :
    SoundStep Z origin O m₀ asked d (Frame.stepDirectCheck c e d off bytes todo done) := by
  unfold Frame.stepDirectCheck
  cases todo with
  | nil =>
      simp only
      split
      · exact sound_of_handle h rfl (by simp)
      · exact sound_of_handle h rfl (by simpa [FrameSound] using hdone)
  | cons i rest =>
      have hrest : ∀ j ∈ rest, InBuffer m₀ off bytes.length j := fun j hj => htodo j (by simp [hj])
      simp only
      split
      · exact sound_of_frame h rfl ⟨hbytes, hrest, hdone⟩
      · exact sound_of_frame h rfl ⟨hbytes, htodo, hdone⟩

theorem DoneOk.append {done done' : List (Nat × UInt32)} (h : DoneOk O m₀ done)
    (h' : DoneOk O m₀ done') : DoneOk O m₀ (done ++ done') := by
  intro pc hpc
  rcases List.mem_append.1 hpc with hpc | hpc
  · exact h pc hpc
  · exact h' pc hpc

theorem sound_directWrite (h : HandleOk Z origin O m₀ e) {i : Nat} {bytes : Bytes} {todo : List Nat}
    {done : List (Nat × UInt32)} (hbytes : OriginBytes O off bytes)
    (htodo : ∀ j ∈ i :: todo, InBuffer m₀ off bytes.length j) (hdone : DoneOk O m₀ done) :
    SoundStep Z origin O m₀ asked d (Frame.stepDirectWrite c e d off bytes i todo done) := by
  have hpage := cutPage_origin h hbytes (htodo i (by simp))
  unfold Frame.stepDirectWrite
  simp only
  split
  · refine sound_of_frame h rfl ?_
    refine ⟨hbytes, fun j hj => htodo j (by simp [hj]), hdone.append ?_⟩
    intro pc hpc
    rw [List.mem_singleton] at hpc
    subst hpc
    exact congrArg crc32c hpage.1
  · exact sound_of_frame h rfl ⟨hbytes, by simp, hdone⟩

/-- Publishing pages with the CRCs of the origin's. -/
theorem HandleOk.published {done : List (Nat × UInt32)} (h : HandleOk Z origin O m₀ e)
    (hdone : DoneOk O m₀ done) (hx : Extends e e' (publications done))
    (hst : StagedOk (PageIs O m₀) e') : HandleOk Z origin O m₀ e' :=
  h.section hx hst fun i crc hl => hdone (i, crc) (lastPage_publications hl).2

theorem sound_flushBuffer (h : HandleOk Z origin O m₀ e) {force : Bool}
    {r : FileEntry × Disk × List Frame} (hstep : Frame.stepFlushBuffer c e d force = some r) :
    SoundStep Z origin O m₀ asked d r := by
  unfold Frame.stepFlushBuffer at hstep
  split at hstep
  · split at hstep
    · simp at hstep
    · cases hstep
      exact sound_of_handle h rfl (by simp)
  · split at hstep
    · cases hstep
      exact sound_of_handle h rfl (by simp)
    · cases hstep
      have h' := h.quiet (section_drainSnapshot e).extends_ h.staged.drainSnapshot (by simp)
      exact sound_of_frame h' rfl ⟨fun ip hip => (h'.staged.drainTodo hip).2, by simp [DoneOk]⟩

theorem sound_drainWrite (h : HandleOk Z origin O m₀ e) {todo : List (Nat × BufPage)}
    {done : List (Nat × UInt32)} {force : Bool}
    (htodo : ∀ ip ∈ todo, PageIs O m₀ ip.1 ip.2.data ip.2.crc) (hdone : DoneOk O m₀ done) :
    SoundStep Z origin O m₀ asked d (Frame.stepDrainWrite c e d todo done force) := by
  unfold Frame.stepDrainWrite
  cases todo with
  | nil =>
      refine sound_of_frame h rfl ?_
      simp only [FrameSound]
      split
      · simp [DoneOk]
      · exact hdone
  | cons ip rest =>
      obtain ⟨first, p⟩ := ip
      obtain ⟨hsplit, -⟩ := takeRun_spec e.meta_ ((first, p) :: rest) first 0
      simp only
      split
      · refine sound_of_frame h rfl ?_
        refine ⟨fun ip hip => htodo ip (by rw [← hsplit]; simp [hip]), hdone.append ?_⟩
        intro pc hpc
        obtain ⟨ip, hip, rfl⟩ := List.mem_map.1 hpc
        exact (htodo ip (by rw [← hsplit]; simp [hip])).2
      · exact sound_of_frame h rfl ⟨by simp, hdone⟩

/-! ### Reading -/

theorem sound_readCached (h : HandleOk Z origin O m₀ e) {buf : Bytes} {account : Bool}
    (hasked : asked off buf.length) :
    SoundStep Z origin O m₀ asked d (Frame.stepReadCached e d off buf account) := by
  unfold Frame.stepReadCached
  split
  · rename_i hempty
    refine sound_of_frame h rfl ?_
    rw [List.isEmpty_iff] at hempty
    subst hempty
    exact ⟨hasked, by simp⟩
  · rename_i hne
    split
    · exact sound_of_handle h rfl (by simp)
    · rename_i hend
      have hx := (section_readPlan e off buf account).extends_
      have hst := h.staged.readPlan off buf account
      rcases hplan : e.readPlan off buf account with ⟨plan, found⟩
      rw [hplan] at hx hst
      refine sound_of_handle (h.quiet hx hst (by simp)) rfl ?_
      cases found with
      | false => simp
      | true =>
          have hreq : Request e.meta_ off buf.length := by
            refine ⟨h.geometry.pageSize ▸ h.pos, ?_, by omega⟩
            rw [List.isEmpty_iff] at hne
            exact List.length_pos_of_ne_nil hne
          obtain ⟨hlen, hruns, hcov⟩ := readPlan_ok (Z := Z)
            (by rw [h.length, h.geometry.fileSize])
            (fun i hi hbit => h.geometry.crcOk.2
              (h.pages i (h.geometry.npages ▸ hi) (Or.inr (Or.inl hbit))))
            (by rw [h.geometry.pageIs]; exact h.staged) hreq hplan
          have hinside := hreq.inside
          rw [h.geometry.fileSize] at hinside
          intro fr hfr
          rw [if_pos rfl, List.mem_singleton] at hfr
          subst hfr
          refine ⟨by rw [hlen]; exact hasked, by rw [hlen]; exact hinside, ?_, ?_⟩
          · intro r hr
            exact h.geometry.runOk.1 (hruns r (List.mem_reverse.1 hr))
          · rw [← h.geometry.covered, ← h.geometry.npages]
            intro k hk hbound
            rcases hcov k hk hbound with ⟨r, hr, hin⟩ | hbyte
            · exact Or.inl ⟨r, List.mem_reverse.2 hr, hin⟩
            · exact Or.inr hbyte

theorem sound_readRuns (h : HandleOk Z origin O m₀ e) (hdist : Distinguishes Z O e.meta_ d.data)
    {out : Bytes} {runs : List FileEntry.ReadRun} {account : Bool} (hasked : asked off out.length)
    (hend : off + out.length ≤ m₀.fileSize) (hruns : ∀ r ∈ runs, RunOk Z O m₀ r)
    (hcov : Covered O m₀ off out runs m₀.npages) :
    SoundStep Z origin O m₀ asked d (Frame.stepReadRuns c e d off out runs account) := by
  unfold Frame.stepReadRuns
  cases runs with
  | nil =>
      have hdone : out = slice O off out.length := covered_done h.pos hend hcov
      refine sound_of_handle h rfl ?_
      have hfr : FrameSound Z origin O m₀ asked (.readDone off out) := ⟨hasked, hdone⟩
      split
      · intro fr hmem
        rcases List.mem_cons.1 hmem with rfl | hmem
        · trivial
        · rw [List.mem_singleton] at hmem
          exact hmem ▸ hfr
      · intro fr hmem
        rw [List.mem_singleton] at hmem
        exact hmem ▸ hfr
  | cons r rest =>
      simp only
      split
      · rename_i hok
        refine sound_of_frame h rfl ?_
        obtain ⟨hlen, hcov'⟩ := copyRun_ok (by rw [h.length, h.geometry.fileSize]) hdist
          (h.geometry.runOk.2 (hruns r (by simp))) (by rw [h.geometry.fileSize]; exact hend)
          (by rw [h.geometry.covered, h.geometry.npages]; exact hcov) hok
        rw [h.geometry.covered, h.geometry.npages] at hcov'
        exact ⟨by rw [hlen]; exact hasked, by rw [hlen]; exact hend,
          fun r' hr' => hruns r' (by simp [hr']), hcov'⟩
      · exact sound_of_handle h rfl (by simp [FrameSound])
      · exact sound_of_handle h rfl (by simp [FrameSound])

/-! ### Every frame -/

/-- What the step of a frame relies on: a sidecar that passes validation is of the same origin, a
failed commit puts back only pages still present (or zero CRCs are told apart too), and the CRC
tells the pages in `.data` apart. -/
structure FrameCond (Z : Prop) (origin : Validators → Bytes) (O : Bytes) (e : FileEntry) (d : Disk)
    (fr : Frame) : Prop where
  generation : ∀ f, fr = .metaLoad f → ∀ m, MetaFile.load d.sidecar = some m →
    adoptable m e.cfg e.key f.snapshot.validators = true →
      origin m.validators = origin f.snapshot.validators
  rearm : ∀ f out merged, fr = .metaEnd f out merged false → Z ∨
    ∀ i < e.meta_.npages, f.sets.get i = true → e.clearedSince.get i = false →
      e.meta_.bitmap.get i = true
  distinguishes : Distinguishes Z O e.meta_ d.data

theorem step_sound {fr : Frame} {r : FileEntry × Disk × List Frame}
    (h : HandleOk Z origin O m₀ e) (hfr : FrameSound Z origin O m₀ asked fr)
    (hside : ∀ m, d.sidecar = some m → MetaOk Z origin m) (hcond : FrameCond Z origin O e d fr)
    (hstep : fr.step c e d = some r) : SoundStep Z origin O m₀ asked d r := by
  cases fr with
  | flushMeta force => cases hstep; exact sound_flushMeta h
  | metaLoad f => cases hstep; exact sound_metaLoad h hfr hside (hcond.generation f rfl)
  | metaStore f out merged => cases hstep; exact sound_metaStore h hfr.1 hfr.2
  | metaEnd f out merged ok =>
      cases hstep
      refine sound_metaEnd h hfr.2 ?_
      rintro rfl
      rw [← h.geometry.npages]
      exact hcond.rearm f out merged rfl
  | touchAtime =>
      cases hstep
      unfold Frame.stepTouchAtime
      refine sound_of_handle ?_ rfl (by simp)
      split
      · exact h.quiet (Extends.of_view rfl rfl rfl rfl rfl rfl rfl) (h.staged.congr rfl rfl)
          (by simp)
      · exact h
  | writePages off bytes => cases hstep; exact sound_writePages h hfr
  | directCheck off bytes todo done =>
      cases hstep
      exact sound_directCheck h hfr.1 hfr.2.1 hfr.2.2
  | directWrite off bytes i todo done =>
      cases hstep
      exact sound_directWrite h hfr.1 hfr.2.1 hfr.2.2
  | directPublish done =>
      cases hstep
      exact sound_of_handle (h.published hfr (section_directPublish e done).extends_
        (h.staged.directPublish done)) rfl (by simp [FrameSound])
  | flushBuffer force => exact sound_flushBuffer h hstep
  | drainWrite todo done force => cases hstep; exact sound_drainWrite h hfr.1 hfr.2
  | drainPublish done force =>
      cases hstep
      exact sound_of_handle (h.published hfr (section_drainPublish e done).extends_
        (h.staged.drainPublish done)) rfl (by simp [FrameSound])
  | stageSpeculative off bytes =>
      cases hstep
      refine sound_of_handle (h.quiet (section_stageSpeculative e off bytes).extends_ ?_ (by simp))
        rfl (by simp)
      exact h.staged.stageSpeculative fun i hi =>
        cutPage_origin h hfr (wholePages_inBuffer h hi)
  | dropSpeculative off len =>
      cases hstep
      exact sound_of_handle (h.quiet (section_dropSpeculative e off len).extends_
        (h.staged.dropSpeculative off len) (by simp)) rfl (by simp)
  | consumeSpeculative off len =>
      cases hstep
      exact sound_of_handle (h.quiet (section_consumeSpeculative e off len).extends_
        (h.staged.consumeSpeculative off len) (by simp)) rfl (by simp)
  | checkpoint =>
      simp only [Frame.step] at hstep
      split at hstep <;> (cases hstep; exact sound_of_handle h rfl (by simp [FrameSound]))
  | setPinned p =>
      cases hstep
      refine sound_of_handle (h.quiet (section_setPinned e p).extends_ (h.staged.congr rfl rfl) ?_)
        rfl (by simp [FrameSound])
      simp [lastPage, lastFor, Transition.page]
  | releaseRanges ranges =>
      cases hstep
      obtain ⟨ts, hret, hsec, -⟩ := section_releaseSection e ranges
      unfold Frame.stepReleaseRanges
      refine sound_of_handle (h.quiet hsec.extends_ (h.staged.releaseSection ranges) ?_) rfl ?_
      · intro i crc hl
        rcases hret.lastPage i with h' | h' <;> simp [h'] at hl
      · split <;> simp [FrameSound]
  | punch spans =>
      cases hstep
      unfold Frame.stepPunch
      split
      · refine sound_of_handle h ?_ (by simp [FrameSound])
        split <;> rfl
      · exact sound_of_handle h rfl (by simp)
  | readCached off buf account => cases hstep; exact sound_readCached h hfr
  | readRuns off out runs account =>
      cases hstep
      exact sound_readRuns h hcond.distinguishes hfr.1 hfr.2.1 hfr.2.2.1 hfr.2.2.2
  | readDone off out => cases hstep; exact sound_of_handle h rfl (by simp)
  | demote i =>
      cases hstep
      refine sound_of_handle (h.quiet (section_demoteRun e i).extends_ (h.staged.demoteRun i) ?_)
        rfl (by simp)
      intro j crc hl
      simp only [lastPage, lastFor, Transition.page, Option.none_or] at hl
      split at hl <;> simp at hl
  | demoteBadPages todo =>
      cases hstep
      unfold Frame.stepDemoteBadPages
      split
      · split <;> exact sound_of_handle h rfl (by simp [FrameSound])
      · exact sound_of_handle h rfl (by simp)
  | verifyAll i bad =>
      cases hstep
      unfold Frame.stepVerifyAll
      split
      · refine sound_of_handle h rfl ?_
        split <;> simp [FrameSound]
      · split <;> exact sound_of_handle h rfl (by simp [FrameSound])
  | scrubPage i expect bad =>
      cases hstep
      unfold Frame.stepScrubPage
      split <;> exact sound_of_handle h rfl (by simp [FrameSound])

end Steps

/-! ### Every handle on the entry -/

/-- The bytes a call brings are the origin's. -/
def Op.OriginBytes (O : Bytes) : Op → Prop
  | .writePages off bytes => UCache.OriginBytes O off bytes
  | .stageSpeculative off bytes => UCache.OriginBytes O off bytes
  | _ => True

/-- What is assumed of every step: an origin has the size its validators say and pages of a valid
size, fills bring its bytes, a sidecar that passes validation is of the same origin, and the CRC
tells the origin's pages from what `.data` holds in their place. -/
structure Assumed (origin : Validators → Bytes) (w : World) (a : WorldAct) : Prop where
  opened : ∀ h cfg v, a = .openEntry h cfg v →
    (origin v).length = v.originSize ∧ Config.validPageSize cfg.pageSize = true
  filled : ∀ h t op, a = .act h (.start t op) → ∀ v ino e threads,
    w.slots h = .live v ino e threads → op.OriginBytes (origin v)
  adopted : ∀ h c, a = .openStep h c → ∀ cfg v ino phase, w.slots h = .opening cfg v ino phase →
    ∀ m, MetaFile.load w.sidecar = some m → adoptable m cfg w.key v = true →
      origin m.validators = origin v
  merged : ∀ h t c, a = .act h (.step t c) → ∀ v ino e threads,
    w.slots h = .live v ino e threads → ∀ f rest, threads t = .metaLoad f :: rest →
      ∀ m, MetaFile.load w.sidecar = some m →
        adoptable m e.cfg e.key f.snapshot.validators = true →
          origin m.validators = origin f.snapshot.validators
  distinguishes : ∀ h a', a = .act h a' → ∀ v ino e threads, w.slots h = .live v ino e threads →
    Distinguishes False (origin v) e.meta_ (w.inode ino)

/-- A commit whose store failed finds every page it puts back still present. -/
def KeepsCrc (w : World) (a : WorldAct) : Prop :=
  ∀ h t c, a = .act h (.step t c) → ∀ v ino e threads, w.slots h = .live v ino e threads →
    ∀ f out merged rest, threads t = .metaEnd f out merged false :: rest →
      ∀ i < e.meta_.npages, f.sets.get i = true → e.clearedSince.get i = false →
        e.meta_.bitmap.get i = true

/-- No page of `.data` that is not the origin's has the CRC zero. -/
def NoZeroCrc (origin : Validators → Bytes) (w : World) (a : WorldAct) : Prop :=
  ∀ h a', a = .act h a' → ∀ v ino e threads, w.slots h = .live v ino e threads →
    ∀ i < e.meta_.npages, (filePage (w.inode ino) e.meta_ i).length = e.meta_.pageBytes i →
      crc32c (filePage (w.inode ino) e.meta_ i) = 0 →
        filePage (w.inode ino) e.meta_ i = originPage (origin v) e.meta_ i

/-- The condition on a step in both cases. -/
def SoundCond (Z : Prop) (origin : Validators → Bytes) (w : World) (a : WorldAct) : Prop :=
  Assumed origin w a ∧ (Z ∨ KeepsCrc w a) ∧ (Z → NoZeroCrc origin w a)

/-- A read of `len` bytes at `off` was called for on thread `t` of handle `h`. -/
def Asked (past : List WorldAct) (h t off len : Nat) : Prop :=
  ∃ buf account, .act h (.start t (.readCached off buf account)) ∈ past ∧ buf.length = len

/-- A handle, being opened or in use, that is right. -/
def SlotOk (Z : Prop) (origin : Validators → Bytes) (asked : Nat → Nat → Nat → Prop) : Slot → Prop
  | .closed => True
  | .opening cfg v _ _ => (origin v).length = v.originSize ∧ 0 < cfg.pageSize
  | .live v _ e threads => ∃ m₀, HandleOk Z origin (origin v) m₀ e ∧
      ∀ t, ∀ fr ∈ threads t, FrameSound Z origin (origin v) m₀ (asked t) fr

structure WorldOk (Z : Prop) (origin : Validators → Bytes) (past : List WorldAct) (w : World) :
    Prop where
  sidecar : ∀ m, w.sidecar = some m → MetaOk Z origin m
  stored : ∀ m ∈ w.stored, MetaOk Z origin m
  slots : ∀ h, SlotOk Z origin (Asked past h) (w.slots h)

section Runs

variable {past : List WorldAct} {w w' : World} {a : WorldAct}

theorem FrameSound.mono {asked asked' : Nat → Nat → Prop} {fr : Frame}
    (hmono : ∀ off len, asked off len → asked' off len) (h : FrameSound Z origin O m₀ asked fr) :
    FrameSound Z origin O m₀ asked' fr := by
  cases fr with
  | readCached off buf account => exact hmono _ _ h
  | readRuns off out runs account => exact ⟨hmono _ _ h.1, h.2⟩
  | readDone off out => exact ⟨hmono _ _ h.1, h.2⟩
  | _ => exact h

theorem SlotOk.mono {asked asked' : Nat → Nat → Nat → Prop} {slot : Slot}
    (hmono : ∀ t off len, asked t off len → asked' t off len) (h : SlotOk Z origin asked slot) :
    SlotOk Z origin asked' slot := by
  cases slot with
  | closed => trivial
  | opening cfg v ino phase => exact h
  | live v ino e threads =>
      obtain ⟨m₀, hh, hfr⟩ := h
      exact ⟨m₀, hh, fun t fr hmem => (hfr t fr hmem).mono (hmono t)⟩

theorem Asked.snoc {h t off len : Nat} (hasked : Asked past h t off len) :
    Asked (past ++ [a]) h t off len := by
  obtain ⟨buf, account, hmem, hlen⟩ := hasked
  exact ⟨buf, account, List.mem_append_left _ hmem, hlen⟩

theorem WorldOk.snoc (hw : WorldOk Z origin past w) : WorldOk Z origin (past ++ [a]) w :=
  ⟨hw.sidecar, hw.stored, fun h => (hw.slots h).mono fun _ _ _ => Asked.snoc⟩

/-- One slot replaced, everything else as it was. -/
theorem WorldOk.update (hw : WorldOk Z origin past w) {h : Nat} {slot : Slot}
    (hslots : w'.slots = Function.update w.slots h slot)
    (hslot : SlotOk Z origin (Asked past h) slot)
    (hside : ∀ m, w'.sidecar = some m → MetaOk Z origin m)
    (hstored : ∀ m ∈ w'.stored, MetaOk Z origin m) : WorldOk Z origin past w' := by
  refine ⟨hside, hstored, ?_⟩
  intro h'
  rw [hslots]
  by_cases hh : h' = h
  · subst hh
    simpa using hslot
  · rw [Function.update_of_ne hh]
    exact hw.slots h'

/-- A handle that adopted the sidecar. -/
theorem slotOk_adopt (hw : WorldOk Z origin past w) {asked : Nat → Nat → Nat → Prop} {cfg : Config}
    {ino : Nat} {e : FileEntry} (hadopt : FileEntry.openAdopt cfg w.key v w.sidecar = some e)
    (hgen : ∀ m, MetaFile.load w.sidecar = some m → adoptable m cfg w.key v = true →
      origin m.validators = origin v) : SlotOk Z origin asked (.live v ino e fun _ => []) := by
  simp only [FileEntry.openAdopt, Option.bind_eq_some_iff] at hadopt
  obtain ⟨m, hload, hm⟩ := hadopt
  split at hm
  · rename_i hok
    cases hm
    have hmeta := MetaOk.load hw.sidecar hload
    have horigin := hgen m hload hok
    have hpos : 0 < m.pageSize := by
      simp only [adoptable, Config.validPageSize, Bool.and_eq_true, decide_eq_true_eq] at hok
      omega
    refine ⟨m, ⟨⟨rfl, rfl⟩, hpos, by rw [← horigin]; exact hmeta.length, horigin, ?_, ?_⟩, by simp⟩
    · intro i hi hset
      simp only [FileEntry.ofMeta, PageBitmap.get_reset, Bool.false_eq_true, or_false] at hset
      rw [← horigin]
      exact hmeta.pages i hi hset
    · intro i p hp
      simp [FileEntry.ofMeta] at hp
  · simp at hm

/-- A handle over an empty sidecar of its own. -/
theorem handleOk_fresh (cfg : Config) (key : Bytes) (now : Nat) (stored : Bool)
    (hlen : (origin v).length = v.originSize) (hpos : 0 < cfg.pageSize) :
    HandleOk Z origin (origin v) (FileEntry.freshMeta cfg key v now)
      (FileEntry.openFresh cfg key v now stored) := by
  refine ⟨⟨rfl, rfl⟩, hpos, hlen, rfl, ?_, ?_⟩
  · intro i hi hset
    have hz : Z := by
      simpa [FileEntry.openFresh, FileEntry.ofMeta, FileEntry.freshMeta, MetaData.fresh] using hset
    exact Or.inr ⟨hz, rfl⟩
  · intro i p hp
    simp [FileEntry.openFresh, FileEntry.ofMeta] at hp

theorem worldOk_openNext (hw : WorldOk Z origin past w) {h : Nat} {c : Choice} {cfg : Config}
    {ino : Nat} {phase : OpenPhase} (hslot : w.slots h = .opening cfg v ino phase)
    (hgen : ∀ m, MetaFile.load w.sidecar = some m → adoptable m cfg w.key v = true →
      origin m.validators = origin v) : WorldOk Z origin past (w.openNext h c cfg v ino phase) := by
  have hopen : (origin v).length = v.originSize ∧ 0 < cfg.pageSize := by
    have := hw.slots h
    rwa [hslot] at this
  cases phase with
  | load =>
      simp only [World.openNext]
      split
      · rename_i e hadopt
        exact hw.update rfl (slotOk_adopt hw hadopt hgen) hw.sidecar hw.stored
      · exact hw.update rfl hopen hw.sidecar hw.stored
  | relock =>
      simp only [World.openNext]
      split
      · rename_i e hadopt
        exact hw.update rfl (slotOk_adopt hw hadopt hgen) hw.sidecar hw.stored
      · split
        · exact hw.update rfl hopen hw.sidecar hw.stored
        · exact hw.update rfl trivial hw.sidecar hw.stored
  | grow =>
      simp only [World.openNext]
      split
      · exact hw.update rfl hopen hw.sidecar hw.stored
      · exact hw.update rfl trivial hw.sidecar hw.stored
  | store =>
      have hfresh := handleOk_fresh (Z := Z) cfg w.key c.now c.ok hopen.1 hopen.2
      have hmeta : MetaOk Z origin (FileEntry.openFresh cfg w.key v c.now c.ok).meta_ :=
        ⟨hopen.1, fun i hi hset => hfresh.pages i hi (hset.imp_right Or.inl)⟩
      have hlive : SlotOk Z origin (Asked past h)
          (.live v ino (FileEntry.openFresh cfg w.key v c.now c.ok) fun _ => []) :=
        ⟨_, hfresh, by simp⟩
      simp only [World.openNext]
      split
      · refine hw.update rfl hlive ?_ ?_
        · rintro m ⟨⟩
          exact hmeta
        · intro m hm
          rcases List.mem_cons.1 hm with rfl | hm
          · exact hmeta
          · exact hw.stored m hm
      · exact hw.update rfl hlive hw.sidecar hw.stored

/-- The frames of a call just started. -/
theorem op_frames_ok {asked : Nat → Nat → Prop} {op : Op} (hbytes : op.OriginBytes O)
    (hasked : ∀ off buf account, op = .readCached off buf account → asked off buf.length) :
    ∀ fr ∈ op.frames, FrameSound Z origin O m₀ asked fr := by
  cases op with
  | writePages off bytes => simpa [Op.frames, FrameSound, Op.OriginBytes] using hbytes
  | stageSpeculative off bytes => simpa [Op.frames, FrameSound, Op.OriginBytes] using hbytes
  | readCached off buf account => simpa [Op.frames, FrameSound] using hasked off buf account rfl
  | _ => simp [Op.frames, FrameSound]

theorem Distinguishes.of_zero {d : DataFile} {m : MetaData} (h : Distinguishes False O m d)
    (hzero : Z → ∀ i < m.npages, (filePage d m i).length = m.pageBytes i →
      crc32c (filePage d m i) = 0 → filePage d m i = originPage O m i) : Distinguishes Z O m d := by
  intro i hi hlen hcrc
  rcases hcrc with hcrc | ⟨hz, hcrc⟩
  · exact h i hi hlen (Or.inl hcrc)
  · exact hzero hz i hi hlen hcrc

/-- A property of every frame of every thread, after one thread's frames were replaced. -/
theorem frames_update {threads : Nat → List Frame} {t : Nat} {frames : List Frame}
    {P : Nat → Frame → Prop} (h : ∀ t, ∀ fr ∈ threads t, P t fr) (hnew : ∀ fr ∈ frames, P t fr) :
    ∀ t', ∀ fr ∈ Function.update threads t frames t', P t' fr := by
  intro t' fr hfr
  by_cases ht : t' = t
  · subst ht
    rw [Function.update_self] at hfr
    exact hnew fr hfr
  · rw [Function.update_of_ne ht] at hfr
    exact h t' fr hfr

theorem WorldOk.putBack (hw : WorldOk Z origin past w) {h : Nat} {ino : Nat} {s : Machine}
    (hslot : SlotOk Z origin (Asked past h) (.live v ino s.e s.threads))
    (hside : ∀ m, s.disk.sidecar = some m → MetaOk Z origin m) :
    WorldOk Z origin past (w.putBack h v ino s) := by
  refine hw.update rfl hslot hside ?_
  intro m hm
  rcases List.mem_append.1 hm with hm | hm
  · exact hside m (Option.mem_toList.1 hm)
  · exact hw.stored m hm

theorem worldOk_act (hw : WorldOk Z origin past w) {h : Nat} {a : MachineAct}
    (hcond : SoundCond Z origin w (.act h a)) (hstep : w.step (.act h a) = some w') :
    WorldOk Z origin (past ++ [.act h a]) w' := by
  obtain ⟨hassumed, hkeep, hzero⟩ := hcond
  obtain ⟨v, ino, e, threads, s, hslot, hs, rfl⟩ := World.act_inv hstep
  have hw' : WorldOk Z origin (past ++ [.act h a]) w := hw.snoc
  have hlive := hw'.slots h
  rw [hslot] at hlive
  obtain ⟨m₀, hhandle, hframes⟩ := hlive
  cases a with
  | start t op =>
      obtain ⟨-, rfl⟩ := Machine.start_inv hs
      refine hw'.putBack ⟨m₀, hhandle, frames_update hframes ?_⟩ hw.sidecar
      refine op_frames_ok (hassumed.filled h t op rfl v ino e threads hslot) ?_
      rintro off buf account rfl
      exact ⟨buf, account, by simp, rfl⟩
  | step t c =>
      obtain ⟨fr, rest, r, ht, hr, rfl⟩ := Machine.step_inv hs
      change threads t = fr :: rest at ht
      have hcond : FrameCond Z origin (origin v) e (w.machine ino e threads).disk fr := by
        refine ⟨?_, ?_, ?_⟩
        · rintro f rfl
          exact hassumed.merged h t c rfl v ino e threads hslot f rest ht
        · rintro f out merged rfl
          exact hkeep.imp_right fun hkeep =>
            hkeep h t c rfl v ino e threads hslot f out merged rest ht
        · exact (hassumed.distinguishes h _ rfl v ino e threads hslot).of_zero fun hz =>
            hzero hz h _ rfl v ino e threads hslot
      have hmem : ∀ fr' ∈ fr :: rest, FrameSound Z origin (origin v) m₀
          (Asked (past ++ [.act h (.step t c)]) h t) fr' := by
        rw [← ht]
        exact hframes t
      obtain ⟨hhandle', hside, hframes'⟩ :=
        step_sound hhandle (hmem fr (by simp)) hw.sidecar hcond hr
      refine hw'.putBack ⟨m₀, hhandle', frames_update hframes ?_⟩ ?_
      · intro fr' hfr'
        rcases List.mem_append.1 hfr' with hfr' | hfr'
        · exact hframes' fr' hfr'
        · exact hmem fr' (by simp [hfr'])
      · intro m hm
        rcases hside with hsame | ⟨m', hm', hok⟩
        · exact hw.sidecar m (hsame.symm.trans hm)
        · obtain rfl : m' = m := Option.some.inj (hm'.symm.trans hm)
          exact hok

theorem worldOk_step (hw : WorldOk Z origin past w) (hcond : SoundCond Z origin w a)
    (hstep : w.step a = some w') : WorldOk Z origin (past ++ [a]) w' := by
  have hw' : WorldOk Z origin (past ++ [a]) w := hw.snoc
  cases a with
  | openEntry h cfg v =>
      obtain rfl := World.open_inv hstep
      obtain ⟨hlen, hvalid⟩ := hcond.1.opened h cfg v rfl
      have hopen : ∀ ino phase, SlotOk Z origin (Asked (past ++ [.openEntry h cfg v]) h)
          (.opening cfg v ino phase) := by
        intro ino phase
        refine ⟨hlen, ?_⟩
        simp only [Config.validPageSize, Bool.and_eq_true, decide_eq_true_eq] at hvalid
        omega
      unfold World.openData
      split
      · exact hw'.update rfl (hopen _ _) hw.sidecar hw.stored
      · exact hw'.update rfl (hopen _ _) hw.sidecar hw.stored
  | openStep h c =>
      obtain ⟨cfg, v, ino, phase, hslot, rfl⟩ := World.openStep_inv hstep
      exact worldOk_openNext hw' hslot (hcond.1.adopted h c rfl cfg v ino phase hslot)
  | act h a => exact worldOk_act hw hcond hstep
  | close h =>
      cases hstep
      exact hw'.update rfl trivial hw.sidecar hw.stored
  | unlinkData =>
      cases hstep
      exact ⟨hw.sidecar, hw.stored, hw'.slots⟩
  | unlinkMeta =>
      cases hstep
      exact ⟨by simp, hw.stored, hw'.slots⟩
  | powerLoss inode image =>
      cases hstep
      refine ⟨?_, hw.stored, fun _ => trivial⟩
      intro m hm
      obtain ⟨k, -, hk⟩ := Option.bind_eq_some_iff.1 hm
      exact hw.stored m (List.mem_of_getElem? hk)

theorem worldOk_run {key : Bytes} {acts : List WorldAct}
    (halong : Along World.step (SoundCond Z origin) { key := key } acts)
    (hrun : exec World.step { key := key } acts = some w) : WorldOk Z origin acts w := by
  have hstart : WorldOk Z origin [] { key := key } :=
    ⟨by simp, by simp, fun _ => trivial⟩
  simpa using exec_history_along (WorldOk Z origin)
    (fun past w a w' hw hcond hstep => worldOk_step hw hcond hstep) [] hstart halong hrun

end Runs

end Sound

/-- Every read of the cache that returns true has filled the caller's buffer with the origin's
bytes: whatever handles, processes and threads do in whatever order, and wherever they crash, as
long as no failed commit puts back a page that is no longer present, or no wrong page has the CRC
zero. -/
theorem cached_read_is_origin {origin : Validators → Bytes} {key : Bytes} {acts : List WorldAct}
    {w : World} (hassumed : Along World.step (Assumed origin) { key := key } acts)
    (hcond : Along World.step KeepsCrc { key := key } acts ∨
      Along World.step (NoZeroCrc origin) { key := key } acts)
    (hrun : exec World.step { key := key } acts = some w) {h t ino : Nat} {v : Validators}
    {e : FileEntry} {threads : Nat → List Frame} {off : Nat} {out : Bytes} {rest : List Frame}
    (hslot : w.slots h = .live v ino e threads) (hdone : threads t = .readDone off out :: rest) :
    (∃ buf account, .act h (.start t (.readCached off buf account)) ∈ acts ∧
        buf.length = out.length) ∧ out = slice (origin v) off out.length := by
  have hok : ∃ Z : Prop, WorldOk Z origin acts w := by
    rcases hcond with hkeep | hzero
    · refine ⟨False, worldOk_run ((hassumed.and hkeep).imp ?_) hrun⟩
      intro w a hc
      exact ⟨hc.1, Or.inr hc.2, False.elim⟩
    · refine ⟨True, worldOk_run ((hassumed.and hzero).imp ?_) hrun⟩
      intro w a hc
      exact ⟨hc.1, Or.inl trivial, fun _ => hc.2⟩
  obtain ⟨Z, hw⟩ := hok
  have hlive := hw.slots h
  rw [hslot] at hlive
  obtain ⟨m₀, -, hframes⟩ := hlive
  exact hframes t (.readDone off out) (by simp [hdone])

/-! ### Checking a run -/

instance (O : Bytes) (off : Nat) (bytes : Bytes) : Decidable (OriginBytes O off bytes) :=
  inferInstanceAs (Decidable (∀ k < bytes.length, off + k < O.length → bytes[k]? = O[off + k]?))

instance (O : Bytes) (m : MetaData) (i : Nat) (crc : UInt32) : Decidable (CrcOk False O m i crc) :=
  inferInstanceAs (Decidable (_ ∨ _))

instance (O : Bytes) (m : MetaData) (d : DataFile) : Decidable (Distinguishes False O m d) :=
  inferInstanceAs (Decidable (∀ i < m.npages, (filePage d m i).length = m.pageBytes i →
    CrcOk False O m i (crc32c (filePage d m i)) → filePage d m i = originPage O m i))

/-- The bytes a call brings, checked. -/
def Op.originBytesCheck (O : Bytes) : Op → Bool
  | .writePages off bytes => decide (UCache.OriginBytes O off bytes)
  | .stageSpeculative off bytes => decide (UCache.OriginBytes O off bytes)
  | _ => true

/-- A sidecar that passes validation is of the same origin, checked. -/
def sameOrigin (origin : Validators → Bytes) (sidecar : Option MetaData) (cfg : Config)
    (key : Bytes) (v : Validators) : Bool :=
  (MetaFile.load sidecar).all fun m =>
    !adoptable m cfg key v || decide (origin m.validators = origin v)

/-- `Assumed`, evaluated. -/
def assumedCheck (origin : Validators → Bytes) (w : World) : WorldAct → Bool
  | .openEntry _ cfg v =>
      decide ((origin v).length = v.originSize) && Config.validPageSize cfg.pageSize
  | .openStep h _ =>
      match w.slots h with
      | .opening cfg v _ _ => sameOrigin origin w.sidecar cfg w.key v
      | _ => true
  | .act h a =>
      match w.slots h with
      | .live v ino e threads =>
          decide (Distinguishes False (origin v) e.meta_ (w.inode ino)) &&
            match a with
            | .start _ op => op.originBytesCheck (origin v)
            | .step t _ =>
                match threads t with
                | .metaLoad f :: _ =>
                    sameOrigin origin w.sidecar e.cfg e.key f.snapshot.validators
                | _ => true
      | _ => true
  | _ => true

theorem sameOrigin_sound {origin : Validators → Bytes} {sidecar : Option MetaData} {cfg : Config}
    {key : Bytes} (h : sameOrigin origin sidecar cfg key v = true) {m : MetaData}
    (hm : MetaFile.load sidecar = some m) (ha : adoptable m cfg key v = true) :
    origin m.validators = origin v := by
  simpa [sameOrigin, hm, ha] using h

theorem assumedCheck_sound {origin : Validators → Bytes} {w : World} {a : WorldAct}
    (h : assumedCheck origin w a = true) : Assumed origin w a := by
  constructor
  · rintro h' cfg v rfl
    simpa [assumedCheck] using h
  · rintro h' t op rfl v ino e threads hslot
    simp only [assumedCheck, hslot, Bool.and_eq_true] at h
    have hop := h.2
    unfold Op.OriginBytes
    split
    · simpa [Op.originBytesCheck] using hop
    · simpa [Op.originBytesCheck] using hop
    · trivial
  · rintro h' c rfl cfg v ino phase hslot m hm ha
    simp only [assumedCheck, hslot] at h
    exact sameOrigin_sound h hm ha
  · rintro h' t c rfl v ino e threads hslot f rest ht m hm ha
    simp only [assumedCheck, hslot, ht, Bool.and_eq_true] at h
    exact sameOrigin_sound h.2 hm ha
  · rintro h' a' rfl v ino e threads hslot
    simp only [assumedCheck, hslot, Bool.and_eq_true, decide_eq_true_eq] at h
    exact h.1

/-- `KeepsCrc`, evaluated. -/
def keepsCheck (w : World) : WorldAct → Bool
  | .act h (.step t _) =>
      match w.slots h with
      | .live _ _ e threads =>
          match threads t with
          | .metaEnd f _ _ false :: _ =>
              (List.range e.meta_.npages).all fun i =>
                !f.sets.get i || e.clearedSince.get i || e.meta_.bitmap.get i
          | _ => true
      | _ => true
  | _ => true

theorem keepsCheck_sound {w : World} {a : WorldAct} (h : keepsCheck w a = true) :
    KeepsCrc w a := by
  rintro h' t c rfl v ino e threads hslot f out merged rest ht i hi hset hclear
  simp only [keepsCheck, hslot, ht, List.all_eq_true, List.mem_range] at h
  simpa [hset, hclear] using h i hi

theorem along_of_worldCheck {cond : World → WorldAct → Prop} {check : World → WorldAct → Bool}
    (sound : ∀ w a, check w a = true → cond w a) {w : World} {acts : List WorldAct}
    (h : alongB World.step check w acts = true) : Along World.step cond w acts :=
  along_of_check (fun _ => True) (fun _ => True) (fun _ _ _ _ _ _ => trivial)
    (fun w a _ _ => sound w a) trivial (fun _ _ => trivial) h

/-- What a read that has returned true on thread `t` left in the caller's buffer. -/
def Slot.readDone (t : Nat) : Slot → Option (Nat × Bytes)
  | .live _ _ _ threads =>
      match threads t with
      | .readDone off out :: _ => some (off, out)
      | _ => none
  | _ => none

theorem Slot.readDone_eq_some {slot : Slot} {t : Nat} {out : Bytes}
    (h : slot.readDone t = some (off, out)) :
    ∃ v ino e threads rest, slot = .live v ino e threads ∧
      threads t = .readDone off out :: rest := by
  unfold Slot.readDone at h
  split at h
  · rename_i v ino e threads
    split at h
    · rename_i off' out' rest ht
      cases h
      exact ⟨v, ino, e, threads, rest, rfl, ht⟩
    · simp at h
  · simp at h

/-! ### A page that a failed commit puts back -/

/-- An origin of five bytes. -/
def fiveBytes : Bytes := [170, 100, 85, 52, 1]

/-- Handle 0 opened on a fresh entry; thread 1 fills, drains and publishes its one page, and its
commit takes its snapshot. -/
def fillRun : List WorldAct :=
  [.openEntry 0 {} { originSize := 5 }, .openStep 0 {}, .openStep 0 {}, .openStep 0 {},
    .openStep 0 {}, .act 0 (.start 1 (.writePages 0 fiveBytes)), .act 0 (.step 1 {}),
    .act 0 (.step 1 {}), .act 0 (.step 1 {}), .act 0 (.step 1 {}), .act 0 (.step 1 {}),
    .act 0 (.step 1 {}), .act 0 (.step 1 {})]

/-- The commit ends and thread 1 reads the page back. -/
def readRun : List WorldAct :=
  fillRun ++ [.act 0 (.step 1 {}), .act 0 (.step 1 {}), .act 0 (.step 1 {}),
    .act 0 (.start 1 (.readCached 0 [0, 0, 0, 0, 0] false)), .act 0 (.step 1 {}),
    .act 0 (.step 1 {}), .act 0 (.step 1 {})]

/-- Five bytes are written, and a read returns them. -/
theorem cached_read_of_five_bytes :
    ∃ w, exec World.step { key := [102] } readRun = some w ∧
      ∃ v ino e threads rest, w.slots 0 = .live v ino e threads ∧
        threads 1 = .readDone 0 fiveBytes :: rest ∧ fiveBytes = slice fiveBytes 0 5 := by
  have hobs : (exec World.step { key := [102] } readRun).map (fun w => (w.slots 0).readDone 1) =
      some (some (0, fiveBytes)) := by decide +kernel
  obtain ⟨w, hw, hdone⟩ := Option.map_eq_some_iff.1 hobs
  obtain ⟨v, ino, e, threads, rest, hslot, ht⟩ := Slot.readDone_eq_some hdone
  have hassumed : Along World.step (Assumed fun _ => fiveBytes) { key := [102] } readRun :=
    along_of_worldCheck (fun _ _ => assumedCheck_sound) (by decide +kernel)
  have hkeeps : Along World.step KeepsCrc { key := [102] } readRun :=
    along_of_worldCheck (fun _ _ => keepsCheck_sound) (by decide +kernel)
  exact ⟨w, hw, v, ino, e, threads, rest, hslot, ht,
    (cached_read_is_origin hassumed (Or.inl hkeeps) hw hslot ht).2⟩

/-- Thread 2 pins the entry: its commit overtakes and its adoption clears the page.  Thread 1's
store fails and the page is pending again, without bit and CRC.  Thread 3 stages the page anew and
starts to drain.  Thread 1 commits: the page is present with the CRC zero.  Handle 1, opened for a
newer modification time, truncates the file.  Thread 3's write is cut short, and what it leaves has
the CRC zero; thread 1 reads it. -/
def tornRun : List WorldAct :=
  fillRun ++ [.act 0 (.start 2 (.setPinned true)), .act 0 (.step 2 {}), .act 0 (.step 2 {}),
    .act 0 (.step 2 {}), .act 0 (.step 2 {}), .act 0 (.step 2 {}),
    .act 0 (.step 1 {}), .act 0 (.step 1 { ok := false }), .act 0 (.step 1 {}),
    .act 0 (.start 3 (.writePages 0 fiveBytes)), .act 0 (.step 3 {}), .act 0 (.step 3 {}),
    .act 0 (.step 3 {}),
    .act 0 (.start 1 (.flushMeta true)), .act 0 (.step 1 {}), .act 0 (.step 1 {}),
    .act 0 (.step 1 {}), .act 0 (.step 1 {}),
    .openEntry 1 { validate := .sizeMtime } { originSize := 5, originMtime := 1 },
    .openStep 1 {}, .openStep 1 {}, .openStep 1 {},
    .act 0 (.step 3 { ok := false, count := 4 }), .act 0 (.step 3 {}), .act 0 (.step 3 {}),
    .act 0 (.start 1 (.readCached 0 [0, 0, 0, 0, 0] false)), .act 0 (.step 1 {}),
    .act 0 (.step 1 {}), .act 0 (.step 1 {})]

/-- A torn page whose CRC was zeroed by an adopt is read unchecked. -/
theorem cached_read_of_torn_page :
    ¬ ∀ (origin : Validators → Bytes) (key : Bytes) (acts : List WorldAct) (w : World),
        Along World.step (Assumed origin) { key := key } acts →
        exec World.step { key := key } acts = some w →
        ∀ (h t ino : Nat) (v : Validators) (e : FileEntry) (threads : Nat → List Frame) (off : Nat)
          (out : Bytes) (rest : List Frame), w.slots h = .live v ino e threads →
          threads t = .readDone off out :: rest → out = slice (origin v) off out.length := by
  intro hall
  have hobs : (exec World.step { key := [102] } tornRun).map (fun w => (w.slots 0).readDone 1) =
      some (some (0, [170, 100, 85, 52, 0])) := by decide +kernel
  obtain ⟨w, hw, hdone⟩ := Option.map_eq_some_iff.1 hobs
  obtain ⟨v, ino, e, threads, rest, hslot, ht⟩ := Slot.readDone_eq_some hdone
  have hassumed : Along World.step (Assumed fun _ => fiveBytes) { key := [102] } tornRun :=
    along_of_worldCheck (fun _ _ => assumedCheck_sound) (by decide +kernel)
  have hread := hall _ _ tornRun w hassumed hw 0 1 ino v e threads _ _ rest hslot ht
  exact absurd hread (by decide)

end UCache
