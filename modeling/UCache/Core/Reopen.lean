/-
Module: UCache.Core.Reopen
Purpose: One entry from its creation to the next open: the handle works and commits its sidecar, as
  bytes, and the open that comes after reads them.
Trusted boundary: none
Main exports: StoredEntry, reopen_keeps_cache, reopen_of_wide_file_truncates
-/
import UCache.Core.Commits
import UCache.Core.MetaImage

namespace UCache

open Lib

/-! ### The entry and its sidecar file -/

/-- [SRC FileEntry.cc:1114-1142] The image to store, given what `load` made of the sidecar file. -/
def MetaFlush.imageOf (f : MetaFlush) (cfg : Config) (key : Bytes) (loaded : Option MetaData) :
    MetaData × Bool :=
  match loaded with
  | some disk =>
      if disk.pageSize = f.snapshot.pageSize ∧
          adoptable disk cfg key f.snapshot.validators = true then
        (f.merge disk, true)
      else (f.snapshot, false)
  | none => (f.snapshot, false)

/-- [SRC FileEntry.cc:61-113] The adopting outcome of `open` over the sidecar file; else the data file
is truncated. -/
def FileEntry.openImage (cfg : Config) (key : Bytes) (v : Validators) (image : Option Bytes) :
    Option FileEntry :=
  (MetaFile.loadImage image).bind fun m =>
    if adoptable m cfg key v then some (ofMeta cfg key m false) else none

/-- Where `flushMeta` stands. -/
inductive Flushing where
  | idle
  | snapped (f : MetaFlush)
  | stored (out : MetaData) (merged : Bool)

/-- A handle and the sidecar file.  `flushed` is not the program's: what the handle held at the
snapshot of the last commit. -/
structure StoredEntry where
  e : FileEntry
  image : Option Bytes
  flush : Flushing := .idle
  flushed : MetaData

inductive StoredEntryAct where
  /-- A step of work, of any thread, that is not of `flushMeta`. -/
  | work (fr : Frame) (c : Choice) (d : Disk)
  /-- The snapshot section of `flushMeta`. -/
  | begin
  /-- Load, merge and store under the exclusive lock. -/
  | commit
  /-- The handle adopts the image that was stored. -/
  | finish

def Frame.isFlushMeta : Frame → Bool
  | .flushMeta _ => true
  | fr => fr.isMeta

namespace StoredEntry

/-- [SRC FileEntry.cc:98-109] The entry as `open` creates it, its empty sidecar stored. -/
def created (cfg : Config) (key : Bytes) (v : Validators) (now : Nat) : StoredEntry :=
  let e := FileEntry.openFresh cfg key v now true
  { e := e, image := some (MetaFile.serialize e.meta_), flushed := e.meta_ }

/-- [SRC FileEntry.cc:1074-1189] Every store succeeds. -/
def step (s : StoredEntry) : StoredEntryAct → Option StoredEntry
  | .work fr c d =>
      if fr.isFlushMeta then none else (fr.step c s.e d).map fun r => { s with e := r.1 }
  | .begin =>
      match s.flush with
      | .idle =>
          if s.e.dirty then
            let (e, f) := s.e.flushMetaBegin
            some { s with e := e, flush := .snapped f }
          else none
      | _ => none
  | .commit =>
      match s.flush with
      | .snapped f =>
          let r := f.imageOf s.e.cfg s.e.key (MetaFile.loadImage s.image)
          some { s with
            image := some (MetaFile.serialize r.1)
            flush := .stored r.1 r.2
            flushed := f.snapshot }
      | _ => none
  | .finish =>
      match s.flush with
      | .stored out merged =>
          some { s with e := if merged then s.e.flushMetaAdopt out else s.e, flush := .idle }
      | _ => none

/-! ### The invariant -/

/-- `m` is what a log of transitions makes of `m₀`. -/
def After (n : Nat) (m m₀ : MetaData) (ts : List Transition) : Prop :=
  ∀ i < n, m.seen i = (lastPage ts i).getD (m₀.seen i)

/-- What is not yet in the sidecar, and who holds it. -/
def FlushingInv (g : Generation) (s : StoredEntry) : Prop :=
  match s.flush with
  | .idle => ∃ since, Tracks g.npages s.e since ∧ After g.npages s.e.meta_ s.flushed since
  | .snapped f => g.Describes f.snapshot ∧ ∃ since seg,
      Tracks g.npages s.e since ∧ Carries g.npages f seg ∧
        After g.npages f.snapshot s.flushed seg ∧ After g.npages s.e.meta_ f.snapshot since
  | .stored out _ => ∃ since, Tracks g.npages s.e since ∧
      After g.npages s.e.meta_ s.flushed since ∧ After g.npages out s.flushed []

/-- The sidecar file is the image of metadata of the generation that says what was flushed. -/
structure Inv (g : Generation) (s : StoredEntry) : Prop where
  describes : g.Describes s.e.meta_
  key : s.e.key = g.key
  image : ∃ d, s.image = some (MetaFile.serialize d) ∧ g.Describes d ∧
    After g.npages d s.flushed []
  flush : FlushingInv g s

end StoredEntry

/-- Validation data in the range of their C++ types, for a size the data file can be extended to. -/
structure Generation.Typed (g : Generation) : Prop where
  originSize : g.validators.originSize < 2 ^ 63
  originMtime : g.validators.originMtime < 2 ^ 64
  cksumKind : g.validators.cksumKind < 2 ^ 8
  originCksum : g.validators.originCksum < 2 ^ 32

theorem Generation.Describes.fits {g : Generation} (ht : g.Typed) {m : MetaData}
    (h : g.Describes m) : MetaFile.Fits m := by
  have hv := h.validators
  have hfs : m.fileSize = g.validators.originSize := congrArg Validators.originSize hv
  have hmt : m.originMtime = g.validators.originMtime := congrArg Validators.originMtime hv
  have hck : m.cksumKind = g.validators.cksumKind := congrArg Validators.cksumKind hv
  have hoc : m.originCksum = g.validators.originCksum := congrArg Validators.originCksum hv
  exact ⟨h.pageSize ▸ g.valid, hfs ▸ ht.originSize, hmt ▸ ht.originMtime, hck ▸ ht.cksumKind,
    hoc ▸ ht.originCksum, h.ncrcs.trans h.npages.symm⟩

theorem Generation.Describes.agrees {g : Generation} {d m : MetaData} (h : g.Describes m)
    (ha : MetaFile.Agrees d m) : g.Describes d :=
  ⟨ha.key.trans h.key, ha.validators.trans h.validators, ha.pageSize.trans h.pageSize,
    ha.ncrcs.trans h.ncrcs⟩

theorem Generation.Describes.readable {g : Generation} (ht : g.Typed) {m : MetaData}
    (h : g.Describes m) : MetaFile.readable m = true ↔ g.Loadable := by
  rw [MetaFile.readable_iff (h.fits ht), MetaFile.imageSize, h.key, h.npages]
  rfl

namespace StoredEntry

variable {g : Generation} {s t : StoredEntry}

/-! ### One step -/

theorem work_inv (h : Inv g s) {fr : Frame} {c : Choice} {d : Disk}
    (hstep : s.step (.work fr c d) = some t) : Inv g t := by
  simp only [step] at hstep
  split at hstep
  · cases hstep
  · rename_i hfr
    obtain ⟨r, hr, rfl⟩ := Option.map_eq_some_iff.1 hstep
    have hmeta : fr.isMeta = false := by
      cases fr <;> simp_all [Frame.isFlushMeta, Frame.isMeta]
    have hcalm : Calm s.e d r := by
      refine Frame.step_calm hmeta ?_ hr
      rintro force rfl
      simp [Frame.isFlushMeta] at hfr
    obtain ⟨ts, hsec⟩ := hcalm.sec
    have hx := hsec.extends_
    -- the handle moves on by `ts`; the sidecar and a commit under way are as they were
    have hafter : ∀ {m₀ : MetaData} {since : List Transition},
        After g.npages s.e.meta_ m₀ since → After g.npages r.1.meta_ m₀ (since ++ ts) := by
      intro m₀ since hsince i hi
      rw [hx.seen, hsince i hi, lastPage_append]
      cases lastPage ts i <;> rfl
    refine ⟨h.describes.extends hx, hx.key.trans h.key, h.image, ?_⟩
    have hflush := h.flush
    simp only [FlushingInv] at hflush ⊢
    cases hs : s.flush with
    | idle =>
        rw [hs] at hflush
        obtain ⟨since, htr, hsince⟩ := hflush
        exact ⟨since ++ ts, hx.tracks htr, hafter hsince⟩
    | snapped f =>
        rw [hs] at hflush
        obtain ⟨hdesc, since, seg, htr, hca, hseg, hsince⟩ := hflush
        exact ⟨hdesc, since ++ ts, seg, hx.tracks htr, hca, hseg, hafter hsince⟩
    | stored out merged =>
        rw [hs] at hflush
        obtain ⟨since, htr, hsince, hout⟩ := hflush
        exact ⟨since ++ ts, hx.tracks htr, hafter hsince, hout⟩

theorem begin_inv (h : Inv g s) (hstep : s.step .begin = some t) : Inv g t := by
  cases hs : s.flush with
  | snapped f => simp [step, hs] at hstep
  | stored out merged => simp [step, hs] at hstep
  | idle =>
      simp only [step, hs] at hstep
      split at hstep
      · cases hstep
        have hflush := h.flush
        simp only [FlushingInv, hs] at hflush
        obtain ⟨since, htr, hsince⟩ := hflush
        obtain ⟨htr', hca⟩ := htr.flushMetaBegin
        exact ⟨h.describes, h.key, h.image, h.describes, [], since, htr', hca, hsince,
          fun _ _ => rfl⟩
      · cases hstep

/-- What a commit stores says of every page what the snapshot says, merged or not. -/
theorem imageOf_after (ht : g.Typed) {f : MetaFlush} {d m₀ : MetaData} {seg : List Transition}
    (hf : g.Describes f.snapshot) (hd : g.Describes d) (hd₀ : After g.npages d m₀ [])
    (hca : Carries g.npages f seg) (hseg : After g.npages f.snapshot m₀ seg) (cfg : Config)
    (key : Bytes) :
    let r := f.imageOf cfg key (MetaFile.loadImage (some (MetaFile.serialize d)))
    g.Describes r.1 ∧ After g.npages r.1 f.snapshot [] := by
  have hwhole : g.Describes f.snapshot ∧ After g.npages f.snapshot f.snapshot [] :=
    ⟨hf, fun _ _ => rfl⟩
  rcases MetaFile.loadImage_serialize (hd.fits ht) with ⟨hload, -⟩ | ⟨d₁, d₂, hload, -, hagree, -⟩
  · rw [hload]
    exact hwhole
  · rw [hload]
    simp only [MetaFlush.imageOf]
    split
    · have hd₁ := hd.agrees hagree
      refine ⟨hd₁.merge f, fun i hi => ?_⟩
      have hold : d₁.seen i = m₀.seen i := by
        rw [MetaData.seen_congr (hagree.page i (hd.npages ▸ hi)), hd₀ i hi]
        rfl
      rw [hca.seen_merge hd₁.npages hi, hold, hseg i hi]
      rfl
    · exact hwhole

theorem commit_inv (ht : g.Typed) (h : Inv g s) (hstep : s.step .commit = some t) : Inv g t := by
  cases hs : s.flush with
  | idle => simp [step, hs] at hstep
  | stored out merged => simp [step, hs] at hstep
  | snapped f =>
      simp only [step, hs, Option.some.injEq] at hstep
      have hflush := h.flush
      simp only [FlushingInv, hs] at hflush
      obtain ⟨hdesc, since, seg, htr, hca, hseg, hsince⟩ := hflush
      obtain ⟨d, himage, hd, hd₀⟩ := h.image
      obtain ⟨hout, hafter⟩ := imageOf_after ht hdesc hd hd₀ hca hseg s.e.cfg s.e.key
      rw [himage] at hstep
      subst hstep
      exact ⟨h.describes, h.key, ⟨_, rfl, hout, hafter⟩, since, htr, hsince, hafter⟩

theorem finish_inv (h : Inv g s) (hstep : s.step .finish = some t) : Inv g t := by
  cases hs : s.flush with
  | idle => simp [step, hs] at hstep
  | snapped f => simp [step, hs] at hstep
  | stored out merged =>
      simp only [step, hs, Option.some.injEq] at hstep
      subst hstep
      have hflush := h.flush
      simp only [FlushingInv, hs] at hflush
      obtain ⟨since, htr, hsince, hout⟩ := hflush
      cases merged with
      | false => exact ⟨h.describes, h.key, h.image, since, htr, hsince⟩
      | true =>
          have hn := h.describes.npages
          refine ⟨h.describes.adopt out, h.key, h.image, since, htr.flushMetaAdopt hn out, ?_⟩
          intro i hi
          rw [if_pos rfl, htr.seen_adopt hn out hi, hout i hi]
          rfl

theorem step_inv (ht : g.Typed) (h : Inv g s) {a : StoredEntryAct} (hstep : s.step a = some t) :
    Inv g t := by
  cases a with
  | work fr c d => exact work_inv h hstep
  | begin => exact begin_inv h hstep
  | commit => exact commit_inv ht h hstep
  | finish => exact finish_inv h hstep

theorem created_inv (g : Generation) {cfg : Config} (hp : cfg.pageSize = g.pageSize) (now : Nat) :
    Inv g (created cfg g.key g.validators now) where
  describes := freshMeta_describes g hp now
  key := rfl
  image := ⟨_, rfl, freshMeta_describes g hp now, fun _ _ => rfl⟩
  flush := by
    refine ⟨[], ⟨?_, ?_, ?_, ?_, ?_⟩, fun _ _ => rfl⟩ <;>
      simp [created, FileEntry.openFresh, FileEntry.ofMeta, lastPage, lastPin, lastFor]

end StoredEntry

/-! ### The next open -/

/-- The pages that were present at the last flush, with their CRCs. -/
def KeepsPages (n : Nat) (m₀ m : MetaData) : Prop :=
  ∀ i < n, m₀.bitmap.get i = true → m.page i = (true, m₀.pageCrcs i)

theorem keepsPages_of_seen {n : Nat} {m₀ m : MetaData} (h : ∀ i < n, m.seen i = m₀.seen i) :
    KeepsPages n m₀ m := by
  intro i hi hset
  have hseen := h i hi
  simp only [MetaData.seen, hset, if_true] at hseen
  cases hbit : m.bitmap.get i with
  | false => simp [hbit] at hseen
  | true =>
      rw [hbit, if_pos rfl, Prod.mk.injEq] at hseen
      exact Prod.ext hbit hseen.2

/-- What the next open of the same generation makes of the sidecar file. -/
theorem StoredEntry.Inv.openImage {g : Generation} (ht : g.Typed) {s : StoredEntry}
    (h : StoredEntry.Inv g s) (cfg : Config) :
    if g.Loadable then
      ∃ e, FileEntry.openImage cfg g.key g.validators s.image = some e ∧
        KeepsPages g.npages s.flushed e.meta_
    else FileEntry.openImage cfg g.key g.validators s.image = none := by
  obtain ⟨d, himage, hd, hd₀⟩ := h.image
  have hreadable := hd.readable ht
  rw [FileEntry.openImage, himage]
  rcases MetaFile.loadImage_serialize (hd.fits ht) with
    ⟨hload, habs⟩ | ⟨d₁, d₂, hload, habs, hagree, -⟩
  · rw [if_neg, hload]
    · rfl
    · intro hl
      rw [MetaFile.load, if_pos (hreadable.2 hl)] at habs
      cases habs
  · have hl : g.Loadable := by
      obtain ⟨_, hsome, hr, -⟩ := MetaFile.load_eq_some habs
      cases hsome
      exact hreadable.1 hr
    have hd₁ := hd.agrees hagree
    rw [if_pos hl, hload]
    refine ⟨FileEntry.ofMeta cfg g.key d₁ false, ?_, keepsPages_of_seen fun i hi => ?_⟩
    · rw [Option.bind_some, if_pos (hd₁.adoptable cfg)]
    · exact (MetaData.seen_congr (hagree.page i (hd.npages ▸ hi))).trans (hd₀ i hi)

/-- **A reopened file keeps its cache** exactly when the image of its sidecar has at most `2^31` bytes
and its key at most 64 KiB: after any work and any commits, with no failure, the next open of the
same key and validation data adopts the sidecar and has every page of the last flush. -/
theorem reopen_keeps_cache (g : Generation) (ht : g.Typed) (cfg cfg' : Config)
    (hp : cfg.pageSize = g.pageSize) (now : Nat) (acts : List StoredEntryAct) (t : StoredEntry)
    (hrun : exec StoredEntry.step (StoredEntry.created cfg g.key g.validators now) acts = some t) :
    (∃ e, FileEntry.openImage cfg' g.key g.validators t.image = some e ∧
        KeepsPages g.npages t.flushed e.meta_) ↔ g.Loadable := by
  have hinv : StoredEntry.Inv g t :=
    exec_invariant (StoredEntry.Inv g) (fun _ _ _ hs hstep => StoredEntry.step_inv ht hs hstep)
      (StoredEntry.created_inv g hp now) hrun
  have hopen := hinv.openImage ht cfg'
  split at hopen
  · rename_i hl
    exact ⟨fun _ => hl, fun _ => hopen⟩
  · rename_i hl
    refine ⟨?_, fun h => absurd h hl⟩
    rintro ⟨e, he, -⟩
    rw [hopen] at he
    cases he

/-- A page is written, published and committed. -/
def publishAndFlush : List StoredEntryAct :=
  [.work (.directPublish [(0, 7)]) {} { sidecar := none, data := DataFile.truncate 0 },
    .begin, .commit, .finish]

/-- The file of two pages is opened again: page 0 is there. -/
theorem reopen_keeps_cache_small :
    ∃ t e, exec StoredEntry.step (StoredEntry.created {} smallGeneration.key
        smallGeneration.validators 0) publishAndFlush = some t ∧
      FileEntry.openImage {} smallGeneration.key smallGeneration.validators t.image = some e ∧
        e.meta_.page 0 = (true, 7) := by
  have hrun : exec StoredEntry.step (StoredEntry.created {} smallGeneration.key
      smallGeneration.validators 0) publishAndFlush = some _ := rfl
  have hopen := (reopen_keeps_cache smallGeneration ⟨by decide, by decide, by decide, by decide⟩
    {} {} rfl 0 _ _ hrun).2 (by decide)
  obtain ⟨e, he, hpages⟩ := hopen
  exact ⟨_, e, hrun, he, hpages 0 (by decide) rfl⟩

/-- A file of 2 TiB: the same run ends with page 0 flushed, and the next open truncates the data
file. -/
theorem reopen_of_wide_file_truncates :
    ∃ t, exec StoredEntry.step (StoredEntry.created {} wideGeneration.key
        wideGeneration.validators 0) publishAndFlush = some t ∧
      t.flushed.page 0 = (true, 7) ∧
        FileEntry.openImage {} wideGeneration.key wideGeneration.validators t.image = none := by
  have hrun : exec StoredEntry.step (StoredEntry.created {} wideGeneration.key
      wideGeneration.validators 0) publishAndFlush = some _ := rfl
  have ht : wideGeneration.Typed := ⟨by decide, by decide, by decide, by decide⟩
  have hinv : StoredEntry.Inv wideGeneration _ :=
    exec_invariant (StoredEntry.Inv wideGeneration)
      (fun _ _ _ hs hstep => StoredEntry.step_inv ht hs hstep)
      (StoredEntry.created_inv wideGeneration rfl 0) hrun
  have hopen := hinv.openImage ht {}
  rw [if_neg (by decide)] at hopen
  exact ⟨_, hrun, rfl, hopen⟩

end UCache
