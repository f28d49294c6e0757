/-
Module: UCache.Core.Deltas
Purpose: What the since-last-store deltas of a handle mean: they describe the transitions made
  since the last snapshot, and each step of a sidecar commit keeps that description.
Trusted boundary: none
Main exports: lastPage, lastPin, Tracks
-/
import UCache.Core.FileEntry
import UCache.Lib.Log

namespace UCache

open Lib

variable {i : Nat}

/-- The last state a log of transitions gives page `i`, if it touches the page at all. -/
def lastPage (ts : List Transition) (i : Nat) : Option (Bool × UInt32) :=
  lastFor (Transition.page i) ts

/-- The last value a log of transitions gives the pin. -/
def lastPin (ts : List Transition) : Option Bool := lastFor Transition.pinned ts

@[simp] theorem lastPage_nil (i : Nat) : lastPage [] i = none := rfl

@[simp] theorem lastPin_nil : lastPin [] = none := rfl

theorem lastPage_append (xs ys : List Transition) (i : Nat) :
    lastPage (xs ++ ys) i = (lastPage ys i).or (lastPage xs i) :=
  lastFor_append _ xs ys

theorem lastPin_append (xs ys : List Transition) :
    lastPin (xs ++ ys) = (lastPin ys).or (lastPin xs) :=
  lastFor_append _ xs ys

/-- A retracted page has CRC zero. -/
theorem lastPage_false {ts : List Transition} {c : UInt32} (h : lastPage ts i = some (false, c)) :
    c = 0 := by
  induction ts with
  | nil => simp at h
  | cons t ts ih =>
      simp only [lastPage, lastFor, Option.or_eq_some_iff] at h
      rcases h with h | ⟨-, h⟩
      · exact ih h
      · cases t with
        | publish pg crc =>
            simp only [Transition.page] at h
            split at h <;> simp at h
        | retract pg =>
            simp only [Transition.page] at h
            split at h
            · simpa using h.symm
            · simp at h
        | pin p => simp [Transition.page] at h

/-- The deltas of a handle describe the log `since`, page by page below `n`. -/
structure Tracks (n : Nat) (e : FileEntry) (since : List Transition) : Prop where
  set_iff : ∀ i < n, e.setSince.get i = true ↔ ∃ c, lastPage since i = some (true, c)
  cleared_iff : ∀ i < n, e.clearedSince.get i = true ↔ lastPage since i = some (false, 0)
  page : ∀ i < n, ∀ x, lastPage since i = some x → e.meta_.page i = x
  pin_iff : e.pinTouched = true ↔ lastPin since ≠ none
  pin : ∀ p, lastPin since = some p → e.meta_.pinned = p

/-- What a commit took out of the handle describes the log `seg`. -/
structure Carries (n : Nat) (f : MetaFlush) (seg : List Transition) : Prop where
  set_iff : ∀ i < n, f.sets.get i = true ↔ ∃ c, lastPage seg i = some (true, c)
  clear_iff : ∀ i < n, f.clears.get i = true ↔ lastPage seg i = some (false, 0)
  page : ∀ i < n, ∀ x, lastPage seg i = some x → f.snapshot.page i = x
  pin_iff : f.pinTouched = true ↔ lastPin seg ≠ none
  pin : ∀ p, lastPin seg = some p → f.snapshot.pinned = p

variable {n : Nat} {e e' e'' : FileEntry} {f : MetaFlush} {since seg ts : List Transition}

/-- `e'` is `e` after the transitions `ts`, in order: every page and the pin have the state the last
transition on them gave, the deltas describe `ts` on top of what they described, and the geometry
is unchanged. -/
structure Extends (e e' : FileEntry) (ts : List Transition) : Prop where
  trace : e'.trace = e.trace ++ ts
  page : ∀ i, e'.meta_.page i = (lastPage ts i).getD (e.meta_.page i)
  pinned : e'.meta_.pinned = (lastPin ts).getD e.meta_.pinned
  tracks : ∀ {n since}, Tracks n e since → Tracks n e' (since ++ ts)
  setSince : ∀ i, e'.setSince.get i = ((lastPage ts i).map Prod.fst).getD (e.setSince.get i)
  validators : e'.meta_.validators = e.meta_.validators
  pageSize : e'.meta_.pageSize = e.meta_.pageSize
  metaKey : e'.meta_.key = e.meta_.key
  ncrcs : e'.meta_.ncrcs = e.meta_.ncrcs
  cfg : e'.cfg = e.cfg
  key : e'.key = e.key

namespace Extends

/-- A section that touches neither presence nor pin nor deltas. -/
theorem of_view (htrace : e'.trace = e.trace) (hset : e'.setSince = e.setSince)
    (hclear : e'.clearedSince = e.clearedSince) (htouch : e'.pinTouched = e.pinTouched)
    (hmeta : { e'.meta_ with complete := false, atime := 0 } =
      { e.meta_ with complete := false, atime := 0 })
    (hcfg : e'.cfg = e.cfg) (hkey : e'.key = e.key) : Extends e e' [] := by
  simp only [MetaData.mk.injEq] at hmeta
  obtain ⟨hps, hpin, -, hfs, -, hmt, hck, hoc, hk, hbm, hcrc, hnc⟩ := hmeta
  have hpage : ∀ i, e'.meta_.page i = e.meta_.page i := by
    intro i
    simp [MetaData.page, hbm, hcrc]
  refine ⟨by simp [htrace], by simp [hpage], by simp [hpin], ?_, by simp [hset], ?_, hps, hk, hnc,
    hcfg, hkey⟩
  · intro n since h
    rw [List.append_nil]
    refine ⟨?_, ?_, ?_, ?_, ?_⟩
    · rw [hset]; exact h.set_iff
    · rw [hclear]; exact h.cleared_iff
    · simpa only [hpage] using h.page
    · rw [htouch]; exact h.pin_iff
    · rw [hpin]; exact h.pin
  · simp [MetaData.validators, hfs, hmt, hck, hoc]

theorem refl (e : FileEntry) : Extends e e [] :=
  of_view rfl rfl rfl rfl rfl rfl rfl

theorem trans {ts₁ ts₂ : List Transition} (h1 : Extends e e' ts₁) (h2 : Extends e' e'' ts₂) :
    Extends e e'' (ts₁ ++ ts₂) where
  trace := by rw [h2.trace, h1.trace, List.append_assoc]
  page i := by rw [h2.page, h1.page]; exact (lastFor_append_getD _ ts₁ ts₂ _).symm
  pinned := by rw [h2.pinned, h1.pinned]; exact (lastFor_append_getD _ ts₁ ts₂ _).symm
  tracks h := by rw [← List.append_assoc]; exact h2.tracks (h1.tracks h)
  setSince i := by
    rw [h2.setSince, h1.setSince, lastPage_append]
    cases lastPage ts₂ i <;> simp
  validators := h2.validators.trans h1.validators
  pageSize := h2.pageSize.trans h1.pageSize
  metaKey := h2.metaKey.trans h1.metaKey
  ncrcs := h2.ncrcs.trans h1.ncrcs
  cfg := h2.cfg.trans h1.cfg
  key := h2.key.trans h1.key

/-- A section that follows with no transition of its own. -/
theorem trans_nil (h1 : Extends e e' ts) (h2 : Extends e' e'' []) : Extends e e'' ts := by
  simpa using h1.trans h2

end Extends

/-! ### Transitions -/

@[simp] theorem page_publishPage (e : FileEntry) (pg : Nat) (crc : UInt32) (i : Nat) :
    (e.publishPage pg crc).meta_.page i = if i = pg then (true, crc) else e.meta_.page i := by
  by_cases h : i = pg <;> simp [FileEntry.publishPage, MetaData.page, h]

@[simp] theorem page_retractPage (e : FileEntry) (pg : Nat) (i : Nat) :
    (e.retractPage pg).meta_.page i = if i = pg then (false, 0) else e.meta_.page i := by
  by_cases h : i = pg <;> simp [FileEntry.retractPage, MetaData.page, h]

theorem Tracks.publishPage (h : Tracks n e since) (pg : Nat) (crc : UInt32) :
    Tracks n (e.publishPage pg crc) (since ++ [.publish pg crc]) where
  set_iff i hi := by
    by_cases hp : i = pg
    · simp [FileEntry.publishPage, lastPage, Transition.page, hp]
    · simpa [FileEntry.publishPage, lastPage, Transition.page, hp] using h.set_iff i hi
  cleared_iff i hi := by
    by_cases hp : i = pg
    · simp [FileEntry.publishPage, lastPage, Transition.page, hp]
    · simpa [FileEntry.publishPage, lastPage, Transition.page, hp] using h.cleared_iff i hi
  page i hi x hx := by
    by_cases hp : i = pg
    · simp_all [lastPage, Transition.page]
    · simp only [page_publishPage, hp, if_false]
      exact h.page i hi x (by simpa [lastPage, Transition.page, hp] using hx)
  pin_iff := by simpa [FileEntry.publishPage, lastPin, Transition.pinned] using h.pin_iff
  pin p hp := h.pin p (by simpa [lastPin, Transition.pinned] using hp)

theorem Tracks.retractPage (h : Tracks n e since) (pg : Nat) :
    Tracks n (e.retractPage pg) (since ++ [.retract pg]) where
  set_iff i hi := by
    by_cases hp : i = pg
    · simp [FileEntry.retractPage, lastPage, Transition.page, hp]
    · simpa [FileEntry.retractPage, lastPage, Transition.page, hp] using h.set_iff i hi
  cleared_iff i hi := by
    by_cases hp : i = pg
    · simp [FileEntry.retractPage, lastPage, Transition.page, hp]
    · simpa [FileEntry.retractPage, lastPage, Transition.page, hp] using h.cleared_iff i hi
  page i hi x hx := by
    by_cases hp : i = pg
    · simp_all [lastPage, Transition.page]
    · simp only [page_retractPage, hp, if_false]
      exact h.page i hi x (by simpa [lastPage, Transition.page, hp] using hx)
  pin_iff := by simpa [FileEntry.retractPage, lastPin, Transition.pinned] using h.pin_iff
  pin p hp := h.pin p (by simpa [lastPin, Transition.pinned] using hp)

theorem Tracks.setPinned (h : Tracks n e since) (p : Bool) :
    Tracks n (e.setPinned p) (since ++ [.pin p]) where
  set_iff i hi := by simpa [FileEntry.setPinned, lastPage, Transition.page] using h.set_iff i hi
  cleared_iff i hi := by
    simpa [FileEntry.setPinned, lastPage, Transition.page] using h.cleared_iff i hi
  page i hi x hx := h.page i hi x (by simpa [lastPage, Transition.page] using hx)
  pin_iff := by simp [FileEntry.setPinned, lastPin, Transition.pinned]
  pin q hq := by simpa [FileEntry.setPinned, lastPin, Transition.pinned] using hq

theorem extends_publishPage (e : FileEntry) (pg : Nat) (crc : UInt32) :
    Extends e (e.publishPage pg crc) [.publish pg crc] where
  trace := rfl
  page i := by
    by_cases hi : i = pg <;> simp [lastPage, lastFor, Transition.page, hi]
  pinned := rfl
  tracks h := h.publishPage pg crc
  setSince i := by
    by_cases hi : i = pg <;> simp [FileEntry.publishPage, lastPage, lastFor, Transition.page, hi]
  validators := rfl
  pageSize := rfl
  metaKey := rfl
  ncrcs := rfl
  cfg := rfl
  key := rfl

theorem extends_retractPage (e : FileEntry) (pg : Nat) :
    Extends e (e.retractPage pg) [.retract pg] where
  trace := rfl
  page i := by
    by_cases hi : i = pg <;> simp [lastPage, lastFor, Transition.page, hi]
  pinned := rfl
  tracks h := h.retractPage pg
  setSince i := by
    by_cases hi : i = pg <;> simp [FileEntry.retractPage, lastPage, lastFor, Transition.page, hi]
  validators := rfl
  pageSize := rfl
  metaKey := rfl
  ncrcs := rfl
  cfg := rfl
  key := rfl

theorem extends_setPinned (e : FileEntry) (p : Bool) : Extends e (e.setPinned p) [.pin p] where
  trace := rfl
  page _ := rfl
  pinned := rfl
  tracks h := h.setPinned p
  setSince _ := rfl
  validators := rfl
  pageSize := rfl
  metaKey := rfl
  ncrcs := rfl
  cfg := rfl
  key := rfl

/-! ### The commit -/

/-- The snapshot moves the description from the handle to the commit. -/
theorem Tracks.flushMetaBegin (h : Tracks n e since) :
    Tracks n e.flushMetaBegin.1 [] ∧ Carries n e.flushMetaBegin.2 since := by
  constructor
  · constructor <;> simp [FileEntry.flushMetaBegin]
  · exact ⟨h.set_iff, h.cleared_iff, h.page, h.pin_iff, h.pin⟩

/-- A store that failed: the handle describes both logs again, the newer one winning. -/
theorem Tracks.flushMetaFailed (h : Tracks n e since) (hf : Carries n f seg)
    (hn : e.meta_.npages = n)
    (hmeta : ∀ i < n, lastPage since i = none → ∀ x, lastPage seg i = some x →
      e.meta_.page i = x)
    (hpin : lastPin since = none → ∀ p, lastPin seg = some p → e.meta_.pinned = p) :
    Tracks n (e.flushMetaFailed f) (seg ++ since) := by
  have hset : ∀ i < n, (e.flushMetaFailed f).setSince.get i = true ↔
      ∃ c, lastPage (seg ++ since) i = some (true, c) := by
    intro i hi
    simp only [FileEntry.flushMetaFailed, PageBitmap.get_updateRange, hn, hi, if_true,
      lastPage_append]
    cases hs : lastPage since i with
    | none =>
        have h1 : e.setSince.get i = false := by
          simpa [hs] using h.set_iff i hi
        have h2 : e.clearedSince.get i = false := by
          simpa [hs] using h.cleared_iff i hi
        have h3 := hf.set_iff i hi
        by_cases hsets : f.sets.get i = true
        · simpa [h1, h2, hsets] using h3
        · simpa [h1, h2, hsets] using h3
    | some x =>
        obtain ⟨b, c⟩ := x
        cases b with
        | true =>
            have h1 : e.setSince.get i = true := (h.set_iff i hi).2 ⟨c, hs⟩
            by_cases hg : (f.sets.get i && !e.clearedSince.get i) = true <;> simp [hg, h1]
        | false =>
            have hc : c = 0 := lastPage_false hs
            have h2 : e.clearedSince.get i = true := (h.cleared_iff i hi).2 (hc ▸ hs)
            have h1 : e.setSince.get i = false := by
              simpa [hs] using h.set_iff i hi
            simp [h1, h2]
  refine ⟨hset, ?_, ?_, ?_, ?_⟩
  · intro i hi
    have hset' := hset i hi
    simp only [FileEntry.flushMetaFailed, PageBitmap.get_updateRange, hn, hi, if_true] at hset' ⊢
    rw [lastPage_append] at hset' ⊢
    -- A clear is re-armed exactly where the page is not pending as set, the re-armed sets included.
    generalize (if (f.sets.get i && !e.clearedSince.get i) = true then some true else none).getD
      (e.setSince.get i) = b at hset' ⊢
    cases hs : lastPage since i with
    | none =>
        have h2 : e.clearedSince.get i = false := by
          simpa [hs] using h.cleared_iff i hi
        have h3 := hf.clear_iff i hi
        cases hseg : lastPage seg i with
        | none => simp_all
        | some x =>
            obtain ⟨v, c⟩ := x
            cases v with
            | true => simp_all
            | false =>
                have hc : c = 0 := lastPage_false hseg
                simp_all
    | some x =>
        obtain ⟨v, c⟩ := x
        cases v with
        | true =>
            have h2 : e.clearedSince.get i = false := by
              simpa [hs] using h.cleared_iff i hi
            simp_all
        | false =>
            have hc : c = 0 := lastPage_false hs
            have h2 : e.clearedSince.get i = true := (h.cleared_iff i hi).2 (hc ▸ hs)
            subst hc
            by_cases hg : (f.clears.get i && !b) = true <;> simp [hg, h2]
  · intro i hi x hx
    rw [lastPage_append] at hx
    change e.meta_.page i = x
    cases hs : lastPage since i with
    | none => exact hmeta i hi hs x (by simpa [hs] using hx)
    | some y => exact h.page i hi x (by simpa [hs] using hx)
  · rw [lastPin_append]
    have h1 := h.pin_iff
    have h2 := hf.pin_iff
    simp only [FileEntry.flushMetaFailed, Bool.or_eq_true, h1, h2]
    cases lastPin since <;> simp
  · intro p hp
    rw [lastPin_append] at hp
    change e.meta_.pinned = p
    cases hs : lastPin since with
    | none => exact hpin hs p (by simpa [hs] using hp)
    | some q => exact h.pin p (by simpa [hs] using hp)

/-- The image a commit stores: the handle's own view, or the merge with a sidecar of the same
geometry that the handle would adopt. -/
theorem MetaFlush.image_cases (f : MetaFlush) (cfg : Config) (key : Bytes)
    (sidecar : Option MetaData) :
    f.image cfg key sidecar = (f.snapshot, false) ∨
      ∃ m d, sidecar = some m ∧ f.image cfg key sidecar = (f.merge d, true) ∧
        (∀ i, d.page i = m.page i) ∧ d.validators = m.validators ∧
        d.pageSize = f.snapshot.pageSize ∧ d.npages = f.snapshot.npages ∧
        adoptable d cfg key f.snapshot.validators = true := by
  unfold MetaFlush.image
  cases hload : MetaFile.load sidecar with
  | none => exact Or.inl rfl
  | some d =>
      simp only
      split
      · rename_i hguard
        obtain ⟨hps, hadopt⟩ := hguard
        obtain ⟨m, hm, -, hd⟩ := MetaFile.load_eq_some hload
        have hfs : d.fileSize = f.snapshot.fileSize := by
          simp only [adoptable, Bool.and_eq_true, decide_eq_true_eq] at hadopt
          exact hadopt.1.1.1.1.2
        refine Or.inr ⟨m, d, hm, rfl, ?_, ?_, hps, ?_, hadopt⟩
        · rw [hd]
          exact fun _ => rfl
        · rw [hd]
          rfl
        · simp [MetaData.npages, hps, hfs]
      · exact Or.inl rfl

/-- The merge applies the described log to the image on disk. -/
theorem Carries.page_merge (hf : Carries n f seg) {disk : MetaData} (hn : disk.npages = n)
    (hi : i < n) : (f.merge disk).page i = (lastPage seg i).getD (disk.page i) := by
  have hset := hf.set_iff i hi
  have hclear := hf.clear_iff i hi
  simp only [MetaFlush.merge, MetaData.page, PageBitmap.get_updateRange, hn, hi, if_true]
  cases hs : lastPage seg i with
  | none =>
      have h1 : f.sets.get i = false := by simpa [hs] using hset
      have h2 : f.clears.get i = false := by simpa [hs] using hclear
      simp [h1, h2]
  | some x =>
      obtain ⟨v, c⟩ := x
      cases v with
      | true =>
          have h1 : f.sets.get i = true := hset.2 ⟨c, hs⟩
          have h2 : f.clears.get i = false := by simpa [hs] using hclear
          have hpage := hf.page i hi _ hs
          simp only [MetaData.page, Prod.mk.injEq] at hpage
          simp [h1, h2, hpage.2]
      | false =>
          have hc : c = 0 := lastPage_false hs
          have h2 : f.clears.get i = true := hclear.2 (hc ▸ hs)
          simp [h2, hc]

theorem Carries.pinned_merge (hf : Carries n f seg) (disk : MetaData) :
    (f.merge disk).pinned = (lastPin seg).getD disk.pinned := by
  have h := hf.pin_iff
  cases hs : lastPin seg with
  | none =>
      have hp : f.pinTouched = false := by simpa [hs] using h
      simp [MetaFlush.merge, hp]
  | some p =>
      have hp : f.pinTouched = true := by simpa [hs] using h
      simp [MetaFlush.merge, hp, hf.pin p hs]

/-- Presence of a page, with its CRC where it is present. -/
def MetaData.seen (m : MetaData) (i : Nat) : Bool × UInt32 :=
  if m.bitmap.get i then (true, m.pageCrcs i) else (false, 0)

/-- Adopting an image: a page touched since the snapshot keeps its state, every other page takes
the state on disk, an absent one with CRC zero. -/
theorem Tracks.page_adopt (h : Tracks n e since) (hn : e.meta_.npages = n) (out : MetaData)
    (hi : i < n) : (e.flushMetaAdopt out).meta_.page i = (lastPage since i).getD (out.seen i) := by
  have hset := h.set_iff i hi
  have hclear := h.cleared_iff i hi
  simp only [FileEntry.flushMetaAdopt, MetaData.page, MetaData.seen, PageBitmap.get_updateRange,
    hn, hi, if_true]
  cases hs : lastPage since i with
  | none =>
      have h1 : e.setSince.get i = false := by simpa [hs] using hset
      have h2 : e.clearedSince.get i = false := by simpa [hs] using hclear
      cases hb : out.bitmap.get i <;> simp [h1, h2]
  | some x =>
      have hor : (e.setSince.get i || e.clearedSince.get i) = true := by
        obtain ⟨v, c⟩ := x
        cases v with
        | true => simp [hset.2 ⟨c, hs⟩]
        | false => simp [hclear.2 (lastPage_false hs ▸ hs)]
      have hpage := h.page i hi x hs
      simp only [hor, if_true, Option.getD_none, Option.getD_some]
      exact hpage

theorem Tracks.pinned_adopt (h : Tracks n e since) (out : MetaData) :
    (e.flushMetaAdopt out).meta_.pinned = (lastPin since).getD out.pinned := by
  have hp := h.pin_iff
  cases hs : lastPin since with
  | none =>
      have hf : e.pinTouched = false := by simpa [hs] using hp
      simp [FileEntry.flushMetaAdopt, hf]
  | some p =>
      have ht : e.pinTouched = true := by simpa [hs] using hp
      simp [FileEntry.flushMetaAdopt, ht, h.pin p hs]

/-- Adopting keeps the description. -/
theorem Tracks.flushMetaAdopt (h : Tracks n e since) (hn : e.meta_.npages = n) (out : MetaData) :
    Tracks n (e.flushMetaAdopt out) since where
  set_iff := h.set_iff
  cleared_iff := h.cleared_iff
  page i hi x hx := by rw [h.page_adopt hn out hi, hx]; rfl
  pin_iff := h.pin_iff
  pin p hp := by rw [h.pinned_adopt, hp]; rfl

/-! ### What a reader sees -/

theorem MetaData.seen_of_page {m : MetaData} {x : Bool × UInt32} (h : m.page i = x)
    (hx : x.1 = false → x.2 = 0) : m.seen i = x := by
  subst h
  cases hb : m.bitmap.get i with
  | true => simp [MetaData.seen, MetaData.page, hb]
  | false =>
      have hc : m.pageCrcs i = 0 := hx hb
      simp [MetaData.seen, MetaData.page, hb, hc]

theorem MetaData.seen_congr {m m' : MetaData} (h : m'.page i = m.page i) :
    m'.seen i = m.seen i := by
  simp only [MetaData.page, Prod.mk.injEq] at h
  simp [MetaData.seen, h.1, h.2]

/-- A page that takes the state a log gives it, over another's, is seen that way too. -/
theorem MetaData.seen_of_log {m m' : MetaData} (h : m'.page i = (lastPage ts i).getD (m.page i)) :
    m'.seen i = (lastPage ts i).getD (m.seen i) := by
  cases hl : lastPage ts i with
  | none => exact MetaData.seen_congr (by simpa [hl] using h)
  | some x =>
      obtain ⟨v, c⟩ := x
      refine MetaData.seen_of_page (by simpa [hl] using h) ?_
      intro hv
      have hv' : v = false := hv
      subst hv'
      exact lastPage_false hl

theorem Extends.seen (h : Extends e e' ts) (i : Nat) :
    e'.meta_.seen i = (lastPage ts i).getD (e.meta_.seen i) :=
  MetaData.seen_of_log (h.page i)

theorem Carries.seen_merge (hf : Carries n f seg) {disk : MetaData} (hn : disk.npages = n)
    (hi : i < n) : (f.merge disk).seen i = (lastPage seg i).getD (disk.seen i) :=
  MetaData.seen_of_log (hf.page_merge hn hi)

theorem Tracks.seen_adopt (h : Tracks n e since) (hn : e.meta_.npages = n) (out : MetaData)
    (hi : i < n) : (e.flushMetaAdopt out).meta_.seen i = (lastPage since i).getD (out.seen i) := by
  refine MetaData.seen_of_page (h.page_adopt hn out hi) ?_
  cases hl : lastPage since i with
  | none => cases hb : out.bitmap.get i <;> simp [MetaData.seen, hb]
  | some x =>
      obtain ⟨v, c⟩ := x
      intro hv
      have hv' : v = false := hv
      subst hv'
      exact lastPage_false hl

end UCache
