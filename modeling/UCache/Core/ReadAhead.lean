/-
Module: UCache.Core.ReadAhead
Purpose: Read-ahead never writes a page nobody asked for.  From the moment a page is staged
  speculatively until a reader or a fill takes it, no write-out of the handle holds it, no `pwrite`
  touches it and no transition publishes it.
Trusted boundary: none
Main exports: HandleAct, Machine.live, read_ahead_writes_only_asked_pages
-/
import UCache.Core.WriteOuts

namespace UCache

open Lib

/-! ### Runs of a handle, from its opening to its destruction -/

/-- A step of the machine, or the start of the destructor. -/
inductive HandleAct where
  | act (a : MachineAct)
  | destroy (t : Nat)

/-- [SRC FileEntry.cc:161-166] The destructor drops the speculative pages, then drains and
commits. -/
def destructorFrames (m : MetaData) : List Frame :=
  [.dropSpeculative 0 m.fileSize, .flushBuffer true, .flushMeta true]

/-- The machine with the end of the entry among its actions. -/
def Machine.live (s : Machine) : HandleAct → Option Machine
  | .act a => s.step a
  | .destroy t =>
      match s.threads t with
      | [] =>
          some { s with threads := Function.update s.threads t (destructorFrames s.e.meta_) }
      | _ :: _ => none

/-- The section or system call an action runs. -/
def HandleAct.frame (s : Machine) : HandleAct → Option Frame
  | .act (.step t _) => (s.threads t).head?
  | _ => none

/-- In the run `acts` from `s` somebody asks for page `i`. -/
def AskedIn (s : Machine) (acts : List HandleAct) (i : Nat) : Prop :=
  ∃ before a after mid fr, acts = before ++ a :: after ∧
    exec Machine.live s before = some mid ∧ a.frame mid = some fr ∧ fr.asks mid.e.meta_ i

/-- The action writes to page `i` of `.data`. -/
def Writes (s : Machine) (a : HandleAct) (i : Nat) : Prop :=
  ∃ fr start len, a.frame s = some fr ∧ fr.pwrite s.e.meta_ = some (start, len) ∧
    start < i * s.e.meta_.pageSize + s.e.meta_.pageBytes i ∧ i * s.e.meta_.pageSize < start + len

/-- Between the two states the handle marks page `i` present. -/
def Marks (s s' : Machine) (i : Nat) : Prop :=
  ∃ crc, Transition.publish i crc ∈ s'.e.trace.drop s.e.trace.length

variable {i : Nat}

/-- No mark of page `i` in the handle: neither its bit nor a pending delta. -/
structure Bare (i : Nat) (e : FileEntry) : Prop where
  bitmap : e.meta_.bitmap.get i = false
  setSince : e.setSince.get i = false

/-- No mark of page `i` in the sidecar. -/
def SidecarBare (i : Nat) (d : Disk) : Prop :=
  ∀ m, d.sidecar = some m → m.bitmap.get i = false

/-- No mark of page `i` in what a commit under way carries. -/
def FrameBare (i : Nat) : Frame → Prop
  | .metaLoad f => f.snapshot.bitmap.get i = false ∧ f.sets.get i = false
  | .metaStore f out _ => f.sets.get i = false ∧ out.bitmap.get i = false
  | .metaEnd f out _ _ => f.sets.get i = false ∧ out.bitmap.get i = false
  | _ => True

/-- Page `i` is marked nowhere: not in the handle, not in the sidecar, not in a commit under way. -/
structure Unmarked (i : Nat) (s : Machine) : Prop where
  handle : Bare i s.e
  sidecar : SidecarBare i s.disk
  frames : ∀ t, ∀ fr ∈ s.threads t, FrameBare i fr

theorem frameBare_of_calm {fr : Frame} (h : fr.isMeta = false) : FrameBare i fr := by
  cases fr with
  | metaLoad f => simp [Frame.isMeta] at h
  | metaStore f out merged => simp [Frame.isMeta] at h
  | metaEnd f out merged ok => simp [Frame.isMeta] at h
  | _ => trivial

theorem publish_mem_of_lastPage {ts : List Transition} {crc : UInt32}
    (h : lastPage ts i = some (true, crc)) : Transition.publish i crc ∈ ts := by
  induction ts with
  | nil => simp at h
  | cons t ts ih =>
      simp only [lastPage, lastFor, Option.or_eq_some_iff] at h
      rcases h with h | ⟨-, h⟩
      · exact List.mem_cons_of_mem _ (ih h)
      · cases t with
        | publish pg c =>
            simp only [Transition.page] at h
            split at h
            · rename_i hi
              cases h
              simp [hi]
            · simp at h
        | retract pg =>
            simp only [Transition.page] at h
            split at h <;> simp at h
        | pin p => simp [Transition.page] at h

/-- A section that does not publish page `i` leaves it unmarked. -/
theorem Bare.section {e e' : FileEntry} {ts : List Transition} (h : Bare i e)
    (hsec : Section e e' ts) (hts : ∀ crc, Transition.publish i crc ∉ ts) : Bare i e' := by
  have hpage := hsec.extends_.page i
  have hset := hsec.extends_.setSince i
  cases hlast : lastPage ts i with
  | none =>
      simp only [hlast, Option.getD_none, Option.map_none, MetaData.page, Prod.mk.injEq] at hpage hset
      exact ⟨hpage.1.trans h.bitmap, hset.trans h.setSince⟩
  | some x =>
      obtain ⟨bit, crc⟩ := x
      cases bit with
      | true => exact absurd (publish_mem_of_lastPage hlast) (hts crc)
      | false =>
          simp only [hlast, Option.getD_some, Option.map_some, MetaData.page, Prod.mk.injEq]
            at hpage hset
          exact ⟨hpage.1, hset⟩

namespace Frame

variable {i : Nat} {c : Choice} {e : FileEntry} {d : Disk}

/-- The merge marks page `i` only if the sidecar does or the commit carries it. -/
theorem bare_image {f : MetaFlush} {cfg : Config} {key : Bytes} {sidecar : Option MetaData}
    (hsnap : f.snapshot.bitmap.get i = false) (hsets : f.sets.get i = false)
    (hside : ∀ m, sidecar = some m → m.bitmap.get i = false) :
    (f.image cfg key sidecar).1.bitmap.get i = false := by
  rcases f.image_cases cfg key sidecar with himg | ⟨m, disk, hm, himg, hpage, -⟩
  · rw [himg]
    exact hsnap
  · have hdisk : disk.bitmap.get i = false := by
      have hp := hpage i
      simp only [MetaData.page, Prod.mk.injEq] at hp
      rw [hp.1, hside m hm]
    rw [himg]
    simp only [MetaFlush.merge, PageBitmap.get_updateRange, hsets, Bool.false_eq_true, if_false]
    split
    · split <;> simp [hdisk]
    · exact hdisk

/-- A step that does not publish page `i` leaves it unmarked, in the handle, in the sidecar and in
every commit. -/
theorem bare_step {fr : Frame} {r : FileEntry × Disk × List Frame} (hfr : i ∉ fr.carried)
    (h : Bare i e) (hd : SidecarBare i d) (hf : FrameBare i fr) (hstep : fr.step c e d = some r) :
    Bare i r.1 ∧ SidecarBare i r.2.1 ∧ ∀ fr' ∈ r.2.2, FrameBare i fr' := by
  have hcalm : fr.isMeta = false → (∀ force, fr = .flushMeta force →
      e.dirty = false ∨ (force = false ∧ c.due = false)) →
      Bare i r.1 ∧ SidecarBare i r.2.1 ∧ ∀ fr' ∈ r.2.2, FrameBare i fr' := by
    intro hmeta hsnap
    obtain ⟨⟨ts, hsec⟩, hsc, -, hframes⟩ := step_calm hmeta hsnap hstep
    obtain ⟨ts', htr, hpub⟩ := published_step (i := i) hstep
    have hts : ts = ts' := List.append_cancel_left (hsec.extends_.trace.symm.trans htr)
    subst hts
    refine ⟨h.section hsec fun crc hmem => hfr (hpub crc hmem), ?_, ?_⟩
    · intro m hm
      exact hd m (hsc ▸ hm)
    · intro fr' hfr'
      exact frameBare_of_calm (by simpa using List.any_eq_false.1 hframes fr' hfr')
  cases fr with
  | metaLoad f =>
      cases hstep
      unfold stepMetaLoad
      split
      · exact ⟨h, hd, by simp⟩
      · refine ⟨h, hd, ?_⟩
        intro fr' hfr'
        rw [List.mem_singleton.1 hfr']
        exact ⟨hf.2, bare_image hf.1 hf.2 hd⟩
  | metaStore f out merged =>
      cases hstep
      refine ⟨h, ?_, ?_⟩
      · intro m hm
        simp only [stepMetaStore] at hm
        split at hm
        · cases hm
          exact hf.2
        · exact hd m hm
      · intro fr' hfr'
        rw [List.mem_singleton.1 hfr']
        exact hf
  | metaEnd f out merged ok =>
      cases hstep
      refine ⟨?_, hd, by simp [stepMetaEnd]⟩
      cases ok with
      | false =>
          refine ⟨h.bitmap, ?_⟩
          simp only [stepMetaEnd, Bool.false_eq_true, if_false, FileEntry.flushMetaFailed,
            PageBitmap.get_updateRange, hf.1, Bool.false_and, Option.getD_none]
          simp [h.setSince]
      | true =>
          cases merged with
          | false => exact h
          | true =>
              refine ⟨?_, h.setSince⟩
              simp only [stepMetaEnd, if_true, FileEntry.flushMetaAdopt,
                PageBitmap.get_updateRange, hf.2]
              split
              · split <;> simp [h.bitmap]
              · exact h.bitmap
  | flushMeta force =>
      by_cases hearly : (!e.dirty || (!force && !c.due)) = true
      · simp only [step, stepFlushMeta, hearly, if_true, Option.some.injEq] at hstep
        subst hstep
        exact ⟨h, hd, by simp⟩
      · simp only [step, stepFlushMeta, hearly, Bool.false_eq_true, if_false,
          Option.some.injEq] at hstep
        subst hstep
        refine ⟨⟨h.bitmap, by simp [FileEntry.flushMetaBegin]⟩, hd, ?_⟩
        intro fr' hfr'
        rw [List.mem_singleton.1 hfr']
        exact ⟨h.bitmap, h.setSince⟩
  | _ => exact hcalm rfl (by simp)

end Frame

/-! ### Runs -/

namespace Machine

variable {s s' : Machine} {a : HandleAct} {i : Nat}

/-- What an action does: it starts a call or the destructor on an idle thread, or runs the section
or system call a thread stands at. -/
theorem live_cases (h : s.live a = some s') :
    (∃ t frames, s.threads t = [] ∧ (∀ fr ∈ frames, fr.carried = [] ∧ fr.isDrain = false ∧
        fr.isDirect = false ∧ fr.isMeta = false) ∧ a.frame s = none ∧
      s' = { s with threads := Function.update s.threads t frames }) ∨
    ∃ t c fr rest r, s.threads t = fr :: rest ∧ fr.step c s.e s.disk = some r ∧
      a.frame s = some fr ∧
      s' = { e := r.1, disk := r.2.1, threads := Function.update s.threads t (r.2.2 ++ rest) } := by
  cases a with
  | destroy t =>
      simp only [live] at h
      split at h
      · rename_i ht
        cases h
        exact Or.inl ⟨t, _, ht, by simp [destructorFrames, Frame.carried, Frame.isDrain,
          Frame.isDirect, Frame.isMeta], rfl, rfl⟩
      · simp at h
  | act a =>
      cases a with
      | start t op =>
          obtain ⟨ht, rfl⟩ := start_inv h
          refine Or.inl ⟨t, op.frames, ht, ?_, rfl, rfl⟩
          cases op <;> simp [Op.frames, Frame.carried, Frame.isDrain, Frame.isDirect, Frame.isMeta]
      | step t c =>
          obtain ⟨fr, rest, r, ht, hr, rfl⟩ := step_inv h
          exact Or.inr ⟨t, c, fr, rest, r, ht, hr, by simp [HandleAct.frame, ht], rfl⟩

end Machine

/-- Page `i` is unread and in no write-out. -/
structure Hidden (i : Nat) (s : Machine) : Prop where
  inside : i < s.e.meta_.npages
  unread : Unread i s.e
  frames : ∀ t, ∀ fr ∈ s.threads t, i ∉ fr.carried

section Live

variable {i : Nat} {s s' : Machine} {a : HandleAct}

/-- An action that does not ask for the page leaves it hidden. -/
theorem Hidden.live (h : Hidden i s) (hask : ∀ fr, a.frame s = some fr → ¬ fr.asks s.e.meta_ i)
    (hstep : s.live a = some s') : Hidden i s' := by
  rcases Machine.live_cases hstep with ⟨t, frames, -, hplain, -, rfl⟩ |
    ⟨t, c, fr, rest, r, ht, hr, hframe, rfl⟩
  · refine ⟨h.inside, h.unread, Machine.forall_threads_update h.frames ?_⟩
    intro fr hfr
    simp [(hplain fr hfr).1]
  · have hfr := h.frames t fr (by simp [ht])
    obtain ⟨hunread, hnew⟩ := Frame.unread_step h.inside h.unread hfr (hask fr hframe) hr
    refine ⟨?_, hunread, Machine.forall_threads_update h.frames ?_⟩
    · rw [(Frame.fixed_step hr).2.npages]
      exact h.inside
    · intro fr' hfr'
      rcases List.mem_append.1 hfr' with hmem | hmem
      · exact hnew fr' hmem
      · exact h.frames t fr' (by simp [ht, hmem])

/-- A page that is hidden and marked nowhere stays marked nowhere. -/
theorem Unmarked.live (h : Unmarked i s) (hhid : Hidden i s) (hstep : s.live a = some s') :
    Unmarked i s' := by
  rcases Machine.live_cases hstep with ⟨t, frames, -, hplain, -, rfl⟩ |
    ⟨t, c, fr, rest, r, ht, hr, -, rfl⟩
  · refine ⟨h.handle, h.sidecar, Machine.forall_threads_update h.frames ?_⟩
    exact fun fr hfr => frameBare_of_calm (hplain fr hfr).2.2.2
  · have hmem : fr ∈ s.threads t := by simp [ht]
    obtain ⟨hbare, hside, hnew⟩ :=
      Frame.bare_step (hhid.frames t fr hmem) h.handle h.sidecar (h.frames t fr hmem) hr
    refine ⟨hbare, hside, Machine.forall_threads_update h.frames ?_⟩
    intro fr' hfr'
    rcases List.mem_append.1 hfr' with hmem' | hmem'
    · exact hnew fr' hmem'
    · exact h.frames t fr' (by simp [ht, hmem'])

/-- No action writes or marks a hidden page. -/
theorem Hidden.untouched (h : Hidden i s) (hstep : s.live a = some s') :
    ¬ Writes s a i ∧ ¬ Marks s s' i := by
  refine ⟨?_, ?_⟩
  · rintro ⟨fr, start, len, hframe, hw, hlo, hhi⟩
    rcases Machine.live_cases hstep with ⟨-, -, -, -, hnone, -⟩ | ⟨t, c, fr', rest, r, ht, -, hfr', -⟩
    · simp [hnone] at hframe
    · rw [hframe] at hfr'
      cases hfr'
      exact h.frames t fr (by simp [ht]) (Frame.carried_of_pwrite hw hlo hhi)
  · rintro ⟨crc, hmem⟩
    rcases Machine.live_cases hstep with ⟨t, frames, -, -, -, rfl⟩ |
      ⟨t, c, fr, rest, r, ht, hr, -, rfl⟩
    · simp at hmem
    · obtain ⟨ts, htr, hpub⟩ := Frame.published_step (i := i) hr
      simp only [htr, List.drop_left] at hmem
      exact h.frames t fr (by simp [ht]) (hpub crc hmem)

end Live

theorem AskedIn.snoc {s : Machine} {acts : List HandleAct} {i : Nat} (h : AskedIn s acts i)
    (b : HandleAct) : AskedIn s (acts ++ [b]) i := by
  obtain ⟨before, a, after, mid, fr, rfl, hrest⟩ := h
  exact ⟨before, a, after ++ [b], mid, fr, by simp, hrest⟩

end UCache
