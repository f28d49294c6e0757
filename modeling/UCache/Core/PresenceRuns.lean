/-
Module: UCache.Core.PresenceRuns
Purpose: Runs of one key.  Whatever handles in whatever processes open, write, flush, demote,
  release and pin, every sidecar stored and every handle in use counts its pages right, reports the
  bytes of its present pages, and is marked complete just when all are present.
Trusted boundary: none
Main exports: KeyAct, World.keyStep, presence_bookkeeping_holds
-/
import UCache.Core.BitAccesses
import UCache.Core.Integrity

namespace UCache

open Lib SidecarCodec

/-! ### Runs of one key -/

/-- [SRC CacheStore.cc:817-843] The pin of an entry that no handle of the process has open: the flag
alone is rewritten in the sidecar. -/
def World.setPinnedByKey (w : World) (pinned ok : Bool) : World :=
  match w.path, MetaFile.load w.sidecar with
  | some _, some m => if ok then w.store { m with pinned := pinned } else w
  | _, _ => w

/-- What can happen to a key: a step of a handle, an eviction or a crash, or that pin. -/
inductive KeyAct where
  | entry (a : WorldAct)
  | setPinnedByKey (pinned ok : Bool)

/-- The world with pinning by key among its actions. -/
def World.keyStep (w : World) : KeyAct → Option World
  | .entry a => w.step a
  | .setPinnedByKey pinned ok => some (w.setPinnedByKey pinned ok)

/-- What a run is promised: a page size that the configuration accepts, and that `ftruncate` fails
for a length that is no `off_t`. -/
structure Promised (w : World) (a : KeyAct) : Prop where
  pageSize : ∀ h cfg v, a = .entry (.openEntry h cfg v) →
    Config.validPageSize cfg.pageSize = true
  length : ∀ h c, a = .entry (.openStep h c) → c.ok = true →
    ∀ cfg v ino, w.slots h = .opening cfg v ino .grow → v.originSize < 2 ^ 63

/-! ### What holds in every state -/

/-- What a sidecar value says of its pages agrees: the count, the bytes and the flag. -/
structure MetaData.Agrees (m : MetaData) : Prop where
  bitmap : m.bitmap.Counted m.npages
  cachedBytes : m.cachedBytes = m.presentBytes
  complete : m.complete = true ↔ 0 < m.npages ∧ ∀ i < m.npages, m.bitmap.get i = true

theorem MetaData.Consistent.agrees {m : MetaData} (h : m.Consistent) : m.Agrees :=
  ⟨h.bitmap, h.cachedBytes_eq, h.complete⟩

/-- The bytes a load copies out of the stored image and counts anew are those of the bitmap. -/
theorem MetaData.Consistent.reloads {m : MetaData} (h : m.Consistent) :
    ∃ raw, RawBitmap.recount ⟨MetaFile.bitmapSection m, m.npages, 0⟩ = .ok raw ∧
      raw.Shows m.bitmap := by
  have hshows := RawBitmap.Shows.stored m.bitmap
  have hcount := hshows.recount h.bitmap 0
  rw [h.bitmap.npages] at hshows hcount
  exact ⟨_, hcount, hshows⟩

def SlotFlags : Slot → Prop
  | .closed => True
  | .opening cfg v _ phase =>
      Config.validPageSize cfg.pageSize = true ∧ (phase = .store → v.originSize < 2 ^ 63)
  | .live _ _ e threads => ∃ n, FlagsOk n e ∧ ∀ t, ∀ fr ∈ threads t, fr.Within n

/-- Every sidecar there has been is consistent, and so is every handle. -/
structure WorldFlags (w : World) : Prop where
  sidecar : ∀ m, w.sidecar = some m → m.Consistent
  stored : ∀ m ∈ w.stored, m.Consistent
  slots : ∀ h, SlotFlags (w.slots h)

section Runs

variable {w w' : World}

theorem WorldFlags.update (hw : WorldFlags w) {h : Nat} {slot : Slot}
    (hslots : w'.slots = Function.update w.slots h slot) (hslot : SlotFlags slot)
    (hside : ∀ m, w'.sidecar = some m → m.Consistent)
    (hstored : ∀ m ∈ w'.stored, m.Consistent) : WorldFlags w' := by
  refine ⟨hside, hstored, ?_⟩
  intro h'
  rw [hslots]
  by_cases hh : h' = h
  · subst hh
    rw [Function.update_self]
    exact hslot
  · rw [Function.update_of_ne hh]
    exact hw.slots h'

/-- A store of a consistent value. -/
theorem WorldFlags.store (hw : WorldFlags w) {m : MetaData} (hm : m.Consistent) :
    WorldFlags (w.store m) := by
  refine ⟨?_, ?_, hw.slots⟩
  · rintro m' ⟨⟩
    exact hm
  · intro m' hm'
    rcases List.mem_cons.1 hm' with rfl | hm'
    · exact hm
    · exact hw.stored m' hm'

/-- A handle that adopts the sidecar. -/
theorem slotFlags_adopt (hw : WorldFlags w) {cfg : Config} {v : Validators} {ino : Nat}
    {e : FileEntry} (hadopt : FileEntry.openAdopt cfg w.key v w.sidecar = some e) :
    SlotFlags (.live v ino e fun _ => []) := by
  obtain ⟨m, hload, hm⟩ := Option.bind_eq_some_iff.1 hadopt
  split at hm
  · cases hm
    obtain ⟨m', hm', -, -⟩ := MetaFile.load_eq_some hload
    have hcons := hw.sidecar m' hm'
    rw [hm'] at hload
    have hsame := hcons.load hload
    subst hsame
    exact ⟨_, FlagsOk.ofMeta hcons cfg w.key false, by simp⟩
  · cases hm

theorem worldFlags_openNext (hw : WorldFlags w) {h : Nat} {c : Choice} {cfg : Config}
    {v : Validators} {ino : Nat} {phase : OpenPhase} (hslot : w.slots h = .opening cfg v ino phase)
    (hlength : phase = .grow → c.ok = true → v.originSize < 2 ^ 63) :
    WorldFlags (w.openNext h c cfg v ino phase) := by
  obtain ⟨hpage, hsize⟩ : Config.validPageSize cfg.pageSize = true ∧
      (phase = .store → v.originSize < 2 ^ 63) := by
    have := hw.slots h
    rwa [hslot] at this
  cases phase with
  | load =>
      simp only [World.openNext]
      split
      · rename_i e hadopt
        exact hw.update rfl (slotFlags_adopt hw hadopt) hw.sidecar hw.stored
      · exact hw.update rfl ⟨hpage, by simp⟩ hw.sidecar hw.stored
  | relock =>
      simp only [World.openNext]
      split
      · rename_i e hadopt
        exact hw.update rfl (slotFlags_adopt hw hadopt) hw.sidecar hw.stored
      · split
        · exact hw.update rfl ⟨hpage, by simp⟩ hw.sidecar hw.stored
        · exact hw.update rfl trivial hw.sidecar hw.stored
  | grow =>
      simp only [World.openNext]
      split
      · rename_i hok
        exact hw.update rfl ⟨hpage, fun _ => hlength rfl hok⟩ hw.sidecar hw.stored
      · exact hw.update rfl trivial hw.sidecar hw.stored
  | store =>
      have hfresh := @MetaData.consistent_fresh cfg v w.key c.now hpage (hsize rfl)
      have hlive : SlotFlags (.live v ino (FileEntry.openFresh cfg w.key v c.now c.ok) fun _ => []) :=
        ⟨_, FlagsOk.ofMeta hfresh cfg w.key _, by simp⟩
      simp only [World.openNext]
      split
      · have hstored := hw.store hfresh
        exact hstored.update rfl hlive hstored.sidecar hstored.stored
      · exact hw.update rfl hlive hw.sidecar hw.stored

/-- The frames of a call just started carry nothing yet. -/
theorem op_frames_within (n : Nat) (op : Op) : ∀ fr ∈ op.frames, fr.Within n := by
  cases op <;> simp [Op.frames, Frame.Within]

theorem WorldFlags.putBack (hw : WorldFlags w) {h : Nat} {v : Validators} {ino : Nat} {s : Machine}
    (hslot : SlotFlags (.live v ino s.e s.threads))
    (hside : ∀ m, s.disk.sidecar = some m → m.Consistent) :
    WorldFlags (w.putBack h v ino s) := by
  refine hw.update rfl hslot hside ?_
  intro m hm
  rcases List.mem_append.1 hm with hm | hm
  · exact hside m (Option.mem_toList.1 hm)
  · exact hw.stored m hm

theorem worldFlags_act (hw : WorldFlags w) {h : Nat} {a : MachineAct}
    (hstep : w.step (.act h a) = some w') : WorldFlags w' := by
  obtain ⟨v, ino, e, threads, s, hslot, hs, rfl⟩ := World.act_inv hstep
  have hlive := hw.slots h
  rw [hslot] at hlive
  obtain ⟨n, hhandle, hframes⟩ := hlive
  cases a with
  | start t op =>
      obtain ⟨-, rfl⟩ := Machine.start_inv hs
      exact hw.putBack ⟨n, hhandle, frames_update hframes (op_frames_within n op)⟩ hw.sidecar
  | step t c =>
      obtain ⟨fr, rest, r, ht, hr, rfl⟩ := Machine.step_inv hs
      change threads t = fr :: rest at ht
      have hmem : ∀ fr' ∈ fr :: rest, fr'.Within n := by
        rw [← ht]
        exact hframes t
      obtain ⟨hhandle', hside, hframes'⟩ :=
        step_flags hhandle (hmem fr (List.mem_cons_self ..)) hw.sidecar hr
      refine hw.putBack ⟨n, hhandle', frames_update hframes ?_⟩ ?_
      · intro fr' hfr'
        rcases List.mem_append.1 hfr' with hfr' | hfr'
        · exact hframes' fr' hfr'
        · exact hmem fr' (List.mem_cons_of_mem _ hfr')
      · intro m hm
        rcases hside with hsame | ⟨m', hm', hok⟩
        · exact hw.sidecar m (hsame.symm.trans hm)
        · obtain rfl : m' = m := Option.some.inj (hm'.symm.trans hm)
          exact hok

theorem worldFlags_setPinnedByKey (hw : WorldFlags w) (pinned ok : Bool) :
    WorldFlags (w.setPinnedByKey pinned ok) := by
  unfold World.setPinnedByKey
  split
  · rename_i m hload
    split
    · obtain ⟨m', hm', -, -⟩ := MetaFile.load_eq_some hload
      have hcons := hw.sidecar m' hm'
      rw [hm'] at hload
      have hsame := hcons.load hload
      subst hsame
      exact hw.store (hcons.withPin pinned)
    · exact hw
  · exact hw

/-- Every act keeps every count, every report and every flag right. -/
theorem worldFlags_step (hw : WorldFlags w) {a : KeyAct} (hcond : Promised w a)
    (hstep : w.keyStep a = some w') : WorldFlags w' := by
  cases a with
  | setPinnedByKey pinned ok =>
      cases hstep
      exact worldFlags_setPinnedByKey hw pinned ok
  | entry a =>
      change w.step a = some w' at hstep
      cases a with
      | openEntry h cfg v =>
          obtain rfl := World.open_inv hstep
          have hpage := hcond.pageSize h cfg v rfl
          unfold World.openData
          split
          · exact hw.update rfl ⟨hpage, by simp⟩ hw.sidecar hw.stored
          · exact hw.update rfl ⟨hpage, by simp⟩ hw.sidecar hw.stored
      | openStep h c =>
          obtain ⟨cfg, v, ino, phase, hslot, rfl⟩ := World.openStep_inv hstep
          refine worldFlags_openNext hw hslot ?_
          rintro rfl hok
          exact hcond.length h c rfl hok cfg v ino hslot
      | act h a => exact worldFlags_act hw hstep
      | close h =>
          cases hstep
          exact hw.update rfl trivial hw.sidecar hw.stored
      | unlinkData =>
          cases hstep
          exact ⟨hw.sidecar, hw.stored, hw.slots⟩
      | unlinkMeta =>
          cases hstep
          exact ⟨by simp, hw.stored, hw.slots⟩
      | powerLoss inode image =>
          cases hstep
          refine ⟨?_, hw.stored, fun _ => trivial⟩
          intro m hm
          obtain ⟨k, -, hk⟩ := Option.bind_eq_some_iff.1 hm
          exact hw.stored m (List.mem_of_getElem? hk)

theorem worldFlags_run {key : Bytes} {acts : List KeyAct}
    (hpromised : Along World.keyStep Promised { key := key } acts)
    (hrun : exec World.keyStep { key := key } acts = some w) : WorldFlags w := by
  have hstart : WorldFlags { key := key } := ⟨by simp, by simp, fun _ => trivial⟩
  exact exec_invariant_along WorldFlags
    (fun _ _ _ hw hcond hstep => worldFlags_step hw hcond hstep) hstart hpromised hrun

end Runs

/-- In every state of every run, every sidecar on disk and every handle counts its pages right,
reports the bytes of its present pages as cached, and is marked complete just when it has pages and
all are present.  Whatever a thread does next, every index it uses is below the number of pages, and
the bytes behind the bitmaps go on showing them. -/
theorem presence_bookkeeping_holds {key : Bytes} {acts : List KeyAct} {w : World}
    (hpromised : Along World.keyStep Promised { key := key } acts)
    (hrun : exec World.keyStep { key := key } acts = some w) :
    (∀ m, w.sidecar = some m → m.Agrees ∧
        ∃ raw, RawBitmap.recount ⟨MetaFile.bitmapSection m, m.npages, 0⟩ = .ok raw ∧
          raw.Shows m.bitmap) ∧
      ∀ h v ino e threads, w.slots h = .live v ino e threads →
        e.meta_.Agrees ∧ e.setSince.Counted e.meta_.npages ∧
          e.clearedSince.Counted e.meta_.npages ∧
          ∀ t c fr rest r, threads t = fr :: rest →
            fr.step c e (w.machine ino e threads).disk = some r →
            (∀ op ∈ fr.bitOps c e (w.machine ino e threads).disk, op.Below e.meta_.npages) ∧
              ∀ R T, HeldTables e.meta_.npages R T → OfHandle e T →
                fr.OfCommit e (w.machine ino e threads).disk T →
                ∃ R', exec BitOp.run R (fr.bitOps c e (w.machine ino e threads).disk) = some R' ∧
                  (R' .present).Shows r.1.meta_.bitmap ∧ (R' .setSince).Shows r.1.setSince ∧
                  (R' .clearedSince).Shows r.1.clearedSince ∧
                  ∀ f out, Frame.metaStore f out true ∈ r.2.2 → (R' .image).Shows out.bitmap := by
  have hw := worldFlags_run hpromised hrun
  refine ⟨fun m hm => ⟨(hw.sidecar m hm).agrees, (hw.sidecar m hm).reloads⟩, ?_⟩
  intro h v ino e threads hslot
  have hlive := hw.slots h
  rw [hslot] at hlive
  obtain ⟨n, hhandle, hframes⟩ := hlive
  obtain rfl := hhandle.npages
  refine ⟨hhandle.meta_.agrees, hhandle.setSince, hhandle.clearedSince, ?_⟩
  intro t c fr rest r ht hr
  have hfr : fr.Within e.meta_.npages := hframes t fr (by simp [ht])
  refine ⟨?_, fun R T hheld hT hcommit => step_bytes hhandle hfr hheld hT hcommit hr⟩
  obtain ⟨R, T, -, hT, hcommit⟩ := exists_held (d := (w.machine ino e threads).disk) hhandle hfr
    hw.sidecar
  exact (step_bitOps hhandle hfr hT hcommit hr).below

/-! ### Checking a run -/

/-- `Promised`, evaluated. -/
def promisedCheck (w : World) : KeyAct → Bool
  | .entry (.openEntry _ cfg _) => Config.validPageSize cfg.pageSize
  | .entry (.openStep h c) =>
      match w.slots h with
      | .opening _ v _ .grow => !c.ok || decide (v.originSize < 2 ^ 63)
      | _ => true
  | _ => true

theorem promisedCheck_sound {w : World} {a : KeyAct} (h : promisedCheck w a = true) :
    Promised w a := by
  constructor
  · rintro h' cfg v rfl
    exact h
  · rintro h' c rfl hok cfg v ino hslot
    simpa [promisedCheck, hslot, hok] using h

theorem along_promised {w : World} {acts : List KeyAct}
    (h : alongB World.keyStep promisedCheck w acts = true) :
    Along World.keyStep Promised w acts :=
  along_of_check (fun _ => True) (fun _ => True) (fun _ _ _ _ _ _ => trivial)
    (fun _ _ _ _ => promisedCheck_sound) trivial (fun _ _ => trivial) h

/-- The flag of a handle and the bytes it reports. -/
def Slot.report : Slot → Option (Bool × Nat)
  | .live _ _ e _ => some (e.meta_.complete, e.meta_.cachedBytes)
  | _ => none

theorem Slot.report_eq_some {slot : Slot} {x : Bool × Nat} (h : slot.report = some x) :
    ∃ v ino e threads, slot = .live v ino e threads ∧ e.meta_.complete = x.1 ∧
      e.meta_.cachedBytes = x.2 := by
  unfold Slot.report at h
  split at h
  · rename_i v ino e threads
    cases h
    exact ⟨v, ino, e, threads, rfl, rfl, rfl⟩
  · cases h

/-- Five bytes fill an entry, and the counts and the flag say so. -/
theorem bookkeeping_of_five_bytes :
    ∃ w, exec World.keyStep { key := [102] } (fillRun.map .entry) = some w ∧
      ∃ v ino e threads, w.slots 0 = .live v ino e threads ∧ e.meta_.complete = true ∧
        e.meta_.presentBytes = 5 := by
  have hobs : (exec World.keyStep { key := [102] } (fillRun.map .entry)).map
      (fun w => (w.slots 0).report) = some (some (true, 5)) := by decide +kernel
  obtain ⟨w, hw, hreport⟩ := Option.map_eq_some_iff.1 hobs
  obtain ⟨v, ino, e, threads, hslot, hcomplete, hbytes⟩ := Slot.report_eq_some hreport
  have hpromised : Along World.keyStep Promised { key := [102] } (fillRun.map .entry) :=
    along_promised (by decide +kernel)
  have hagrees := ((presence_bookkeeping_holds hpromised hw).2 0 v ino e threads hslot).1
  exact ⟨w, hw, v, ino, e, threads, hslot, hcomplete, hagrees.cachedBytes.symm.trans hbytes⟩

end UCache
