/-
Module: UCache.Core.Sidecar
Purpose: Handles of several processes committing to one sidecar.  Each handle keeps a stale view
  and its own deltas; a commit loads the image on disk, applies the deltas and stores the result
  under the exclusive lock.  The sidecar is shown to be the last-writer-wins image of the
  transitions in the order in which they were committed.
Trusted boundary: none
Main exports: Generation, Peer, sidecar_commits_last_writer_wins
-/
import UCache.Core.Deltas
import UCache.Lib.Run

namespace UCache

open Lib

/-! ### The system -/

/-- One generation of an entry: the key, the origin it was validated for and the page size its
sidecar was started with. -/
structure Generation where
  key : Bytes
  validators : Validators
  pageSize : Nat
  valid : Config.validPageSize pageSize = true

namespace Generation

def npages (g : Generation) : Nat := MetaData.pagesOf g.pageSize g.validators.originSize

/-- Metadata that belongs to the generation. -/
structure Describes (g : Generation) (m : MetaData) : Prop where
  key : m.key = g.key
  validators : m.validators = g.validators
  pageSize : m.pageSize = g.pageSize
  ncrcs : m.ncrcs = g.npages

/-- The guards of `MetaFile::load` pass every sidecar of the generation: the image fits its cap of
`2^31` bytes and the key its cap of 64 KiB. -/
def Loadable (g : Generation) : Prop :=
  MetaFile.align8 (56 + g.key.length) + (g.npages + 7) / 8 + g.npages * 4 ≤ 2 ^ 31 ∧
    g.key.length ≤ 64 * 1024

instance (g : Generation) : Decidable g.Loadable := instDecidableAnd

end Generation

/-- Where the handle's `flushMeta` stands. -/
inductive Flush where
  | idle
  /-- The snapshot is taken; it holds the transitions below `upTo`. -/
  | snapped (f : MetaFlush) (upTo : Nat)
  /-- The locked section is over; the handle has not yet adopted the image or re-armed. -/
  | ended (f : MetaFlush) (upTo : Nat) (out : MetaData) (merged ok : Bool)

/-- One open handle.  `durable` is a ghost: how many transitions of its trace are committed. -/
structure Peer where
  e : FileEntry
  flush : Flush := .idle
  durable : Nat := 0

/-- The handles on an entry and its sidecar.  `log` is a ghost: the transitions of all handles, in
the order of the commits that carried them. -/
structure SidecarSys where
  peers : Nat → Option Peer
  sidecar : Option MetaData
  log : List Transition

inductive SidecarAct where
  | open (h : Nat) (cfg : Config) (now : Nat) (ok : Bool)
  | publish (h pg : Nat) (crc : UInt32)
  | retract (h pg : Nat)
  | setPinned (h : Nat) (p : Bool)
  /-- The snapshot section of `flushMeta`. -/
  | begin (h : Nat)
  /-- Load, merge and store under the exclusive lock; `ok` is what the store returned. -/
  | commit (h : Nat) (ok : Bool)
  /-- Adopt the committed image, or re-arm the deltas. -/
  | finish (h : Nat)

namespace SidecarSys

def init (base : Option MetaData) : SidecarSys :=
  { peers := fun _ => none, sidecar := base, log := [] }

def setPeer (s : SidecarSys) (h : Nat) (p : Peer) : SidecarSys :=
  { s with peers := Function.update s.peers h (some p) }

/-- A section of handle `h` that changes only the handle's own state. -/
def onEntry (s : SidecarSys) (h : Nat) (sec : FileEntry → FileEntry) : Option SidecarSys :=
  (s.peers h).map fun p => s.setPeer h { p with e := sec p.e }

/-- Open a handle: adopt the sidecar, or start fresh and store an empty one. -/
def openPeer (g : Generation) (s : SidecarSys) (h : Nat) (cfg : Config) (now : Nat) (ok : Bool) :
    Option SidecarSys :=
  if (s.peers h).isSome ∨ cfg.pageSize ≠ g.pageSize then none
  else
    match FileEntry.openAdopt cfg g.key g.validators s.sidecar with
    | some e => some (s.setPeer h { e := e })
    | none =>
        let e := FileEntry.openFresh cfg g.key g.validators now ok
        let s := s.setPeer h { e := e }
        some (if ok then { s with sidecar := some e.meta_ } else s)

def begin (s : SidecarSys) (h : Nat) : Option SidecarSys :=
  (s.peers h).bind fun p =>
    match p.flush with
    | .idle =>
        if p.e.dirty then
          let (e, f) := p.e.flushMetaBegin
          some (s.setPeer h { p with e := e, flush := .snapped f p.e.trace.length })
        else none
    | _ => none

def commit (s : SidecarSys) (h : Nat) (ok : Bool) : Option SidecarSys :=
  (s.peers h).bind fun p =>
    match p.flush with
    | .snapped f upTo =>
        let (out, merged) := f.image p.e.cfg p.e.key s.sidecar
        if ok then
          let s := s.setPeer h { p with flush := .ended f upTo out merged true, durable := upTo }
          some { s with
            sidecar := some out
            log := s.log ++ (p.e.trace.take upTo).drop p.durable }
        else some (s.setPeer h { p with flush := .ended f upTo out merged false })
    | _ => none

def finish (s : SidecarSys) (h : Nat) : Option SidecarSys :=
  (s.peers h).bind fun p =>
    match p.flush with
    | .ended f _ out merged ok =>
        let e :=
          if ok then if merged then p.e.flushMetaAdopt out else p.e else p.e.flushMetaFailed f
        some (s.setPeer h { p with e := e, flush := .idle })
    | _ => none

/-- One atomic step.  Every section that publishes or retracts a page marks the entry dirty. -/
def step (g : Generation) (s : SidecarSys) : SidecarAct → Option SidecarSys
  | .open h cfg now ok => s.openPeer g h cfg now ok
  | .publish h pg crc =>
      if pg < g.npages then s.onEntry h fun e => { e.publishPage pg crc with dirty := true }
      else none
  | .retract h pg =>
      if pg < g.npages then s.onEntry h fun e => { e.retractPage pg with dirty := true }
      else none
  | .setPinned h p => s.onEntry h fun e => e.setPinned p
  | .begin h => s.begin h
  | .commit h ok => s.commit h ok
  | .finish h => s.finish h

/-! ### The abstract sidecar -/

/-- State of page `i` before any transition was committed. -/
def basePage (base : Option MetaData) (i : Nat) : Bool × UInt32 :=
  (base.map fun m => m.page i).getD (false, 0)

def basePin (base : Option MetaData) : Bool := (base.map fun m => m.pinned).getD false

/-- `m` is the last-writer-wins image of the log `ts` over the given starting point. -/
structure Mirrors (n : Nat) (m : MetaData) (page₀ : Nat → Bool × UInt32) (pin₀ : Bool)
    (ts : List Transition) : Prop where
  page : ∀ i < n, m.page i = (lastPage ts i).getD (page₀ i)
  pinned : m.pinned = (lastPin ts).getD pin₀

/-! ### The invariant -/

variable {g : Generation} {base : Option MetaData}

/-- A commit under way: the handle describes what happened since the snapshot, the commit what
happened between the last durable transition and the snapshot, and the handle still shows the
latter wherever nothing newer happened. -/
structure InFlight (n : Nat) (e : FileEntry) (durable upTo : Nat) (f : MetaFlush) : Prop where
  le : durable ≤ upTo
  le_length : upTo ≤ e.trace.length
  tracks : Tracks n e (e.trace.drop upTo)
  carries : Carries n f ((e.trace.take upTo).drop durable)
  held : ∀ i < n, lastPage (e.trace.drop upTo) i = none →
    ∀ x, lastPage ((e.trace.take upTo).drop durable) i = some x → e.meta_.page i = x
  heldPin : lastPin (e.trace.drop upTo) = none →
    ∀ q, lastPin ((e.trace.take upTo).drop durable) = some q → e.meta_.pinned = q

/-- The transitions of a handle that no commit has made durable, and who holds them. -/
def FlushInv (n : Nat) (p : Peer) : Prop :=
  match p.flush with
  | .idle => p.durable ≤ p.e.trace.length ∧ Tracks n p.e (p.e.trace.drop p.durable)
  | .snapped f upTo => InFlight n p.e p.durable upTo f
  | .ended f upTo _ _ ok =>
      if ok then
        p.durable = upTo ∧ upTo ≤ p.e.trace.length ∧ Tracks n p.e (p.e.trace.drop upTo)
      else InFlight n p.e p.durable upTo f

/-- While nothing is on disk a handle's view is the image of its own transitions alone. -/
structure Lone (n : Nat) (p : Peer) : Prop where
  durable : p.durable = 0
  view : Mirrors n p.e.meta_ (fun _ => (false, 0)) false p.e.trace
  snapshot : ∀ f upTo, p.flush = .snapped f upTo →
    Mirrors n f.snapshot (fun _ => (false, 0)) false (p.e.trace.take upTo)
  notStored : ∀ f upTo out merged, p.flush ≠ .ended f upTo out merged true

structure PeerInv (g : Generation) (sidecar : Option MetaData) (p : Peer) : Prop where
  describes : g.Describes p.e.meta_
  snapDescribes : ∀ f upTo, p.flush = .snapped f upTo → g.Describes f.snapshot
  key : p.e.key = g.key
  flush : FlushInv g.npages p
  lone : sidecar = none → Lone g.npages p

/-- The sidecar is the image of the committed log, and every handle accounts for its pending
transitions. -/
structure Inv (g : Generation) (base : Option MetaData) (s : SidecarSys) : Prop where
  describes : ∀ m, s.sidecar = some m → g.Describes m
  mirrors : ∀ m, s.sidecar = some m → Mirrors g.npages m (basePage base) (basePin base) s.log
  empty : s.sidecar = none → base = none ∧ s.log = []
  peer : ∀ h p, s.peers h = some p → PeerInv g s.sidecar p

end SidecarSys

/-! ### What a sidecar of the generation looks like to a commit -/

variable {g : Generation} {m : MetaData}

theorem Generation.Describes.npages (h : g.Describes m) : m.npages = g.npages := by
  have hfs : m.fileSize = g.validators.originSize := congrArg Validators.originSize h.validators
  simp [MetaData.npages, Generation.npages, h.pageSize, hfs]

theorem Generation.Describes.extends {e e' : FileEntry} {ts : List Transition}
    (h : g.Describes e.meta_) (hx : Extends e e' ts) : g.Describes e'.meta_ :=
  ⟨hx.metaKey.trans h.key, hx.validators.trans h.validators, hx.pageSize.trans h.pageSize,
    hx.ncrcs.trans h.ncrcs⟩

/-- Every configuration adopts metadata of the handle's own generation. -/
theorem Generation.Describes.adoptable (h : g.Describes m) (cfg : Config) :
    UCache.adoptable m cfg g.key g.validators = true := by
  have hv := h.validators
  have hfs : m.fileSize = g.validators.originSize := congrArg Validators.originSize hv
  have hmt : m.originMtime = g.validators.originMtime := congrArg Validators.originMtime hv
  have hck : m.cksumKind = g.validators.cksumKind := congrArg Validators.cksumKind hv
  have hoc : m.originCksum = g.validators.originCksum := congrArg Validators.originCksum hv
  simp [UCache.adoptable, h.key, hfs, h.pageSize, g.valid, h.npages, h.ncrcs, hmt, hck, hoc]

/-- A valid page size passes the page size check of `deserialize`. -/
private theorem validPageSize_spec {p : Nat} (h : Config.validPageSize p = true) :
    p ≠ 0 ∧ p &&& (p - 1) = 0 := by
  simp only [Config.validPageSize, Bool.and_eq_true, decide_eq_true_eq] at h
  exact ⟨by omega, h.2⟩

/-- A sidecar of a loadable generation is read back as it was stored. -/
theorem Generation.Describes.load (h : g.Describes m) (hl : g.Loadable) :
    ∃ d, MetaFile.load (some m) = some d ∧ g.Describes d ∧ (∀ i, d.page i = m.page i) ∧
      d.pinned = m.pinned := by
  obtain ⟨hp, hpow⟩ := validPageSize_spec g.valid
  have hr : MetaFile.readable m = true := by
    simp only [MetaFile.readable, MetaFile.imageSize, h.key, h.npages, h.pageSize,
      Bool.and_eq_true, decide_eq_true_eq]
    exact ⟨⟨⟨hl.1, hl.2⟩, hp⟩, hpow⟩
  exact ⟨{ m with bitmap := m.bitmap.recount, ncrcs := m.npages }, by simp [MetaFile.load, hr],
    ⟨h.key, h.validators, h.pageSize, h.npages⟩, fun _ => rfl, rfl⟩

/-- The image a commit stores over a sidecar of its own generation is the merge. -/
theorem MetaFlush.image_some {f : MetaFlush} (cfg : Config) (hs : g.Describes f.snapshot)
    (h : g.Describes m) (hl : g.Loadable) :
    ∃ d, f.image cfg g.key (some m) = (f.merge d, true) ∧ g.Describes d ∧
      (∀ i, d.page i = m.page i) ∧ d.pinned = m.pinned := by
  obtain ⟨d, hd, hdesc, hpage, hpin⟩ := h.load hl
  refine ⟨d, ?_, hdesc, hpage, hpin⟩
  have hadopt := hdesc.adoptable cfg
  rw [← hs.validators] at hadopt
  simp [MetaFlush.image, hd, hdesc.pageSize, hs.pageSize, hadopt]

theorem Generation.Describes.merge {d : MetaData} (h : g.Describes d) (f : MetaFlush) :
    g.Describes (f.merge d) :=
  ⟨h.key, h.validators, h.pageSize, h.ncrcs⟩

theorem Generation.Describes.adopt {e : FileEntry} (h : g.Describes e.meta_) (out : MetaData) :
    g.Describes (e.flushMetaAdopt out).meta_ :=
  ⟨h.key, h.validators, h.pageSize, h.ncrcs⟩

theorem freshMeta_describes (g : Generation) {cfg : Config} (hp : cfg.pageSize = g.pageSize)
    (now : Nat) : g.Describes (FileEntry.freshMeta cfg g.key g.validators now) := by
  constructor <;> simp [FileEntry.freshMeta, MetaData.fresh, MetaData.validators,
    Generation.npages, hp]

namespace SidecarSys

variable {g : Generation} {base : Option MetaData} {s t : SidecarSys} {p : Peer} {e' : FileEntry}
  {ts : List Transition} {h : Nat}

/-! ### One step -/

theorem Mirrors.extends {n : Nat} {e : FileEntry} {page₀ : Nat → Bool × UInt32} {pin₀ : Bool}
    (hm : Mirrors n e.meta_ page₀ pin₀ e.trace) (hx : Extends e e' ts) :
    Mirrors n e'.meta_ page₀ pin₀ e'.trace where
  page i hi := by
    rw [hx.page, hx.trace, hm.page i hi]
    exact (lastFor_append_getD _ _ _ _).symm
  pinned := by
    rw [hx.pinned, hx.trace, hm.pinned]
    exact (lastFor_append_getD _ _ _ _).symm

theorem InFlight.extends {n durable upTo : Nat} {e : FileEntry} {f : MetaFlush}
    (hf : InFlight n e durable upTo f) (hx : Extends e e' ts) : InFlight n e' durable upTo f := by
  have hdrop : e'.trace.drop upTo = e.trace.drop upTo ++ ts := by
    rw [hx.trace, List.drop_append_of_le_length hf.le_length]
  have htake : e'.trace.take upTo = e.trace.take upTo := by
    rw [hx.trace, List.take_append_of_le_length hf.le_length]
  refine ⟨hf.le, ?_, ?_, ?_, ?_, ?_⟩
  · rw [hx.trace, List.length_append]
    exact Nat.le_add_right_of_le hf.le_length
  · rw [hdrop]
    exact hx.tracks hf.tracks
  · rw [htake]
    exact hf.carries
  · intro i hi hnone x hseg
    rw [hdrop, lastPage_append, Option.or_eq_none_iff] at hnone
    rw [htake] at hseg
    rw [hx.page, hnone.1]
    exact hf.held i hi hnone.2 x hseg
  · intro hnone q hseg
    rw [hdrop, lastPin_append, Option.or_eq_none_iff] at hnone
    rw [htake] at hseg
    rw [hx.pinned, hnone.1]
    exact hf.heldPin hnone.2 q hseg

/-- A transition of a handle is pending in that handle and changes nothing else. -/
theorem PeerInv.extends (hp : PeerInv g s.sidecar p) (hx : Extends p.e e' ts) :
    PeerInv g s.sidecar { p with e := e' } := by
  refine ⟨hp.describes.extends hx, hp.snapDescribes, hx.key.trans hp.key, ?_, ?_⟩
  · have hflush := hp.flush
    have hidle : ∀ k, k ≤ p.e.trace.length → Tracks g.npages p.e (p.e.trace.drop k) →
        k ≤ e'.trace.length ∧ Tracks g.npages e' (e'.trace.drop k) := by
      intro k hk ht
      rw [hx.trace, List.drop_append_of_le_length hk]
      exact ⟨by simp; omega, hx.tracks ht⟩
    simp only [FlushInv] at hflush ⊢
    cases hfl : p.flush with
    | idle =>
        simp only [hfl] at hflush
        exact hidle _ hflush.1 hflush.2
    | snapped f upTo =>
        simp only [hfl] at hflush
        exact hflush.extends hx
    | ended f upTo out merged ok =>
        simp only [hfl] at hflush
        cases ok with
        | true =>
            obtain ⟨hd, hle, ht⟩ := hflush
            exact ⟨hd, hidle _ hle ht⟩
        | false => exact InFlight.extends (by simpa using hflush) hx
  · intro hnone
    obtain ⟨hd, hv, hsnap, hstored⟩ := hp.lone hnone
    refine ⟨hd, hv.extends hx, ?_, hstored⟩
    intro f upTo hfl
    have hflush := hp.flush
    simp only [FlushInv, (show p.flush = .snapped f upTo from hfl)] at hflush
    simp only
    rw [hx.trace, List.take_append_of_le_length hflush.le_length]
    exact hsnap f upTo hfl

/-- Replacing one handle by one that satisfies the invariant. -/
theorem Inv.setPeer (hs : Inv g base s) (hp : PeerInv g s.sidecar p) :
    Inv g base (s.setPeer h p) := by
  refine ⟨hs.describes, hs.mirrors, hs.empty, ?_⟩
  intro k q hq
  by_cases hk : k = h
  · subst hk
    simp only [SidecarSys.setPeer, Function.update_self, Option.some.injEq] at hq
    exact hq ▸ hp
  · simp only [SidecarSys.setPeer, Function.update_of_ne hk] at hq
    exact hs.peer k q hq

theorem onEntry_inv (hs : Inv g base s) {sec : FileEntry → FileEntry}
    (hsec : ∀ e, ∃ ts, Extends e (sec e) ts) (hstep : s.onEntry h sec = some t) :
    Inv g base t := by
  simp only [onEntry, Option.map_eq_some_iff] at hstep
  obtain ⟨p, hp, rfl⟩ := hstep
  obtain ⟨ts, hx⟩ := hsec p.e
  exact hs.setPeer ((hs.peer h p hp).extends hx)

/-- A handle over metadata of the generation with nothing pending. -/
theorem peerInv_ofMeta {cfg : Config} {dirty : Bool} {sidecar : Option MetaData}
    (hm : g.Describes m)
    (hlone : sidecar = none → Mirrors g.npages m (fun _ => (false, 0)) false []) :
    PeerInv g sidecar { e := FileEntry.ofMeta cfg g.key m dirty } where
  describes := hm
  snapDescribes _ _ hfl := by simp at hfl
  key := rfl
  flush := by
    refine ⟨Nat.le_refl _, ?_⟩
    constructor <;> simp [FileEntry.ofMeta]
  lone hnone := ⟨rfl, hlone hnone, by simp, by simp⟩

theorem freshMeta_mirrors (cfg : Config) (now : Nat) :
    Mirrors g.npages (FileEntry.freshMeta cfg g.key g.validators now) (fun _ => (false, 0))
      false [] := by
  constructor
  · intro i _
    rfl
  · rfl

theorem openPeer_inv (hl : g.Loadable) (hs : Inv g base s) {cfg : Config} {now : Nat} {ok : Bool}
    (hstep : s.openPeer g h cfg now ok = some t) : Inv g base t := by
  unfold openPeer at hstep
  split at hstep
  · simp at hstep
  · rename_i hguard
    have hps : cfg.pageSize = g.pageSize := by
      by_contra hne
      exact hguard (Or.inr hne)
    cases hsc : s.sidecar with
    | some m =>
        -- A sidecar of this generation is always adopted.
        obtain ⟨d, hd, hdesc, -, -⟩ := (hs.describes m hsc).load hl
        have hadopt : FileEntry.openAdopt cfg g.key g.validators s.sidecar =
            some (FileEntry.ofMeta cfg g.key d false) := by
          simp [FileEntry.openAdopt, hsc, hd, hdesc.adoptable]
        simp only [hadopt, Option.some.injEq] at hstep
        subst hstep
        exact hs.setPeer (peerInv_ofMeta hdesc (by simp [hsc]))
    | none =>
        have hadopt : FileEntry.openAdopt cfg g.key g.validators s.sidecar = none := by
          simp [FileEntry.openAdopt, hsc, MetaFile.load]
        simp only [hadopt, Option.some.injEq] at hstep
        obtain ⟨hbase, hlog⟩ := hs.empty hsc
        have hfresh := freshMeta_describes g hps now
        have hpeer : PeerInv g s.sidecar { e := FileEntry.openFresh cfg g.key g.validators now ok } :=
          peerInv_ofMeta hfresh fun _ => freshMeta_mirrors cfg now
        have hnext := hs.setPeer (h := h) hpeer
        cases ok with
        | false => simpa using hstep ▸ hnext
        | true =>
            simp only [if_true] at hstep
            subst hstep
            refine ⟨?_, ?_, by simp, ?_⟩
            · rintro m ⟨⟩
              exact hfresh
            · rintro m ⟨⟩
              change Mirrors _ (FileEntry.freshMeta cfg g.key g.validators now) _ _ s.log
              rw [hlog, hbase]
              exact freshMeta_mirrors cfg now
            · intro k q hq
              obtain ⟨h1, h2, h3, h4, -⟩ := hnext.peer k q hq
              exact ⟨h1, h2, h3, h4, by simp⟩

theorem begin_inv (hs : Inv g base s) (hstep : s.begin h = some t) : Inv g base t := by
  simp only [SidecarSys.begin, Option.bind_eq_some_iff] at hstep
  obtain ⟨p, hp, hstep⟩ := hstep
  have hpeer := hs.peer h p hp
  have hflush := hpeer.flush
  cases hfl : p.flush with
  | snapped f upTo => simp [hfl] at hstep
  | ended f upTo out merged ok => simp [hfl] at hstep
  | idle =>
      simp only [hfl] at hstep
      split at hstep
      · simp only [Option.some.injEq] at hstep
        subst hstep
        simp only [FlushInv, hfl] at hflush
        obtain ⟨hle, htracks⟩ := hflush
        obtain ⟨hnew, hcarries⟩ := htracks.flushMetaBegin
        apply hs.setPeer
        refine ⟨hpeer.describes, ?_, hpeer.key, ?_, ?_⟩
        · rintro f upTo ⟨⟩
          exact hpeer.describes
        · refine ⟨hle, Nat.le_refl _, ?_, ?_, ?_, ?_⟩
          · simpa [FileEntry.flushMetaBegin] using hnew
          · simpa [FileEntry.flushMetaBegin] using hcarries
          · intro i hi _ x hx
            exact htracks.page i hi x (by simpa [FileEntry.flushMetaBegin] using hx)
          · intro _ q hq
            exact htracks.pin q (by simpa [FileEntry.flushMetaBegin] using hq)
        · intro hnone
          obtain ⟨hd, hv, -, -⟩ := hpeer.lone hnone
          refine ⟨hd, hv, ?_, by simp⟩
          rintro f upTo ⟨⟩
          simpa [FileEntry.flushMetaBegin] using hv
      · simp at hstep

/-- The image a commit stores is the image of the log with the committed transitions added. -/
theorem image_mirrors (hl : g.Loadable) (hs : Inv g base s) (hpeer : PeerInv g s.sidecar p)
    {f : MetaFlush} {upTo : Nat} (hfl : p.flush = .snapped f upTo) :
    g.Describes (f.image p.e.cfg p.e.key s.sidecar).1 ∧
      Mirrors g.npages (f.image p.e.cfg p.e.key s.sidecar).1 (basePage base) (basePin base)
        (s.log ++ (p.e.trace.take upTo).drop p.durable) := by
  have hflush : InFlight g.npages p.e p.durable upTo f := by
    simpa only [FlushInv, hfl] using hpeer.flush
  have hsnap := hpeer.snapDescribes f upTo hfl
  rw [hpeer.key]
  cases hsc : s.sidecar with
  | some m =>
      obtain ⟨d, himage, hdesc, hpage, hpin⟩ :=
        MetaFlush.image_some p.e.cfg hsnap (hs.describes m hsc) hl
      rw [himage]
      refine ⟨hdesc.merge f, ?_, ?_⟩
      · intro i hi
        rw [hflush.carries.page_merge hdesc.npages hi, hpage, (hs.mirrors m hsc).page i hi]
        exact (lastFor_append_getD _ _ _ _).symm
      · rw [hflush.carries.pinned_merge, hpin, (hs.mirrors m hsc).pinned]
        exact (lastFor_append_getD _ _ _ _).symm
  | none =>
      -- Nothing on disk: the view is stored whole, and it is the handle's own doing.
      obtain ⟨hd, -, hview, -⟩ := hpeer.lone hsc
      obtain ⟨hbase, hlog⟩ := hs.empty hsc
      have himage : f.image p.e.cfg g.key none = (f.snapshot, false) := rfl
      rw [himage, hbase, hlog, hd]
      rw [List.nil_append, List.drop_zero]
      exact ⟨hsnap, hview f upTo hfl⟩

theorem commit_inv (hl : g.Loadable) (hs : Inv g base s) {ok : Bool}
    (hstep : s.commit h ok = some t) : Inv g base t := by
  simp only [SidecarSys.commit, Option.bind_eq_some_iff] at hstep
  obtain ⟨p, hp, hstep⟩ := hstep
  have hpeer := hs.peer h p hp
  cases hfl : p.flush with
  | idle => simp [hfl] at hstep
  | ended f upTo out merged ok => simp [hfl] at hstep
  | snapped f upTo =>
      simp only [hfl] at hstep
      have hflush : InFlight g.npages p.e p.durable upTo f := by
        simpa only [FlushInv, hfl] using hpeer.flush
      obtain ⟨hdesc, hmirrors⟩ := image_mirrors hl hs hpeer hfl
      cases ok with
      | false =>
          simp only [Bool.false_eq_true, if_false, Option.some.injEq] at hstep
          subst hstep
          apply hs.setPeer
          refine ⟨hpeer.describes, by simp, hpeer.key, by simpa [FlushInv] using hflush, ?_⟩
          intro hnone
          obtain ⟨hd, hv, -, -⟩ := hpeer.lone hnone
          exact ⟨hd, hv, by simp, by simp⟩
      | true =>
          simp only [if_true, Option.some.injEq] at hstep
          subst hstep
          refine ⟨?_, ?_, by simp, ?_⟩
          · rintro m ⟨⟩
            exact hdesc
          · rintro m ⟨⟩
            exact hmirrors
          · intro k q hq
            by_cases hk : k = h
            · subst hk
              simp only [SidecarSys.setPeer, Function.update_self, Option.some.injEq] at hq
              subst hq
              refine ⟨hpeer.describes, by simp, hpeer.key, ?_, by simp⟩
              exact ⟨rfl, hflush.le_length, hflush.tracks⟩
            · simp only [SidecarSys.setPeer, Function.update_of_ne hk] at hq
              obtain ⟨h1, h2, h3, h4, -⟩ := hs.peer k q hq
              exact ⟨h1, h2, h3, h4, by simp⟩

theorem finish_inv (hs : Inv g base s) (hstep : s.finish h = some t) : Inv g base t := by
  simp only [SidecarSys.finish, Option.bind_eq_some_iff] at hstep
  obtain ⟨p, hp, hstep⟩ := hstep
  have hpeer := hs.peer h p hp
  cases hfl : p.flush with
  | idle => simp [hfl] at hstep
  | snapped f upTo => simp [hfl] at hstep
  | ended f upTo out merged ok =>
      simp only [hfl, Option.some.injEq] at hstep
      subst hstep
      apply hs.setPeer
      have hflush := hpeer.flush
      simp only [FlushInv, hfl] at hflush
      have hn := hpeer.describes.npages
      cases ok with
      | false =>
          simp only [Bool.false_eq_true, if_false] at hflush ⊢
          refine ⟨hpeer.describes, by simp, hpeer.key, ?_, ?_⟩
          · refine ⟨Nat.le_trans hflush.le hflush.le_length, ?_⟩
            have htracks := hflush.tracks.flushMetaFailed hflush.carries hn hflush.held
              hflush.heldPin
            have hsplit : (p.e.trace.take upTo).drop p.durable ++ p.e.trace.drop upTo =
                p.e.trace.drop p.durable := by
              have hle : p.durable ≤ (p.e.trace.take upTo).length := by
                rw [List.length_take]
                exact Nat.le_min.2 ⟨hflush.le, Nat.le_trans hflush.le hflush.le_length⟩
              rw [← List.drop_append_of_le_length hle, List.take_append_drop]
            rw [hsplit] at htracks
            exact htracks
          · intro hnone
            obtain ⟨hd, hv, -, -⟩ := hpeer.lone hnone
            exact ⟨hd, hv, by simp, by simp⟩
      | true =>
          simp only [if_true] at hflush ⊢
          obtain ⟨hd, hle, htracks⟩ := hflush
          have hstored : s.sidecar ≠ none := by
            intro hnone
            exact (hpeer.lone hnone).notStored _ _ _ _ hfl
          cases merged with
          | true =>
              have hadopt := hpeer.describes.adopt out
              exact ⟨hadopt, by simp, hpeer.key, ⟨hd ▸ hle, hd ▸ htracks.flushMetaAdopt hn out⟩,
                fun hnone => absurd hnone hstored⟩
          | false =>
              exact ⟨hpeer.describes, by simp, hpeer.key, ⟨hd ▸ hle, hd ▸ htracks⟩,
                fun hnone => absurd hnone hstored⟩

theorem step_inv (hl : g.Loadable) (hs : Inv g base s) {a : SidecarAct}
    (hstep : step g s a = some t) : Inv g base t := by
  have hdirty : ∀ e : FileEntry, Extends e { e with dirty := true } [] := fun e =>
    Extends.of_view rfl rfl rfl rfl rfl rfl rfl
  cases a with
  | «open» h cfg now ok => exact openPeer_inv hl hs hstep
  | publish h pg crc =>
      simp only [step] at hstep
      split at hstep
      · exact onEntry_inv hs
          (fun e => ⟨_, (extends_publishPage e pg crc).trans_nil (hdirty _)⟩) hstep
      · simp at hstep
  | retract h pg =>
      simp only [step] at hstep
      split at hstep
      · exact onEntry_inv hs (fun e => ⟨_, (extends_retractPage e pg).trans_nil (hdirty _)⟩) hstep
      · simp at hstep
  | setPinned h p => exact onEntry_inv hs (fun e => ⟨_, extends_setPinned e p⟩) hstep
  | begin h => exact begin_inv hs hstep
  | commit h ok => exact commit_inv hl hs hstep
  | finish h => exact finish_inv hs hstep

theorem init_inv (hbase : ∀ m, base = some m → g.Describes m) : Inv g base (init base) where
  describes := hbase
  mirrors m hm := by
    have hm' : base = some m := hm
    subst hm'
    exact ⟨fun _ _ => rfl, rfl⟩
  empty hnone := ⟨hnone, rfl⟩
  peer h p hp := by simp [init] at hp

end SidecarSys

/-- A two-page file. -/
def smallGeneration : Generation where
  key := [102]
  validators := { originSize := 8192 }
  pageSize := 4096
  valid := by decide

/-- A file of 2 TiB in 4 KiB pages: its sidecar image is larger than `load` accepts. -/
def wideGeneration : Generation where
  key := [102]
  validators := { originSize := 2 ^ 41 }
  pageSize := 4096
  valid := by decide

end UCache
