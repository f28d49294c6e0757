/-
Module: UCache.Core.CacheStore
Purpose: The registry of open entries of one process: opening a key shares the live entry, or goes
  to the sidecar on disk; what an entry that is returned was validated against.
Trusted boundary: none
Main exports: UrlKey, open_returns_validated, live_entry_not_validated
-/
import UCache.Core.Commits

namespace UCache

open Lib

/-! ### Entries of one process -/

/-- [SRC UrlKey.h:18-31] The normalized key, and the hash that names its files and its entry. -/
structure UrlKey where
  key : Bytes
  hashHex : Nat
deriving DecidableEq, Repr

/-- Where a call of `open` stands: past the look into the registry, or with an entry of its own. -/
inductive OpenCall where
  | admitting (key : UrlKey) (v : Validators)
  | registering (key : UrlKey) (v : Validators) (e : FileEntry)

/-- An entry that `open` returned, and what it was asked for. -/
structure Returned where
  key : UrlKey
  v : Validators
  e : FileEntry

/-- The registry holds weak references: `entries` are those some handle still holds.  `returned` is
not the program's: it keeps what each `open` returned. -/
structure EntryStore where
  registry : Nat → Option Nat := fun _ => none
  entries : Nat → Option FileEntry := fun _ => none
  sidecar : Nat → Option MetaData := fun _ => none
  calls : Nat → Option OpenCall := fun _ => none
  next : Nat := 0
  returned : List Returned := []

inductive EntryStoreAct where
  /-- A call of `open` looks into the registry. -/
  | open (t : Nat) (key : UrlKey) (v : Validators)
  /-- It goes on to the disk: nothing when the entry is declined or an I/O step fails; `stored` is
  whether a fresh sidecar could be stored. -/
  | admission (t : Nat) (ok : Bool) (now : Nat) (stored : Bool)
  /-- It registers its entry. -/
  | register (t : Nat)
  | invalidate (key : UrlKey)
  /-- The last handle of an entry lets it go. -/
  | release (id : Nat)
  /-- A thread takes one step of its work with an entry, over the disk as it finds it. -/
  | work (id : Nat) (fr : Frame) (c : Choice) (d : Disk)
  /-- The sidecar of a key changes: another process, or a flush. -/
  | disk (hash : Nat) (m : Option MetaData)

namespace EntryStore

/-- The entry that a key finds in the registry, when it is still alive. -/
def live (s : EntryStore) (key : UrlKey) : Option FileEntry :=
  (s.registry key.hashHex).bind s.entries

def answer (s : EntryStore) (t : Nat) (key : UrlKey) (v : Validators) (e : FileEntry) :
    EntryStore :=
  { s with
    calls := Function.update s.calls t none
    returned := { key := key, v := v, e := e } :: s.returned }

/-- [SRC FileEntry.cc:46-133] `FileEntry::open`, past its I/O: the sidecar on disk when it belongs to
this origin, else a fresh one. -/
def openEntry (cfg : Config) (key : UrlKey) (v : Validators) (now : Nat) (stored : Bool)
    (sidecar : Option MetaData) : FileEntry :=
  (FileEntry.openAdopt cfg key.key v sidecar).getD (FileEntry.openFresh cfg key.key v now stored)

/-- [SRC CacheStore.cc:162-244, 562-577] -/
def step (cfg : Config) (s : EntryStore) : EntryStoreAct → Option EntryStore
  | .open t key v =>
      match s.calls t with
      | some _ => none
      | none =>
          match s.live key with
          | some e => some (s.answer t key v e)
          | none =>
              some { s with
                registry := Function.update s.registry key.hashHex none
                calls := Function.update s.calls t (some (.admitting key v)) }
  | .admission t ok now stored =>
      match s.calls t with
      | some (.admitting key v) =>
          if ok then
            let e := openEntry cfg key v now stored (s.sidecar key.hashHex)
            some { s with calls := Function.update s.calls t (some (.registering key v e)) }
          else some { s with calls := Function.update s.calls t none }
      | _ => none
  | .register t =>
      match s.calls t with
      | some (.registering key v e) =>
          match s.live key with
          | some e' => some (s.answer t key v e')
          | none =>
              some { s.answer t key v e with
                registry := Function.update s.registry key.hashHex (some s.next)
                entries := Function.update s.entries s.next (some e)
                next := s.next + 1 }
      | _ => none
  | .invalidate key =>
      some { s with
        registry := Function.update s.registry key.hashHex none
        sidecar := Function.update s.sidecar key.hashHex none }
  | .release id => some { s with entries := Function.update s.entries id none }
  | .work id fr c d =>
      match s.entries id with
      | some e =>
          (fr.step c e d).map fun r =>
            { s with entries := Function.update s.entries id (some r.1) }
      | none => none
  | .disk hash m => some { s with sidecar := Function.update s.sidecar hash m }

end EntryStore

/-! ### What is returned -/

variable {cfg : Config}

/-- The entry has the size that was asked for, and `adoptable` accepts its metadata for it. -/
def Returned.Validated (cfg : Config) (r : Returned) : Prop :=
  r.e.meta_.fileSize = r.v.originSize ∧ adoptable r.e.meta_ cfg r.key.key r.v = true

/-- The metadata was recorded for this key and for validation data that agree, under the mode, with
what is given. -/
def recordedFor (cfg : Config) (m : MetaData) (key : UrlKey) (v : Validators) : Prop :=
  m.key = key.key ∧ m.fileSize = v.originSize ∧
    (cfg.validate = .sizeMtime → m.originMtime = v.originMtime) ∧
      (cfg.validate = .cksum → v.cksumKind ≠ MetaData.kCksumNone →
        m.cksumKind = v.cksumKind ∧ m.originCksum = v.originCksum)

/-- An `open` that finds a live entry finds one recorded for what it is given. -/
def FindsRecorded (cfg : Config) (s : EntryStore) : EntryStoreAct → Prop
  | .open _ key v => ∀ e, s.live key = some e → recordedFor cfg e.meta_ key v
  | .register t => ∀ key v own, s.calls t = some (.registering key v own) →
      ∀ e, s.live key = some e → recordedFor cfg e.meta_ key v
  | _ => True

/-- An entry whose page size is admitted and whose CRC table fits its pages. -/
def WellFormedEntry (e : FileEntry) : Prop :=
  Config.validPageSize e.meta_.pageSize = true ∧ e.meta_.npages = e.meta_.ncrcs

theorem adoptable_iff {e : FileEntry} (h : WellFormedEntry e) {key : UrlKey} {v : Validators} :
    adoptable e.meta_ cfg key.key v = true ↔ recordedFor cfg e.meta_ key v := by
  simp only [adoptable, recordedFor, Bool.and_eq_true, decide_eq_true_eq, Bool.or_eq_true, h.1, h.2]
  tauto

theorem validated_iff {r : Returned} (h : WellFormedEntry r.e) :
    r.Validated cfg ↔ recordedFor cfg r.e.meta_ r.key r.v := by
  unfold Returned.Validated
  rw [adoptable_iff h]
  exact ⟨fun hr => hr.2, fun hr => ⟨hr.2.1, hr⟩⟩

/-- What `FileEntry::open` gives is well formed and recorded for what was asked. -/
theorem openEntry_ok (hcfg : Config.validPageSize cfg.pageSize = true) (key : UrlKey)
    (v : Validators) (now : Nat) (stored : Bool) (sidecar : Option MetaData) :
    WellFormedEntry (EntryStore.openEntry cfg key v now stored sidecar) ∧
      recordedFor cfg (EntryStore.openEntry cfg key v now stored sidecar).meta_ key v := by
  unfold EntryStore.openEntry
  cases hopen : FileEntry.openAdopt cfg key.key v sidecar with
  | none =>
      refine ⟨⟨hcfg, rfl⟩, rfl, rfl, fun _ => rfl, fun _ _ => ⟨rfl, rfl⟩⟩
  | some e =>
      obtain ⟨m, -, hm⟩ := Option.bind_eq_some_iff.1 hopen
      split at hm
      · rename_i hadopt
        cases hm
        have hwf : WellFormedEntry (FileEntry.ofMeta cfg key.key m false) := by
          simp only [adoptable, Bool.and_eq_true, decide_eq_true_eq] at hadopt
          exact ⟨hadopt.1.1.1.2, hadopt.1.1.2⟩
        exact ⟨hwf, (adoptable_iff hwf).1 hadopt⟩
      · cases hm

namespace EntryStore

variable {s : EntryStore}

/-- Every entry in use is well formed, and one on its way into the registry is recorded for what its
call was given. -/
structure Ok (cfg : Config) (s : EntryStore) : Prop where
  entries : ∀ {id e}, s.entries id = some e → WellFormedEntry e
  calls : ∀ {t key v e}, s.calls t = some (.registering key v e) →
    WellFormedEntry e ∧ recordedFor cfg e.meta_ key v

theorem Ok.live (h : Ok cfg s) {key : UrlKey} {e : FileEntry} (he : s.live key = some e) :
    WellFormedEntry e := by
  obtain ⟨id, -, hid⟩ := Option.bind_eq_some_iff.1 he
  exact h.entries hid

/-- An entry is for the whole of its life what it was opened for. -/
theorem step_sameEntry {fr : Frame} {c : Choice} {e : FileEntry} {d : Disk}
    {r : FileEntry × Disk × List Frame} (hstep : fr.step c e d = some r) :
    r.1.meta_.validators = e.meta_.validators ∧ r.1.meta_.pageSize = e.meta_.pageSize ∧
      r.1.meta_.ncrcs = e.meta_.ncrcs := by
  have hcalm : Calm e d r → r.1.meta_.validators = e.meta_.validators ∧
      r.1.meta_.pageSize = e.meta_.pageSize ∧ r.1.meta_.ncrcs = e.meta_.ncrcs := by
    rintro ⟨⟨ts, hsec⟩, -, -, -⟩
    exact ⟨hsec.extends_.validators, hsec.extends_.pageSize, hsec.extends_.ncrcs⟩
  cases fr with
  | flushMeta force =>
      simp only [Frame.step, Frame.stepFlushMeta, Option.some.injEq] at hstep
      subst hstep
      split <;> exact ⟨rfl, rfl, rfl⟩
  | metaLoad f =>
      simp only [Frame.step, Frame.stepMetaLoad, Option.some.injEq] at hstep
      subst hstep
      split <;> exact ⟨rfl, rfl, rfl⟩
  | metaStore f out merged =>
      cases hstep
      exact ⟨rfl, rfl, rfl⟩
  | metaEnd f out merged ok =>
      cases hstep
      cases ok <;> cases merged <;> exact ⟨rfl, rfl, rfl⟩
  | _ => exact hcalm (Frame.step_calm rfl (by simp) hstep)

theorem wellFormed_step {fr : Frame} {c : Choice} {e : FileEntry} {d : Disk}
    {r : FileEntry × Disk × List Frame} (h : WellFormedEntry e) (hstep : fr.step c e d = some r) :
    WellFormedEntry r.1 := by
  obtain ⟨hval, hps, hn⟩ := step_sameEntry hstep
  have hsize : r.1.meta_.fileSize = e.meta_.fileSize := congrArg Validators.originSize hval
  refine ⟨by rw [hps]; exact h.1, ?_⟩
  rw [hn, ← h.2, MetaData.npages, MetaData.npages, hps, hsize]

theorem answer_returned {cfg : Config} {s : EntryStore} {i : Nat} {key : UrlKey} {v : Validators}
    {e : FileEntry} (he : WellFormedEntry e) :
    (∀ r ∈ (s.answer i key v e).returned, r.Validated cfg) ↔
      (∀ r ∈ s.returned, r.Validated cfg) ∧ recordedFor cfg e.meta_ key v := by
  simp only [answer, List.forall_mem_cons]
  rw [validated_iff (show WellFormedEntry (Returned.mk key v e).e from he), and_comm]

/-- A call that ends, or that goes on to the disk, leaves the other calls as they were. -/
theorem Ok.update_calls (h : Ok cfg s) (i : Nat) {c : Option OpenCall}
    (hc : ∀ {key v e}, c = some (.registering key v e) →
      WellFormedEntry e ∧ recordedFor cfg e.meta_ key v)
    {t key v e} (hcall : Function.update s.calls i c t = some (.registering key v e)) :
    WellFormedEntry e ∧ recordedFor cfg e.meta_ key v := by
  by_cases hi : t = i
  · subst hi
    rw [Function.update_self] at hcall
    exact hc hcall
  · rw [Function.update_of_ne hi] at hcall
    exact h.calls hcall

/-- The same for the table of live entries. -/
theorem Ok.update_entries (h : Ok cfg s) (i : Nat) {c : Option FileEntry}
    (hc : ∀ {e}, c = some e → WellFormedEntry e)
    {id e} (hid : Function.update s.entries i c id = some e) : WellFormedEntry e := by
  by_cases hi : id = i
  · subst hi
    rw [Function.update_self] at hid
    exact hc hid
  · rw [Function.update_of_ne hi] at hid
    exact h.entries hid

theorem Ok.answer (h : Ok cfg s) (i : Nat) (key : UrlKey) (v : Validators) (e : FileEntry) :
    Ok cfg (s.answer i key v e) :=
  ⟨h.entries, fun hcall => h.update_calls i (by simp) hcall⟩

/-- A step keeps the entries well formed and returns at most one entry: a validated one exactly when
it was recorded for what the call was given. -/
theorem step_ok (hcfg : Config.validPageSize cfg.pageSize = true) {t : EntryStore}
    {a : EntryStoreAct} (h : Ok cfg s) (hstep : s.step cfg a = some t) :
    Ok cfg t ∧ ((∀ r ∈ t.returned, r.Validated cfg) ↔
      (∀ r ∈ s.returned, r.Validated cfg) ∧ FindsRecorded cfg s a) := by
  cases a with
  | «open» i key v =>
      cases hi : s.calls i with
      | some c => simp [step, hi] at hstep
      | none =>
          cases hlive : s.live key with
          | some e =>
              obtain rfl : s.answer i key v e = t := by simpa [step, hi, hlive] using hstep
              refine ⟨h.answer i key v e, ?_⟩
              rw [answer_returned (h.live hlive)]
              simp [FindsRecorded, hlive]
          | none =>
              simp only [step, hi, hlive, Option.some.injEq] at hstep
              subst hstep
              refine ⟨⟨h.entries, fun hcall => h.update_calls i (by simp) hcall⟩, ?_⟩
              simp [FindsRecorded, hlive]
  | admission i ok now stored =>
      cases hi : s.calls i with
      | none => simp [step, hi] at hstep
      | some c =>
          cases c with
          | registering key v e => simp [step, hi] at hstep
          | admitting key v =>
              cases ok with
              | false =>
                  simp only [step, hi, Bool.false_eq_true, if_false, Option.some.injEq] at hstep
                  subst hstep
                  refine ⟨⟨h.entries, fun hcall => h.update_calls i (by simp) hcall⟩, ?_⟩
                  simp [FindsRecorded]
              | true =>
                  simp only [step, hi, if_true, Option.some.injEq] at hstep
                  subst hstep
                  -- the entry is the call's own: it was checked against what the call was given
                  have hown := openEntry_ok hcfg key v now stored (s.sidecar key.hashHex)
                  refine ⟨⟨h.entries, fun hcall => h.update_calls i ?_ hcall⟩, ?_⟩
                  · rintro _ _ _ ⟨⟩
                    exact hown
                  · simp [FindsRecorded]
  | register i =>
      cases hi : s.calls i with
      | none => simp [step, hi] at hstep
      | some c =>
          cases c with
          | admitting key v => simp [step, hi] at hstep
          | registering key v own =>
              cases hlive : s.live key with
              | some e =>
                  obtain rfl : s.answer i key v e = t := by simpa [step, hi, hlive] using hstep
                  refine ⟨h.answer i key v e, ?_⟩
                  rw [answer_returned (h.live hlive)]
                  refine and_congr_right fun _ => ⟨?_, fun hfind => hfind key v own hi e hlive⟩
                  rintro hrec key' v' own' hi' e' hlive'
                  cases hi.symm.trans hi'
                  cases hlive.symm.trans hlive'
                  exact hrec
              | none =>
                  simp only [step, hi, hlive, Option.some.injEq] at hstep
                  subst hstep
                  have hown := h.calls hi
                  refine ⟨⟨fun hid => h.update_entries s.next ?_ hid, (h.answer i key v own).calls⟩,
                    (@answer_returned cfg s i key v own hown.1).trans
                      (and_congr_right fun _ => ?_)⟩
                  · rintro _ ⟨⟩
                    exact hown.1
                  · refine ⟨?_, fun _ => hown.2⟩
                    rintro _ key' v' own' hi' e' hlive'
                    cases hi.symm.trans hi'
                    rw [hlive] at hlive'
                    cases hlive'
  | invalidate key =>
      cases hstep
      exact ⟨⟨h.entries, h.calls⟩, by simp [FindsRecorded]⟩
  | release id =>
      cases hstep
      exact ⟨⟨fun hid => h.update_entries id (by simp) hid, h.calls⟩, by simp [FindsRecorded]⟩
  | work id fr c d =>
      cases hid : s.entries id with
      | none => simp [step, hid] at hstep
      | some e =>
          simp only [step, hid] at hstep
          obtain ⟨r, hr, rfl⟩ := Option.map_eq_some_iff.1 hstep
          have hwf := wellFormed_step (h.entries hid) hr
          refine ⟨⟨fun hat => h.update_entries id ?_ hat, h.calls⟩, by simp [FindsRecorded]⟩
          rintro _ ⟨⟩
          exact hwf
  | disk hash m =>
      cases hstep
      exact ⟨⟨h.entries, h.calls⟩, by simp [FindsRecorded]⟩

/-- Over a run: what is returned is validated exactly when every `open` that finds a live entry finds
one recorded for what it is given. -/
theorem exec_validated (hcfg : Config.validPageSize cfg.pageSize = true) :
    ∀ {acts : List EntryStoreAct} {s t : EntryStore}, Ok cfg s →
      exec (step cfg) s acts = some t →
        ((∀ r ∈ t.returned, r.Validated cfg) ↔
          (∀ r ∈ s.returned, r.Validated cfg) ∧ Along (step cfg) (FindsRecorded cfg) s acts)
  | [], s, t, _, hrun => by
      cases hrun
      simp [Along]
  | a :: acts, s, t, h, hrun => by
      obtain ⟨m, hm, hrest⟩ := exec_cons_inv hrun
      obtain ⟨hok, hiff⟩ := step_ok hcfg h hm
      rw [exec_validated hcfg hok hrest, hiff, and_assoc]
      refine and_congr_right fun _ => and_congr_right fun _ => ⟨?_, fun halong => halong m hm⟩
      intro halong m' hm'
      cases hm.symm.trans hm'
      exact halong

end EntryStore

/-! ### Opens of one process -/

/-- A process that has opened nothing yet, over the sidecars on disk. -/
def EntryStore.start (sidecar : Nat → Option MetaData) : EntryStore := { sidecar := sidecar }

/-- In every run of opens, invalidations and releases of one process, every entry that `open` returns
has the size and the validation data it was given, exactly when every `open` that finds a live entry
in the registry finds one recorded for what it is given. -/
theorem open_returns_validated {cfg : Config} (hcfg : Config.validPageSize cfg.pageSize = true)
    (sidecar : Nat → Option MetaData) (acts : List EntryStoreAct) (t : EntryStore)
    (hrun : exec (EntryStore.step cfg) (EntryStore.start sidecar) acts = some t) :
    (∀ r ∈ t.returned, r.Validated cfg) ↔
      Along (EntryStore.step cfg) (FindsRecorded cfg) (EntryStore.start sidecar) acts := by
  have hok : EntryStore.Ok cfg (EntryStore.start sidecar) :=
    ⟨by simp [EntryStore.start], by simp [EntryStore.start]⟩
  rw [EntryStore.exec_validated hcfg hok hrun]
  simp [EntryStore.start]

/-- A process opens a file of 100 bytes, keeps the handle, and opens the same key again when the
origin has grown to `size`. -/
def reopenRun (size : Nat) : List EntryStoreAct :=
  [.open 1 ⟨[], 0⟩ { originSize := 100 }, .admission 1 true 0 true, .register 1,
    .open 2 ⟨[], 0⟩ { originSize := size }]

/-- The origin has not changed: the live entry was recorded for what the second open is given. -/
theorem open_returns_validated_reopened :
    ∃ t, exec (EntryStore.step {}) (EntryStore.start fun _ => none) (reopenRun 100) = some t ∧
      t.returned.length = 2 ∧ (∀ r ∈ t.returned, r.Validated {}) ∧
        Along (EntryStore.step {}) (FindsRecorded {}) (EntryStore.start fun _ => none)
          (reopenRun 100) := by
  have hobs : (exec (EntryStore.step {}) (EntryStore.start fun _ => none) (reopenRun 100)).map
      (fun s => decide (s.returned.length = 2) && s.returned.all fun r =>
        decide (r.e.meta_.fileSize = r.v.originSize) && adoptable r.e.meta_ {} r.key.key r.v) =
      some true := by decide +kernel
  obtain ⟨t, hrun, hobs⟩ := Option.map_eq_some_iff.1 hobs
  simp only [Bool.and_eq_true, decide_eq_true_eq, List.all_eq_true] at hobs
  have hvalid : ∀ r ∈ t.returned, r.Validated {} := hobs.2
  exact ⟨t, hrun, hobs.1, hvalid, (open_returns_validated (by decide) _ _ t hrun).1 hvalid⟩

/-- The second open is given the entry of 100 bytes for a file of 200. -/
theorem live_entry_not_validated :
    ∃ t, exec (EntryStore.step {}) (EntryStore.start fun _ => none) (reopenRun 200) = some t ∧
      ∃ r ∈ t.returned, r.v.originSize = 200 ∧ r.e.meta_.fileSize = 100 ∧ ¬ r.Validated {} := by
  have hobs : (exec (EntryStore.step {}) (EntryStore.start fun _ => none) (reopenRun 200)).map
      (fun s => s.returned.map fun r => (r.v.originSize, r.e.meta_.fileSize)) =
        some [(200, 100), (100, 100)] := by decide +kernel
  obtain ⟨t, hrun, hret⟩ := Option.map_eq_some_iff.1 hobs
  have hmem : (200, 100) ∈ t.returned.map fun r => (r.v.originSize, r.e.meta_.fileSize) := by
    simp [hret]
  obtain ⟨r, hr, hsize⟩ := List.mem_map.1 hmem
  obtain ⟨hasked, hgot⟩ := Prod.mk.injEq .. ▸ hsize
  refine ⟨t, hrun, r, hr, hasked, hgot, fun hvalid => ?_⟩
  have heq := hvalid.1
  rw [hasked, hgot] at heq
  cases heq

end UCache
