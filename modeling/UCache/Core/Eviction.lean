/-
Module: UCache.Core.Eviction
Purpose: One pass of eviction over the object directory: what a scan counts, which entries are
  taken and in which order, and when a pass that ends above its target has left an entry it could
  have taken.
Trusted boundary: none
Main exports: DirEntry, evictNow_meets_iff, crash_leftover_blocks_eviction
-/
import Mathlib.Data.List.Sort
import UCache.Core.SlotStore

namespace UCache

/-! ### The object directory -/

/-- What `loadSummary` reads of a sidecar. -/
structure MetaSummary where
  atime : Nat
  cachedBytes : Nat
  pinned : Bool := false
deriving DecidableEq, Repr

/-- A `.meta` file: missing, there but not readable, or read. -/
inductive SidecarFile where
  | missing
  | torn
  | ok (m : MetaSummary)
deriving DecidableEq, Repr

/-- [SRC CacheStore.h] The files kept beside an entry's pages. -/
inductive Artifact where
  | tdata
  | tmeta
  | tok
  | val
  | cost
  | slots
deriving DecidableEq, Repr

/-- The files of one hash: `.data`, `.meta`, and the sizes of the artifacts that exist. -/
structure DirEntry where
  hash : Nat
  data : Bool := true
  sidecar : SidecarFile
  artifact : Artifact → Option Nat := fun _ => none

/-- The files of a cache's object directory; a name stands for one file. -/
structure ObjectDir where
  entries : List DirEntry
  nodup : (entries.map DirEntry.hash).Nodup

/-- [SRC CacheStore.cc:291-353] What a scan knows of an entry. -/
structure MetaScan where
  hash : Nat
  atime : Nat
  cachedBytes : Nat
  replicaBytes : Nat
  pinned : Bool
  artifacts : List Artifact
deriving DecidableEq, Repr

def MetaScan.bytes (s : MetaScan) : Nat := s.cachedBytes + s.replicaBytes

def Artifact.all : List Artifact := [.tdata, .tmeta, .tok, .val, .cost, .slots]

namespace DirEntry

/-- The space of the replica overlay and of a slot store longer than its header. -/
def replicaBytes (e : DirEntry) : Nat :=
  (e.artifact .tdata).getD 0 +
    match e.artifact .slots with
    | some n => if SlotStore.kHeaderBytes < n then n else 0
    | none => 0

/-- Only a sidecar that can be read makes an entry. -/
def toScan (e : DirEntry) : Option MetaScan :=
  match e.sidecar with
  | .ok m =>
      some
        { hash := e.hash
          atime := m.atime
          cachedBytes := m.cachedBytes
          replicaBytes := e.replicaBytes
          pinned := m.pinned
          artifacts := Artifact.all.filter fun a => (e.artifact a).isSome }
  | _ => none

/-- The entry after the first `k` unlinks of its eviction: data, sidecar, then the artifacts the
scan saw. -/
def unlinked (e : DirEntry) (k : Nat) : DirEntry :=
  { e with
    data := e.data && decide (k = 0)
    sidecar := if k < 2 then e.sidecar else .missing
    artifact := fun a => if a ∈ Artifact.all.take (k - 2) then none else e.artifact a }

/-- Its sidecar is marked as pinned. -/
def isPinned (e : DirEntry) : Bool :=
  match e.sidecar with
  | .ok m => m.pinned
  | _ => false

end DirEntry

/-- All six artifacts, the data file and the sidecar. -/
def kAllUnlinks : Nat := 8

/-- [SRC CacheStore.cc:355-389] -/
def scanObjects (entries : List DirEntry) : List MetaScan := entries.filterMap DirEntry.toScan

/-- [SRC CacheStore.cc:391-396] -/
def usageBytes (scans : List MetaScan) : Nat := (scans.map MetaScan.bytes).sum

/-- Apply the unlinks of an eviction to the entry of a hash. -/
def removeEntry (entries : List DirEntry) (hash : Nat) : List DirEntry :=
  entries.map fun e => if e.hash = hash then e.unlinked kAllUnlinks else e

def hasData (entries : List DirEntry) (hash : Nat) : Bool :=
  entries.any fun e => decide (e.hash = hash) && e.data

/-- The pin read again from the sidecar, just before the unlinks. -/
def pinnedNow (entries : List DirEntry) (hash : Nat) : Bool :=
  entries.any fun e => decide (e.hash = hash) && e.isPinned

/-! ### A pass -/

/-- `std::sort` by access time: some order of the scan that is ascending. -/
structure AtimeSort where
  run : List MetaScan → List MetaScan
  perm : ∀ l, (run l).Perm l
  sorted : ∀ l, (run l).Pairwise fun a b => a.atime ≤ b.atime

/-- What a pass is run with.  `byteTarget` is `lowWater * maxBytes`, `space` the free space when a
floor is set and could be read, and `live` the entries open in this process. -/
structure EvictParams where
  maxBytes : Nat
  byteTarget : Nat
  minFreeBytes : Nat := 0
  space : Option Nat := none
  evictProtectSeconds : Nat := 0
  now : Nat
  live : Nat → Bool := fun _ => false
  /-- An artifact is old enough to be swept. -/
  old : Nat → Artifact → Bool := fun _ _ => false
  order : AtimeSort

namespace EvictParams

def resumeFree (p : EvictParams) : Nat := p.minFreeBytes + p.minFreeBytes / 10

/-- [SRC CacheStore.cc:472-478] -/
def needEvict (p : EvictParams) (usage avail : Nat) : Bool :=
  (decide (p.maxBytes ≠ 0) && decide (p.byteTarget < usage)) ||
    (p.space.isSome && decide (avail < p.resumeFree))

/-- [SRC CacheStore.cc:484-488] -/
def protectCutoff (p : EvictParams) : Nat :=
  if p.evictProtectSeconds ≠ 0 ∧ p.evictProtectSeconds < p.now then p.now - p.evictProtectSeconds
  else 0

/-- Inside the protection window. -/
def isProtected (p : EvictParams) (s : MetaScan) : Bool :=
  decide (p.protectCutoff ≠ 0) && decide (p.protectCutoff ≤ s.atime)

/-- Neither pinned, nor open here, nor inside the protection window. -/
def eligible (p : EvictParams) (s : MetaScan) : Bool :=
  !s.pinned && !p.live s.hash && !p.isProtected s

end EvictParams

/-- Where a pass stands. -/
structure EvictRun where
  entries : List DirEntry
  usage : Nat
  avail : Nat
  victims : List MetaScan := []

/-- [SRC CacheStore.cc:495-537] One entry of the scan. -/
def evictOne (p : EvictParams) (st : EvictRun) (s : MetaScan) : EvictRun :=
  if s.pinned || p.live s.hash then st
  else if p.isProtected s then st
  else if pinnedNow st.entries s.hash then st
  -- Only what was actually removed is credited.
  else if !hasData st.entries s.hash then st
  else
    { entries := removeEntry st.entries s.hash
      usage := st.usage - min st.usage s.bytes
      avail := st.avail + s.bytes
      victims := st.victims ++ [s] }

def evictLoop (p : EvictParams) : List MetaScan → EvictRun → EvictRun
  | [], st => st
  | s :: rest, st =>
      if p.needEvict st.usage st.avail then evictLoop p rest (evictOne p st s) else st

/-- [SRC CacheStore.cc:751-799] Old artifacts of an entry without a sidecar file go. -/
def sweepReplicaOrphans (p : EvictParams) (entries : List DirEntry) : List DirEntry :=
  entries.map fun e =>
    if e.sidecar = .missing then
      { e with artifact := fun a => if p.old e.hash a then none else e.artifact a }
    else e

/-- Where a pass begins: its scan and the free space. -/
def EvictParams.start (p : EvictParams) (dir : ObjectDir) : EvictRun where
  entries := dir.entries
  usage := usageBytes (scanObjects dir.entries)
  avail := p.space.getD 0

/-- [SRC CacheStore.cc:419-560] A pass that has the lock, from the directory as it is once the
entries open here are flushed. -/
def evictNow (p : EvictParams) (dir : ObjectDir) : EvictRun :=
  let st := evictLoop p (p.order.run (scanObjects dir.entries)) (p.start dir)
  { st with entries := sweepReplicaOrphans p st.entries }

/-! ### Scans after a removal -/

variable {entries : List DirEntry} {s : MetaScan}

theorem toScan_hash {e : DirEntry} (h : e.toScan = some s) : s.hash = e.hash := by
  unfold DirEntry.toScan at h
  split at h
  · cases h
    rfl
  · cases h

theorem toScan_pinned {e : DirEntry} (h : e.toScan = some s) : s.pinned = e.isPinned := by
  unfold DirEntry.toScan at h
  unfold DirEntry.isPinned
  split at h
  · cases h
    rfl
  · cases h

theorem toScan_unlinked (e : DirEntry) : (e.unlinked kAllUnlinks).toScan = none := rfl

/-- A scan after a removal counts the rest. -/
theorem scan_removeEntry (entries : List DirEntry) (hash : Nat) :
    scanObjects (removeEntry entries hash) =
      (scanObjects entries).filter fun s => decide (s.hash ≠ hash) := by
  unfold scanObjects removeEntry
  induction entries with
  | nil => rfl
  | cons e rest ih =>
      rw [List.map_cons, List.filterMap_cons, List.filterMap_cons, ih]
      by_cases he : e.hash = hash
      · rw [if_pos he, toScan_unlinked]
        cases hs : e.toScan with
        | none => rfl
        | some s =>
            have := toScan_hash hs
            simp [this, he]
      · rw [if_neg he]
        cases hs : e.toScan with
        | none => rfl
        | some s =>
            have := toScan_hash hs
            simp [this, he]

/-- Sweeping leaves what a scan counts. -/
theorem scan_sweep (p : EvictParams) (entries : List DirEntry) :
    scanObjects (sweepReplicaOrphans p entries) = scanObjects entries := by
  unfold scanObjects sweepReplicaOrphans
  induction entries with
  | nil => rfl
  | cons e rest ih =>
      rw [List.map_cons, List.filterMap_cons, List.filterMap_cons, ih]
      by_cases he : e.sidecar = .missing
      · rw [if_pos he]
        simp [DirEntry.toScan, he]
      · rw [if_neg he]

theorem hasData_removeEntry {hash h : Nat} (hne : h ≠ hash) :
    hasData (removeEntry entries hash) h = hasData entries h := by
  unfold hasData removeEntry
  rw [List.any_map]
  congr 1
  funext e
  by_cases he : e.hash = hash
  · have hn : e.hash ≠ h := by
      rintro rfl
      exact hne he
    simp [he, Ne.symm hne, DirEntry.unlinked]
  · simp [he]

theorem pinnedNow_removeEntry {hash h : Nat} (hne : h ≠ hash) :
    pinnedNow (removeEntry entries hash) h = pinnedNow entries h := by
  unfold pinnedNow removeEntry
  rw [List.any_map]
  congr 1
  funext e
  by_cases he : e.hash = hash
  · simp [he, Ne.symm hne, DirEntry.unlinked]
  · simp [he]

/-- The pin read again is the one the scan saw: one name, one file. -/
theorem pinnedNow_scan (hnodup : (entries.map DirEntry.hash).Nodup) (hs : s ∈ scanObjects entries) :
    pinnedNow entries s.hash = s.pinned := by
  unfold scanObjects at hs
  obtain ⟨e, he, hes⟩ := List.mem_filterMap.1 hs
  rw [toScan_pinned hes, toScan_hash hes]
  unfold pinnedNow
  have huniq : ∀ e' ∈ entries, e'.hash = e.hash → e' = e := by
    intro e' he' hh
    exact List.inj_on_of_nodup_map hnodup he' he hh
  cases hp : e.isPinned with
  | true => exact List.any_eq_true.2 ⟨e, he, by simp [hp]⟩
  | false =>
      apply List.any_eq_false.2
      intro e' he'
      by_cases hh : e'.hash = e.hash
      · rw [huniq e' he' hh]
        simp [hp]
      · simp [hh]

theorem scan_nodup (h : (entries.map DirEntry.hash).Nodup) :
    ((scanObjects entries).map MetaScan.hash).Nodup := by
  have hsub : ((scanObjects entries).map MetaScan.hash).Sublist (entries.map DirEntry.hash) := by
    unfold scanObjects
    clear h
    induction entries with
    | nil => exact List.Sublist.refl _
    | cons e rest ih =>
        rw [List.filterMap_cons, List.map_cons]
        cases hs : e.toScan with
        | none => exact ih.cons _
        | some s =>
            rw [List.map_cons, toScan_hash hs]
            exact ih.cons_cons _
  exact h.sublist hsub

/-- Removing an entry takes its bytes off the usage. -/
theorem usage_filter {l : List MetaScan} (h : (l.map MetaScan.hash).Nodup) (hs : s ∈ l) :
    usageBytes (l.filter fun t => decide (t.hash ≠ s.hash)) + s.bytes = usageBytes l := by
  induction l with
  | nil => cases hs
  | cons t rest ih =>
      rw [List.map_cons, List.nodup_cons] at h
      obtain rfl | hmem := List.mem_cons.1 hs
      · have hkeep : rest.filter (fun u => decide (u.hash ≠ s.hash)) = rest := by
          rw [List.filter_eq_self]
          intro u hu
          have : u.hash ≠ s.hash := by
            intro heq
            exact h.1 (List.mem_map.2 ⟨u, hu, heq⟩)
          simpa using this
        simp only [ne_eq, not_true_eq_false, decide_false, List.filter_cons,
          Bool.false_eq_true, if_false]
        simp only [ne_eq] at hkeep
        rw [hkeep]
        simp [usageBytes, Nat.add_comm]
      · have hne : t.hash ≠ s.hash := by
          intro heq
          exact h.1 (List.mem_map.2 ⟨s, hmem, heq.symm⟩)
        have hrest := ih h.2 hmem
        rw [List.filter_cons_of_pos (by simpa using hne)]
        simp only [usageBytes, List.map_cons, List.sum_cons] at hrest ⊢
        omega

/-! ### What a pass takes -/

variable {p : EvictParams} {dir : ObjectDir}

/-- Entries a pass could take: eligible, with a data file to unlink. -/
def takeable (p : EvictParams) (dir : ObjectDir) (s : MetaScan) : Bool :=
  p.eligible s && hasData dir.entries s.hash

/-- Each victim is taken while the target is not met. -/
def Needed (p : EvictParams) : Nat → Nat → List MetaScan → Prop
  | _, _, [] => True
  | usage, avail, v :: rest =>
      p.needEvict usage avail = true ∧ Needed p (usage - v.bytes) (avail + v.bytes) rest

/-- What holds of a pass at every moment. -/
structure EvictRunOk (dir : ObjectDir) (st : EvictRun) : Prop where
  scan : scanObjects st.entries =
    (scanObjects dir.entries).filter fun s => decide (s.hash ∉ st.victims.map MetaScan.hash)
  usage : st.usage = usageBytes (scanObjects st.entries)
  same : ∀ h, h ∉ st.victims.map MetaScan.hash →
    hasData st.entries h = hasData dir.entries h ∧ pinnedNow st.entries h = pinnedNow dir.entries h

theorem evictRunOk_start (p : EvictParams) (dir : ObjectDir) : EvictRunOk dir (p.start dir) := by
  refine ⟨?_, rfl, fun _ _ => ⟨rfl, rfl⟩⟩
  simp [EvictParams.start]

/-- An entry that is not taken leaves everything as it is. -/
theorem evictOne_skip {st : EvictRun} (h : EvictRunOk dir st)
    (hfresh : s.hash ∉ st.victims.map MetaScan.hash) (htake : takeable p dir s = false) :
    evictOne p st s = st := by
  unfold takeable EvictParams.eligible at htake
  unfold evictOne
  split
  · rfl
  rename_i hpin
  split
  · rfl
  rename_i hprot
  split
  · rfl
  rw [(h.same s.hash hfresh).1]
  split
  · rfl
  rename_i hdata
  simp only [Bool.or_eq_true, not_or, Bool.not_eq_true] at hpin
  simp [hpin.1, hpin.2, hprot] at htake
  simp [htake] at hdata

/-- An entry that can be taken is removed with everything it has. -/
theorem evictOne_take {st : EvictRun} (h : EvictRunOk dir st) (hs : s ∈ scanObjects dir.entries)
    (hfresh : s.hash ∉ st.victims.map MetaScan.hash) (htake : takeable p dir s = true) :
    evictOne p st s =
      { entries := removeEntry st.entries s.hash
        usage := st.usage - s.bytes
        avail := st.avail + s.bytes
        victims := st.victims ++ [s] } := by
  simp only [takeable, EvictParams.eligible, Bool.and_eq_true, Bool.not_eq_true'] at htake
  obtain ⟨⟨⟨hpin, hlive⟩, hprot⟩, hdata⟩ := htake
  have hnow : pinnedNow st.entries s.hash = false := by
    rw [(h.same s.hash hfresh).2, pinnedNow_scan dir.nodup hs, hpin]
  unfold evictOne
  rw [if_neg (by simp [hpin, hlive]), if_neg (by simp [hprot]), if_neg (by simp [hnow]),
    if_neg (by simp [(h.same s.hash hfresh).1, hdata])]
  congr 1
  omega

theorem evictRunOk_take {st : EvictRun} (h : EvictRunOk dir st) (hs : s ∈ scanObjects dir.entries)
    (hfresh : s.hash ∉ st.victims.map MetaScan.hash) (htake : takeable p dir s = true) :
    EvictRunOk dir (evictOne p st s) := by
  rw [evictOne_take h hs hfresh htake]
  have hmem : s ∈ scanObjects st.entries := by
    rw [h.scan]
    exact List.mem_filter.2 ⟨hs, by simpa using hfresh⟩
  have hnodup : ((scanObjects st.entries).map MetaScan.hash).Nodup := by
    rw [h.scan]
    exact (scan_nodup dir.nodup).sublist (List.filter_sublist.map _)
  refine ⟨?_, ?_, ?_⟩
  · rw [scan_removeEntry, h.scan, List.filter_filter]
    congr 1
    funext t
    rw [Bool.eq_iff_iff]
    simp only [List.map_append, List.mem_append, List.map_cons, List.map_nil, List.mem_singleton,
      Bool.and_eq_true, decide_eq_true_eq, not_or]
    exact and_comm
  · show st.usage - s.bytes = _
    rw [scan_removeEntry, h.usage, ← usage_filter hnodup hmem]
    omega
  · intro t ht
    simp only [List.map_append, List.mem_append, List.map_cons, List.map_nil, List.mem_singleton,
      not_or] at ht
    rw [hasData_removeEntry ht.2, pinnedNow_removeEntry ht.2]
    exact h.same t ht.1

/-- [SRC CacheStore.cc:495-537] The loop takes a first stretch of what can be taken, each while the
target is not met, and all of it when the target is not reached. -/
theorem evictLoop_spec {p : EvictParams} {dir : ObjectDir} {todo : List MetaScan} {st : EvictRun}
    (h : EvictRunOk dir st) (hmem : ∀ s ∈ todo, s ∈ scanObjects dir.entries)
    (hfresh : ∀ s ∈ todo, s.hash ∉ st.victims.map MetaScan.hash)
    (hnodup : (todo.map MetaScan.hash).Nodup) :
    EvictRunOk dir (evictLoop p todo st) ∧
      ∃ vs, (evictLoop p todo st).victims = st.victims ++ vs ∧ vs <+: todo.filter (takeable p dir) ∧
        Needed p st.usage st.avail vs ∧
          (evictLoop p todo st).avail = st.avail + usageBytes vs ∧
            (evictLoop p todo st).usage = st.usage - usageBytes vs ∧
              (p.needEvict (evictLoop p todo st).usage (evictLoop p todo st).avail = true →
                vs = todo.filter (takeable p dir)) := by
  induction todo generalizing st with
  | nil =>
      refine ⟨h, [], by simp [evictLoop], List.nil_prefix, trivial, ?_, ?_, fun _ => rfl⟩
      · simp [evictLoop, usageBytes]
      · simp [evictLoop, usageBytes]
  | cons s rest ih =>
      rw [List.map_cons, List.nodup_cons] at hnodup
      have hs := hmem s (by simp)
      have hsf := hfresh s (by simp)
      unfold evictLoop
      by_cases hneed : p.needEvict st.usage st.avail = true
      · rw [if_pos hneed]
        by_cases htake : takeable p dir s = true
        · have hok := evictRunOk_take h hs hsf htake
          have heq := evictOne_take h hs hsf htake
          obtain ⟨hrun, vs, hv, hpre, hn, ha, hu, hall⟩ := ih hok
            (fun t ht => hmem t (by simp [ht])) (by
              intro t ht
              rw [heq]
              simp only [List.map_append, List.mem_append, List.map_cons, List.map_nil,
                List.mem_singleton, not_or]
              refine ⟨hfresh t (by simp [ht]), ?_⟩
              intro hts
              exact hnodup.1 (List.mem_map.2 ⟨t, ht, hts⟩)) hnodup.2
          refine ⟨hrun, s :: vs, ?_, ?_, ?_, ?_, ?_, ?_⟩
          · rw [hv, heq]
            simp
          · rw [List.filter_cons_of_pos htake]
            exact (List.prefix_cons_inj s).2 hpre
          · rw [heq] at hn
            exact ⟨hneed, hn⟩
          · rw [ha, heq]
            simp [usageBytes, Nat.add_assoc]
          · rw [hu, heq]
            simp only [usageBytes, List.map_cons, List.sum_cons]
            omega
          · intro hstill
            rw [List.filter_cons_of_pos htake, hall hstill]
        · have hskip := evictOne_skip h hsf (by simpa using htake)
          rw [hskip, List.filter_cons_of_neg htake]
          exact ih h (fun t ht => hmem t (by simp [ht])) (fun t ht => hfresh t (by simp [ht]))
            hnodup.2
      · rw [if_neg hneed]
        refine ⟨h, [], by simp, List.nil_prefix, trivial, ?_, ?_, ?_⟩
        · simp [usageBytes]
        · simp [usageBytes]
        · intro hstill
          exact absurd hstill hneed

/-! ### When a pass does what it is for -/

/-- The byte target (none without a budget) and the free-space floor are met. -/
def TargetMet (p : EvictParams) (usage avail : Nat) : Prop :=
  (p.maxBytes ≠ 0 → usage ≤ p.byteTarget) ∧ (p.space.isSome = true → p.resumeFree ≤ avail)

theorem targetMet_iff {usage avail : Nat} :
    TargetMet p usage avail ↔ p.needEvict usage avail = false := by
  simp only [TargetMet, EvictParams.needEvict, Bool.or_eq_false_iff, Bool.and_eq_false_iff,
    decide_eq_false_iff_not, not_lt]
  constructor
  · rintro ⟨h1, h2⟩
    refine ⟨?_, ?_⟩
    · by_cases h : p.maxBytes = 0
      · simp [h]
      · exact Or.inr (h1 h)
    · cases h : p.space.isSome with
      | true => exact Or.inr (h2 h)
      | false => exact Or.inl rfl
  · rintro ⟨h1, h2⟩
    refine ⟨?_, ?_⟩
    · intro hne
      exact h1.resolve_left (by simpa using hne)
    · intro hsome
      exact h2.resolve_left (by simp [hsome])

/-- Freeing more never takes a target away. -/
theorem TargetMet.mono {usage avail usage' avail' : Nat} (h : TargetMet p usage avail)
    (hu : usage' ≤ usage) (ha : avail ≤ avail') : TargetMet p usage' avail' :=
  ⟨fun hne => Nat.le_trans hu (h.1 hne), fun hsome => Nat.le_trans (h.2 hsome) ha⟩

/-- What a pass is for: on return the target is met, or nothing a scan counts could have been taken;
its victims are eligible, oldest first with none passed over, and none is taken once the target is
met. -/
structure EvictionMeets (p : EvictParams) (dir : ObjectDir) : Prop where
  counted : (evictNow p dir).usage = usageBytes (scanObjects (evictNow p dir).entries)
  target : TargetMet p (evictNow p dir).usage (evictNow p dir).avail ∨
    ∀ s ∈ scanObjects (evictNow p dir).entries, p.eligible s = false
  ascending : (evictNow p dir).victims.Pairwise fun a b => a.atime ≤ b.atime
  chosen : (evictNow p dir).victims <+:
    (p.order.run (scanObjects dir.entries)).filter (takeable p dir)
  needed : Needed p (p.start dir).usage (p.start dir).avail (evictNow p dir).victims

/-- The entries a pass could take, oldest first. -/
def takeables (p : EvictParams) (dir : ObjectDir) : List MetaScan :=
  (p.order.run (scanObjects dir.entries)).filter (takeable p dir)

/-- What a pass leaves. -/
structure PassOk (p : EvictParams) (dir : ObjectDir) : Prop where
  scan : scanObjects (evictNow p dir).entries = (scanObjects dir.entries).filter fun s =>
    decide (s.hash ∉ (evictNow p dir).victims.map MetaScan.hash)
  counted : (evictNow p dir).usage = usageBytes (scanObjects (evictNow p dir).entries)
  chosen : (evictNow p dir).victims <+: takeables p dir
  needed : Needed p (p.start dir).usage (p.start dir).avail (evictNow p dir).victims
  avail : (evictNow p dir).avail = (p.start dir).avail + usageBytes (evictNow p dir).victims
  usage : (evictNow p dir).usage = (p.start dir).usage - usageBytes (evictNow p dir).victims
  all : ¬ TargetMet p (evictNow p dir).usage (evictNow p dir).avail →
    (evictNow p dir).victims = takeables p dir

theorem evictNow_spec (p : EvictParams) (dir : ObjectDir) : PassOk p dir := by
  have hperm := p.order.perm (scanObjects dir.entries)
  obtain ⟨hrun, vs, hv, hpre, hn, ha, hu, hall⟩ :=
    @evictLoop_spec p dir (p.order.run (scanObjects dir.entries)) (p.start dir) (evictRunOk_start p dir)
      (fun s hs => hperm.subset hs) (fun _ _ => by simp [EvictParams.start])
        ((hperm.map MetaScan.hash).nodup_iff.2 (scan_nodup dir.nodup))
  have hvs : (evictNow p dir).victims = vs := hv
  refine ⟨?_, ?_, ?_, ?_, ?_, ?_, ?_⟩
  · show scanObjects (sweepReplicaOrphans p _) = _
    rw [scan_sweep, hrun.scan]
    rfl
  · show (evictLoop p _ _).usage = usageBytes (scanObjects (sweepReplicaOrphans p _))
    rw [scan_sweep]
    exact hrun.usage
  · rw [hvs]
    exact hpre
  · rw [hvs]
    exact hn
  · rw [hvs]
    exact ha
  · rw [hvs]
    exact hu
  · intro hnot
    rw [hvs]
    rw [targetMet_iff, Bool.not_eq_false] at hnot
    exact hall hnot

theorem usage_prefix {a b : List MetaScan} (h : a <+: b) : usageBytes a ≤ usageBytes b := by
  obtain ⟨c, rfl⟩ := h
  simp [usageBytes]

theorem mem_takeables :
    s ∈ takeables p dir ↔ s ∈ scanObjects dir.entries ∧ p.eligible s = true ∧
      hasData dir.entries s.hash = true := by
  simp only [takeables, List.mem_filter, takeable, Bool.and_eq_true,
    (p.order.perm (scanObjects dir.entries)).mem_iff]

/-- [SRC CacheStore.cc:510-515] A pass does what it is for exactly when every counted entry that is
neither pinned, open nor protected has its data file, or the others are enough. -/
theorem evictNow_meets_iff (p : EvictParams) (dir : ObjectDir) :
    EvictionMeets p dir ↔
      (∀ s ∈ scanObjects dir.entries, p.eligible s = true → hasData dir.entries s.hash = true) ∨
        TargetMet p (usageBytes (scanObjects dir.entries) - usageBytes (takeables p dir))
          (p.space.getD 0 + usageBytes (takeables p dir)) := by
  have hpass := evictNow_spec p dir
  have hinj : ∀ {s t : MetaScan}, s ∈ scanObjects dir.entries → t ∈ scanObjects dir.entries →
      s.hash = t.hash → s = t := fun hs ht => List.inj_on_of_nodup_map (scan_nodup dir.nodup) hs ht
  have hleft : ∀ s, s ∈ scanObjects (evictNow p dir).entries ↔
      s ∈ scanObjects dir.entries ∧ s ∉ (evictNow p dir).victims := by
    intro s
    rw [hpass.scan, List.mem_filter]
    refine and_congr_right ?_
    intro hs
    simp only [List.mem_map, decide_eq_true_eq, not_exists, not_and]
    constructor
    · intro h hv
      exact h s hv rfl
    · intro hv t ht heq
      have htmem := (mem_takeables.1 (hpass.chosen.subset ht)).1
      rw [hinj htmem hs heq] at ht
      exact hv ht
  constructor
  · intro h
    by_cases hmet : TargetMet p (evictNow p dir).usage (evictNow p dir).avail
    · right
      have hle := usage_prefix hpass.chosen
      rw [hpass.usage, hpass.avail] at hmet
      apply hmet.mono
      · simp only [EvictParams.start]
        omega
      · simp only [EvictParams.start]
        omega
    · left
      intro s hs helig
      by_contra hdata
      have hnotaken : s ∉ (evictNow p dir).victims := by
        rw [hpass.all hmet, mem_takeables]
        exact fun ht => hdata ht.2.2
      have := (h.target.resolve_left hmet) s ((hleft s).2 ⟨hs, hnotaken⟩)
      rw [helig] at this
      cases this
  · intro hcond
    refine ⟨hpass.counted, ?_, ?_, hpass.chosen, hpass.needed⟩
    · by_cases hmet : TargetMet p (evictNow p dir).usage (evictNow p dir).avail
      · exact Or.inl hmet
      · have hvs := hpass.all hmet
        obtain hdata | hfull := hcond
        · right
          intro s hs
          obtain ⟨hmem, hnot⟩ := (hleft s).1 hs
          cases helig : p.eligible s with
          | false => rfl
          | true =>
              rw [hvs, mem_takeables] at hnot
              exact absurd ⟨hmem, helig, hdata s hmem helig⟩ hnot
        · rw [hpass.usage, hpass.avail, hvs] at hmet
          exact absurd hfull hmet
    · have hsorted := p.order.sorted (scanObjects dir.entries)
      exact (hsorted.sublist List.filter_sublist).sublist hpass.chosen.sublist

/-- Entries by access time, ties in the order of the scan. -/
def byAtime : AtimeSort where
  run l := l.insertionSort fun a b => a.atime ≤ b.atime
  perm l := List.perm_insertionSort _ l
  sorted l := by
    have : Std.Total fun a b : MetaScan => a.atime ≤ b.atime := ⟨fun a b => Nat.le_total _ _⟩
    have : IsTrans MetaScan fun a b => a.atime ≤ b.atime := ⟨fun a b c => Nat.le_trans⟩
    exact List.pairwise_insertionSort _ l

/-- One entry whose eviction was cut short after its first unlink. -/
def crashLeftover : ObjectDir where
  entries := [({ hash := 0, sidecar := .ok { atime := 1, cachedBytes := 100 } } : DirEntry).unlinked 1]
  nodup := by simp

/-- [SRC CacheStore.cc:513-515] Its sidecar is counted for ever and never taken. -/
theorem crash_leftover_blocks_eviction :
    ¬ EvictionMeets { maxBytes := 50, byteTarget := 40, now := 10, order := byAtime }
      crashLeftover := by
  intro h
  obtain hmet | hnone := h.target
  · exact absurd (hmet.1 (by decide)) (by decide)
  · have hleft := hnone { hash := 0
                          atime := 1
                          cachedBytes := 100
                          replicaBytes := 0
                          pinned := false
                          artifacts := [] } (by decide)
    exact absurd hleft (by decide)

end UCache
