/-
Module: UCache.Core.BitAccesses
Purpose: The accesses each section makes to a bitmap, in the order of the source.  On bitmaps they
  amount to what the section does; on bytes every one of them is at a page of the file, and the
  bytes go on showing the bitmaps.
Trusted boundary: none
Main exports: Table, BitOp, Frame.bitOps
-/
import UCache.Core.PresenceSteps

namespace UCache

open Lib SidecarCodec

/-! ### Accesses -/

/-- The three bitmaps of a handle and the three a commit works on: the deltas it took and the image
it loaded or stored. -/
inductive Table where
  | present
  | setSince
  | clearedSince
  | sets
  | clears
  | image
deriving DecidableEq, Repr

/-- One call of a bitmap's `get`, `set`, `clear` or `clearAll`. -/
inductive BitOp where
  | get (t : Table) (i : Nat)
  | set (t : Table) (i : Nat)
  | clear (t : Table) (i : Nat)
  | clearAll (t : Table)
deriving DecidableEq, Repr

namespace BitOp

/-- The index, when there is one, is below `n`. -/
def Below (n : Nat) : BitOp → Prop
  | .get _ i => i < n
  | .set _ i => i < n
  | .clear _ i => i < n
  | .clearAll _ => True

/-- The access on bitmaps. -/
def apply (T : Table → PageBitmap) : BitOp → Table → PageBitmap
  | .get _ _ => T
  | .set t i => Function.update T t ((T t).set i)
  | .clear t i => Function.update T t ((T t).clear i)
  | .clearAll t => Function.update T t (T t).clearAll

/-- The access on the bytes the bitmaps are kept in; `none` when it leaves them. -/
def run (R : Table → RawBitmap) : BitOp → Option (Table → RawBitmap)
  | .get t i => ((R t).get? i).map fun _ => R
  | .set t i => ((R t).set? i).map fun b => Function.update R t b
  | .clear t i => ((R t).clear? i).map fun b => Function.update R t b
  | .clearAll t => some (Function.update R t (R t).clearAll)

end BitOp

/-- Bytes that show bitmaps of `n` pages whose counts are right. -/
structure HeldTables (n : Nat) (R : Table → RawBitmap) (T : Table → PageBitmap) : Prop where
  shows : ∀ t, (R t).Shows (T t)
  counted : ∀ t, (T t).Counted n

namespace HeldTables

variable {n : Nat} {R : Table → RawBitmap} {T : Table → PageBitmap}

theorem update (h : HeldTables n R T) (t : Table) {raw : RawBitmap} {b : PageBitmap}
    (hshows : raw.Shows b) (hb : b.Counted n) :
    HeldTables n (Function.update R t raw) (Function.update T t b) := by
  constructor
  · intro t'
    by_cases ht : t' = t
    · subst ht
      rw [Function.update_self, Function.update_self]
      exact hshows
    · rw [Function.update_of_ne ht, Function.update_of_ne ht]
      exact h.shows t'
  · intro t'
    by_cases ht : t' = t
    · subst ht
      rw [Function.update_self]
      exact hb
    · rw [Function.update_of_ne ht]
      exact h.counted t'

/-- An access below the pages never leaves the bytes, and they show what it does. -/
theorem run (h : HeldTables n R T) {op : BitOp} (hop : op.Below n) :
    ∃ R', op.run R = some R' ∧ HeldTables n R' (op.apply T) := by
  have hlt : ∀ t {i : Nat}, i < n → i < (T t).npages := fun t _ hi => (h.counted t).npages.symm ▸ hi
  cases op with
  | get t i =>
      refine ⟨R, ?_, h⟩
      rw [BitOp.run, (h.shows t).get? (hlt t hop), Option.map_some]
  | set t i =>
      obtain ⟨raw, hraw, hshows⟩ := (h.shows t).set? (hlt t hop)
      refine ⟨_, ?_, h.update t hshows ((h.counted t).set hop)⟩
      rw [BitOp.run, hraw, Option.map_some]
  | clear t i =>
      obtain ⟨raw, hraw, hshows⟩ := (h.shows t).clear? (h.counted t) (hlt t hop)
      refine ⟨_, ?_, h.update t hshows ((h.counted t).clear hop)⟩
      rw [BitOp.run, hraw, Option.map_some]
  | clearAll t => exact ⟨_, rfl, h.update t (h.shows t).clearAll (h.counted t).clearAll⟩

theorem exec {ops : List BitOp} (h : HeldTables n R T) (hops : ∀ op ∈ ops, op.Below n) :
    ∃ R', Lib.exec BitOp.run R ops = some R' ∧ HeldTables n R' (ops.foldl BitOp.apply T) := by
  induction ops generalizing R T with
  | nil => exact ⟨R, rfl, h⟩
  | cons op ops ih =>
      obtain ⟨R₁, hrun, h1⟩ := h.run (hops op (List.mem_cons_self ..))
      obtain ⟨R₂, hexec, h2⟩ := ih h1 fun op' hop => hops op' (List.mem_cons_of_mem _ hop)
      refine ⟨R₂, ?_, h2⟩
      rw [Lib.exec, hrun]
      exact hexec

end HeldTables

/-! ### The accesses of a section -/

/-- [SRC FileEntry.cc:147-152] -/
def publishOps (pg : Nat) : List BitOp :=
  [.set .present pg, .set .setSince pg, .clear .clearedSince pg]

/-- [SRC FileEntry.cc:154-159] -/
def retractOps (pg : Nat) : List BitOp :=
  [.clear .present pg, .set .clearedSince pg, .clear .setSince pg]

/-- [SRC FileEntry.cc:1233-1254] Pages of one span. -/
def releaseOps : FileEntry → List Nat → List BitOp
  | _, [] => []
  | e, i :: rest =>
      (.get .present i :: if e.meta_.bitmap.get i then retractOps i else []) ++
        releaseOps (e.releasePage i) rest

def spanOps : FileEntry → List (Nat × Nat) → List BitOp
  | _, [] => []
  | e, span :: rest =>
      releaseOps e (List.range' span.1 (span.2 - span.1)) ++ spanOps (e.releaseOne span) rest

/-- [SRC FileEntry.cc:392-435] A staged page is not asked for; an absent one ends the plan. -/
def planOps (e : FileEntry) : List Nat → List BitOp
  | [] => []
  | i :: rest =>
      if (e.staged i).isSome then planOps e rest
      else .get .present i :: if e.meta_.bitmap.get i then planOps e rest else []

/-- [SRC FileEntry.cc:1121-1129] -/
def mergeOps (f : MetaFlush) (i : Nat) : List BitOp :=
  .get .clears i ::
    if f.clears.get i then [.clear .image i]
    else .get .sets i :: if f.sets.get i then [.set .image i] else []

/-- [SRC FileEntry.cc:1154-1160] -/
def rearmOps (e : FileEntry) (f : MetaFlush) (i : Nat) : List BitOp :=
  let put := f.sets.get i && !e.clearedSince.get i
  (.get .sets i :: if f.sets.get i then [.get .clearedSince i] else []) ++
    (if put then [.set .setSince i] else []) ++
    (.get .clears i :: if f.clears.get i then [.get .setSince i] else []) ++
    (if f.clears.get i && !(put || e.setSince.get i) then [.set .clearedSince i] else [])

/-- [SRC FileEntry.cc:1171-1182] -/
def adoptOps (e : FileEntry) (out : MetaData) (i : Nat) : List BitOp :=
  .get .setSince i ::
    if e.setSince.get i then []
    else .get .clearedSince i ::
      if e.clearedSince.get i then []
      else [.get .image i, if out.bitmap.get i then .set .present i else .clear .present i]

/-- The accesses of the section a frame stands at. -/
def Frame.bitOps (c : Choice) (e : FileEntry) (d : Disk) : Frame → List BitOp
  | .flushMeta force =>
      if !e.dirty || (!force && !c.due) then [] else [.clearAll .setSince, .clearAll .clearedSince]
  | .metaLoad f =>
      if !d.linked then []
      else if (f.image e.cfg e.key d.sidecar).2 then
        (List.range f.snapshot.npages).flatMap (mergeOps f)
      else []
  | .metaEnd f out merged ok =>
      if ok then if merged then (List.range e.meta_.npages).flatMap (adoptOps e out) else []
      else (List.range e.meta_.npages).flatMap (rearmOps e f)
  | .writePages off bytes =>
      let stop := min (off + bytes.length) e.meta_.fileSize
      if bytes.isEmpty || decide (stop ≤ off) || decide (e.cfg.fillBufferMb ≤ 0) then []
      else ((FileEntry.wholePages e.meta_ off stop).filter fun i => (e.buf i).isNone).map
        (.get .present)
  | .directCheck _ _ (i :: _) _ => [.get .present i]
  | .directPublish done => done.flatMap fun pc => publishOps pc.1
  | .drainPublish done _ => done.flatMap fun pc => publishOps pc.1
  | .stageSpeculative off bytes =>
      if e.cfg.fillBufferMb ≤ 0 then []
      else (FileEntry.wholePages e.meta_ off (min (off + bytes.length) e.meta_.fileSize)).map
        (.get .present)
  | .releaseRanges ranges => spanOps e (ranges.filterMap (FileEntry.releaseSpan e.meta_))
  | .readCached off buf _ =>
      if buf.isEmpty || decide (e.meta_.fileSize < off + buf.length) then []
      else
        let first := off / e.meta_.pageSize
        let last := (off + buf.length - 1) / e.meta_.pageSize
        planOps e (List.range' first (last + 1 - first))
  | .demote i => retractOps i
  | .verifyAll i _ => if e.meta_.npages ≤ i then [] else [.get .present i]
  | _ => []

/-! ### What they amount to -/

/-- The bitmaps are those of the handle. -/
structure OfHandle (e : FileEntry) (T : Table → PageBitmap) : Prop where
  present : T .present = e.meta_.bitmap
  setSince : T .setSince = e.setSince
  clearedSince : T .clearedSince = e.clearedSince

/-- And those of the commit a frame stands at: what it took and, once there is one, the image. -/
def Frame.OfCommit (e : FileEntry) (d : Disk) (T : Table → PageBitmap) : Frame → Prop
  | .metaLoad f =>
      T .sets = f.sets ∧ T .clears = f.clears ∧
        ∀ disk, MetaFile.load d.sidecar = some disk →
          (f.image e.cfg e.key d.sidecar).2 = true → T .image = disk.bitmap
  | .metaEnd f out _ _ => T .sets = f.sets ∧ T .clears = f.clears ∧ T .image = out.bitmap
  | _ => True

section Effects

variable {n : Nat} {e e' : FileEntry} {T : Table → PageBitmap}

theorem OfHandle.untouched (h : OfHandle e T) (hu : Untouched e e') : OfHandle e' T :=
  ⟨h.present.trans (congrArg MetaData.bitmap hu.meta_.symm), h.setSince.trans hu.setSince.symm,
    h.clearedSince.trans hu.clearedSince.symm⟩

/-- Asking changes nothing. -/
theorem foldl_gets {ops : List BitOp} (h : ∀ op ∈ ops, ∃ t i, op = .get t i)
    (T : Table → PageBitmap) : ops.foldl BitOp.apply T = T := by
  induction ops generalizing T with
  | nil => rfl
  | cons op ops ih =>
      obtain ⟨t, i, rfl⟩ := h op (List.mem_cons_self ..)
      exact ih (fun op' hop => h op' (List.mem_cons_of_mem _ hop)) T

theorem OfHandle.publish (h : OfHandle e T) (pg : Nat) (crc : UInt32) :
    OfHandle (e.publishPage pg crc) ((publishOps pg).foldl BitOp.apply T) := by
  refine ⟨?_, ?_, ?_⟩
  · exact congrArg (PageBitmap.set · pg) h.present
  · exact congrArg (PageBitmap.set · pg) h.setSince
  · exact congrArg (PageBitmap.clear · pg) h.clearedSince

theorem OfHandle.retract (h : OfHandle e T) (pg : Nat) :
    OfHandle (e.retractPage pg) ((retractOps pg).foldl BitOp.apply T) := by
  refine ⟨?_, ?_, ?_⟩
  · exact congrArg (PageBitmap.clear · pg) h.present
  · exact congrArg (PageBitmap.clear · pg) h.setSince
  · exact congrArg (PageBitmap.set · pg) h.clearedSince

theorem OfHandle.publishAll (h : OfHandle e T) (done : List (Nat × UInt32)) :
    OfHandle (e.publishAll done)
      ((done.flatMap fun pc => publishOps pc.1).foldl BitOp.apply T) := by
  induction done generalizing e T with
  | nil => exact h
  | cons pc done ih =>
      rw [List.flatMap_cons, List.foldl_append]
      exact ih (h.publish pc.1 pc.2)

theorem OfHandle.release (h : OfHandle e T) (pages : List Nat) :
    OfHandle (pages.foldl FileEntry.releasePage e)
      ((releaseOps e pages).foldl BitOp.apply T) := by
  induction pages generalizing e T with
  | nil => exact h
  | cons i pages ih =>
      rw [releaseOps, List.foldl_append]
      refine ih ?_
      have hdrop := h.untouched (Untouched.dropStaged e i)
      unfold FileEntry.releasePage
      split
      · have hret := hdrop.retract i
        exact ⟨hret.present, hret.setSince, hret.clearedSince⟩
      · exact hdrop

theorem OfHandle.spans (h : OfHandle e T) (spans : List (Nat × Nat)) :
    OfHandle (spans.foldl FileEntry.releaseOne e) ((spanOps e spans).foldl BitOp.apply T) := by
  induction spans generalizing e T with
  | nil => exact h
  | cons span spans ih =>
      rw [spanOps, List.foldl_append]
      have hpages := h.release (List.range' span.1 (span.2 - span.1))
      exact ih ⟨hpages.present, hpages.setSince, hpages.clearedSince⟩

/-- A loop over pages whose every turn changes each bitmap by itself. -/
theorem foldl_turns {opsAt : Nat → List BitOp} (turn : Table → PageBitmap → Nat → PageBitmap)
    (hturn : ∀ T i, (opsAt i).foldl BitOp.apply T = fun t => turn t (T t) i) (pages : List Nat)
    (T : Table → PageBitmap) :
    (pages.flatMap opsAt).foldl BitOp.apply T = fun t => pages.foldl (turn t) (T t) := by
  induction pages generalizing T with
  | nil => rfl
  | cons i pages ih =>
      rw [List.flatMap_cons, List.foldl_append, hturn, ih]
      rfl

/-- One turn of a loop that sets, clears or leaves each bit. -/
def setTurn (f : Nat → Option Bool) (b : PageBitmap) (i : Nat) : PageBitmap :=
  match f i with
  | some true => b.set i
  | some false => b.clear i
  | none => b

theorem foldl_setTurn (f : Nat → Option Bool) (b : PageBitmap) (n : Nat) :
    (List.range n).foldl (setTurn f) b = b.updateRange n f := rfl

theorem foldl_same (pages : List Nat) (b : PageBitmap) :
    pages.foldl (fun b _ => b) b = b := by
  induction pages with
  | nil => rfl
  | cons i pages ih => exact ih

/-- Whether the merge clears, sets or leaves page `i` of the image. -/
def mergeBit (f : MetaFlush) (i : Nat) : Option Bool :=
  if f.clears.get i then some false else if f.sets.get i then some true else none

theorem merge_turns (f : MetaFlush) (pages : List Nat) (T : Table → PageBitmap) :
    (pages.flatMap (mergeOps f)).foldl BitOp.apply T =
      Function.update T .image (pages.foldl (setTurn (mergeBit f)) (T .image)) := by
  rw [foldl_turns (fun t b i => if t = .image then setTurn (mergeBit f) b i else b)]
  · funext t
    by_cases ht : t = .image
    · subst ht
      simp only [if_true, Function.update_self]
    · simp only [ht, if_false, Function.update_of_ne ht, foldl_same]
  · intro T i
    unfold mergeOps setTurn mergeBit
    funext t
    by_cases hc : f.clears.get i = true
    · simp only [hc, if_true, List.foldl_cons, List.foldl_nil, BitOp.apply, Function.update_apply]
      split <;> rename_i ht <;> simp [ht]
    · by_cases hs : f.sets.get i = true
      · simp only [hc, hs, if_true, Bool.false_eq_true, if_false, List.foldl_cons, List.foldl_nil,
          BitOp.apply, Function.update_apply]
        split <;> rename_i ht <;> simp [ht]
      · simp [hc, hs, BitOp.apply]

/-- What adopting the image does to page `i`. -/
def adoptBit (e : FileEntry) (out : MetaData) (i : Nat) : Option Bool :=
  if e.setSince.get i || e.clearedSince.get i then none else some (out.bitmap.get i)

theorem adopt_turns (e : FileEntry) (out : MetaData) (pages : List Nat) (T : Table → PageBitmap) :
    (pages.flatMap (adoptOps e out)).foldl BitOp.apply T =
      Function.update T .present (pages.foldl (setTurn (adoptBit e out)) (T .present)) := by
  rw [foldl_turns (fun t b i => if t = .present then setTurn (adoptBit e out) b i else b)]
  · funext t
    by_cases ht : t = .present
    · subst ht
      simp only [if_true, Function.update_self]
    · simp only [ht, if_false, Function.update_of_ne ht, foldl_same]
  · intro T i
    unfold adoptOps setTurn adoptBit
    funext t
    by_cases hs : e.setSince.get i = true
    · simp [hs, BitOp.apply]
    · by_cases hc : e.clearedSince.get i = true
      · simp [hs, hc, BitOp.apply]
      · cases hout : out.bitmap.get i with
        | true =>
            simp only [hs, hc, Bool.or_self, Bool.false_eq_true, if_false, if_true,
              List.foldl_cons, List.foldl_nil, BitOp.apply, Function.update_apply]
            split <;> rename_i ht <;> simp [ht]
        | false =>
            simp only [hs, hc, Bool.or_self, Bool.false_eq_true, if_false,
              List.foldl_cons, List.foldl_nil, BitOp.apply, Function.update_apply]
            split <;> rename_i ht <;> simp [ht]

/-- What a failed store puts back of page `i`: set before, and cleared before. -/
def rearmSet (e : FileEntry) (f : MetaFlush) (i : Nat) : Option Bool :=
  if f.sets.get i && !e.clearedSince.get i then some true else none

def rearmClear (e : FileEntry) (f : MetaFlush) (i : Nat) : Option Bool :=
  if f.clears.get i && !(f.sets.get i && !e.clearedSince.get i || e.setSince.get i) then some true
  else none

theorem rearm_turns (e : FileEntry) (f : MetaFlush) (pages : List Nat) (T : Table → PageBitmap) :
    (pages.flatMap (rearmOps e f)).foldl BitOp.apply T =
      Function.update
        (Function.update T .setSince (pages.foldl (setTurn (rearmSet e f)) (T .setSince)))
        .clearedSince (pages.foldl (setTurn (rearmClear e f)) (T .clearedSince)) := by
  rw [foldl_turns (fun t b i =>
    if t = .setSince then setTurn (rearmSet e f) b i
    else if t = .clearedSince then setTurn (rearmClear e f) b i else b)]
  · funext t
    cases t with
    | present => exact foldl_same pages _
    | setSince => rfl
    | clearedSince => rfl
    | sets => exact foldl_same pages _
    | clears => exact foldl_same pages _
    | image => exact foldl_same pages _
  · intro T i
    unfold rearmOps setTurn rearmSet rearmClear
    generalize f.sets.get i = s
    generalize f.clears.get i = k
    generalize e.setSince.get i = s'
    generalize e.clearedSince.get i = k'
    funext t
    cases s <;> cases k <;> cases s' <;> cases k' <;> cases t <;> rfl

end Effects

/-! ### Every access is at a page -/

section Below

variable {n : Nat} {e : FileEntry}

theorem below_turns {opsAt : Nat → List BitOp} (h : ∀ i < n, ∀ op ∈ opsAt i, op.Below n) :
    ∀ op ∈ (List.range n).flatMap opsAt, op.Below n := by
  intro op hop
  obtain ⟨i, hi, hmem⟩ := List.mem_flatMap.1 hop
  exact h i (List.mem_range.1 hi) op hmem

theorem mergeOps_below (f : MetaFlush) : ∀ i < n, ∀ op ∈ mergeOps f i, op.Below n := by
  intro i hi op hop
  unfold mergeOps at hop
  generalize f.clears.get i = k at hop
  generalize f.sets.get i = s at hop
  cases k <;> cases s <;>
    simp only [if_true, Bool.false_eq_true, if_false, List.mem_cons, List.not_mem_nil, or_false]
      at hop <;>
    rcases hop with rfl | rfl | rfl <;> exact hi

theorem adoptOps_below (e : FileEntry) (out : MetaData) :
    ∀ i < n, ∀ op ∈ adoptOps e out i, op.Below n := by
  intro i hi op hop
  unfold adoptOps at hop
  generalize e.setSince.get i = s at hop
  generalize e.clearedSince.get i = k at hop
  generalize out.bitmap.get i = b at hop
  cases s <;> cases k <;> cases b <;>
    simp only [if_true, Bool.false_eq_true, if_false, List.mem_cons, List.not_mem_nil, or_false]
      at hop <;>
    rcases hop with rfl | rfl | rfl | rfl <;> exact hi

theorem rearmOps_below (e : FileEntry) (f : MetaFlush) :
    ∀ i < n, ∀ op ∈ rearmOps e f i, op.Below n := by
  intro i hi op hop
  have hcases : op = .get .sets i ∨ op = .get .clearedSince i ∨ op = .set .setSince i ∨
      op = .get .clears i ∨ op = .get .setSince i ∨ op = .set .clearedSince i := by
    unfold rearmOps at hop
    simp only [List.mem_append, List.mem_cons] at hop
    rcases hop with ((hop | hop) | hop) | hop
    · rcases hop with rfl | hop
      · exact Or.inl rfl
      · split at hop <;> simp_all
    · split at hop <;> simp_all
    · rcases hop with rfl | hop
      · simp
      · split at hop <;> simp_all
    · split at hop <;> simp_all
  rcases hcases with rfl | rfl | rfl | rfl | rfl | rfl <;> exact hi

theorem publishOps_below {pg : Nat} (h : pg < n) : ∀ op ∈ publishOps pg, op.Below n := by
  intro op hop
  simp only [publishOps, List.mem_cons, List.not_mem_nil, or_false] at hop
  rcases hop with rfl | rfl | rfl <;> exact h

theorem retractOps_below {pg : Nat} (h : pg < n) : ∀ op ∈ retractOps pg, op.Below n := by
  intro op hop
  simp only [retractOps, List.mem_cons, List.not_mem_nil, or_false] at hop
  rcases hop with rfl | rfl | rfl <;> exact h

theorem publishAll_below {done : List (Nat × UInt32)} (h : ∀ pc ∈ done, pc.1 < n) :
    ∀ op ∈ done.flatMap fun pc => publishOps pc.1, op.Below n := by
  intro op hop
  obtain ⟨pc, hpc, hmem⟩ := List.mem_flatMap.1 hop
  exact publishOps_below (h pc hpc) op hmem

theorem releaseOps_below {pages : List Nat} (h : ∀ i ∈ pages, i < n) :
    ∀ op ∈ releaseOps e pages, op.Below n := by
  induction pages generalizing e with
  | nil => simp [releaseOps]
  | cons i pages ih =>
      intro op hop
      have hi : i < n := h i (List.mem_cons_self ..)
      rcases List.mem_append.1 hop with hop | hop
      · rcases List.mem_cons.1 hop with rfl | hop
        · exact hi
        · split at hop
          · exact retractOps_below hi op hop
          · cases hop
      · exact ih (fun j hj => h j (List.mem_cons_of_mem _ hj)) op hop

theorem spanOps_below {spans : List (Nat × Nat)} (h : ∀ span ∈ spans, span.2 ≤ n) :
    ∀ op ∈ spanOps e spans, op.Below n := by
  induction spans generalizing e with
  | nil => simp [spanOps]
  | cons span spans ih =>
      intro op hop
      rcases List.mem_append.1 hop with hop | hop
      · refine releaseOps_below (fun i hi => ?_) op hop
        have hspan := h span (List.mem_cons_self ..)
        rw [List.mem_range'_1] at hi
        omega
      · exact ih (fun s hs => h s (List.mem_cons_of_mem _ hs)) op hop

theorem planOps_gets {pages : List Nat} (h : ∀ i ∈ pages, i < n) :
    ∀ op ∈ planOps e pages, ∃ t i, op = .get t i ∧ i < n := by
  induction pages with
  | nil => simp [planOps]
  | cons i pages ih =>
      intro op hop
      have hrest := ih fun j hj => h j (List.mem_cons_of_mem _ hj)
      unfold planOps at hop
      split at hop
      · exact hrest op hop
      · rcases List.mem_cons.1 hop with rfl | hop
        · exact ⟨_, i, rfl, h i (List.mem_cons_self ..)⟩
        · split at hop
          · exact hrest op hop
          · cases hop

theorem map_gets {pages : List Nat} {t : Table} (h : ∀ i ∈ pages, i < n) :
    ∀ op ∈ pages.map (BitOp.get t), ∃ t i, op = .get t i ∧ i < n := by
  intro op hop
  obtain ⟨i, hi, rfl⟩ := List.mem_map.1 hop
  exact ⟨t, i, rfl, h i hi⟩

end Below

/-! ### Every step -/

/-- The accesses are at pages of the file and amount to the step. -/
structure Accessed (n : Nat) (ops : List BitOp) (T : Table → PageBitmap)
    (r : FileEntry × Disk × List Frame) : Prop where
  below : ∀ op ∈ ops, op.Below n
  handle : OfHandle r.1 (ops.foldl BitOp.apply T)
  image : ∀ f out, Frame.metaStore f out true ∈ r.2.2 →
    ops.foldl BitOp.apply T .image = out.bitmap

section Steps

variable {n : Nat} {c : Choice} {e : FileEntry} {d : Disk} {T : Table → PageBitmap}
  {ops : List BitOp} {r : FileEntry × Disk × List Frame}

/-- The frames of a step that stores no image. -/
def Imageless (frames : List Frame) : Prop := ∀ f out, Frame.metaStore f out true ∉ frames

/-- A section that only asks. -/
theorem accessed_gets (hops : ∀ op ∈ ops, ∃ t i, op = .get t i ∧ i < n) (hT : OfHandle r.1 T)
    (hframes : Imageless r.2.2) : Accessed n ops T r := by
  have hgets : ∀ op ∈ ops, ∃ t i, op = .get t i := by
    intro op hop
    obtain ⟨t, i, hget, -⟩ := hops op hop
    exact ⟨t, i, hget⟩
  have hsame := foldl_gets hgets T
  refine ⟨?_, by rw [hsame]; exact hT, fun f out hmem => absurd hmem (hframes f out)⟩
  intro op hop
  obtain ⟨t, i, rfl, hi⟩ := hops op hop
  exact hi

/-- A section that leaves the bitmaps alone. -/
theorem accessed_none (hT : OfHandle r.1 T) (hframes : Imageless r.2.2) : Accessed n [] T r :=
  accessed_gets (by simp) hT hframes

theorem accessed_flushMeta (hT : OfHandle e T) {force : Bool} :
    Accessed n ((Frame.flushMeta force).bitOps c e d) T (Frame.stepFlushMeta c e d force) := by
  unfold Frame.bitOps Frame.stepFlushMeta
  dsimp only
  split
  · exact accessed_none hT (by simp [Imageless])
  · refine ⟨by simp [BitOp.Below], ⟨?_, ?_, ?_⟩, by simp⟩
    · exact hT.present
    · exact congrArg PageBitmap.clearAll hT.setSince
    · exact congrArg PageBitmap.clearAll hT.clearedSince

theorem updateRange_congr (b : PageBitmap) {f g : Nat → Option Bool} (h : ∀ i < n, f i = g i) :
    b.updateRange n f = b.updateRange n g := by
  unfold PageBitmap.updateRange
  apply List.foldl_ext
  intro b i hi
  rw [h i (List.mem_range.1 hi)]

theorem accessed_metaLoad (hT : OfHandle e T) {f : MetaFlush} (hf : SnapshotOk n f)
    (hcommit : (Frame.metaLoad f).OfCommit e d T) :
    Accessed n ((Frame.metaLoad f).bitOps c e d) T (Frame.stepMetaLoad e d f) := by
  obtain ⟨-, -, himage⟩ := hcommit
  unfold Frame.bitOps Frame.stepMetaLoad
  dsimp only
  split
  · exact accessed_none hT (by simp [Imageless])
  · split
    · rename_i hmerged
      refine ⟨hf.npages.symm ▸ below_turns (mergeOps_below f), ?_, ?_⟩
      · rw [merge_turns]
        exact ⟨hT.present, hT.setSince, hT.clearedSince⟩
      · intro f' out hmem
        rw [merge_turns, Function.update_self, foldl_setTurn]
        rw [List.mem_singleton, Frame.metaStore.injEq] at hmem
        obtain ⟨-, rfl, -⟩ := hmem
        rcases f.image_loaded e.cfg e.key d.sidecar with hown | ⟨disk, hload, hn, hmerge⟩
        · rw [hown] at hmerged
          cases hmerged
        · rw [himage disk hload hmerged, hmerge, ← hn]
          rfl
    · rename_i hmerged
      refine accessed_none hT ?_
      intro f' out hmem
      rw [List.mem_singleton, Frame.metaStore.injEq] at hmem
      exact hmerged hmem.2.2.symm

theorem accessed_metaEnd (h : FlagsOk n e) (hT : OfHandle e T) {f : MetaFlush} {out : MetaData}
    {merged ok : Bool} :
    Accessed n ((Frame.metaEnd f out merged ok).bitOps c e d) T
      (Frame.stepMetaEnd e d f out merged ok) := by
  unfold Frame.bitOps Frame.stepMetaEnd
  dsimp only
  cases ok with
  | true =>
      cases merged with
      | true =>
          simp only [if_true]
          refine ⟨h.npages.symm ▸ below_turns (adoptOps_below e out), ?_, by simp⟩
          rw [adopt_turns]
          refine ⟨?_, hT.setSince, hT.clearedSince⟩
          rw [Function.update_self, foldl_setTurn, hT.present]
          rfl
      | false => exact accessed_none hT (by simp [Imageless])
  | false =>
      simp only [Bool.false_eq_true, if_false]
      refine ⟨h.npages.symm ▸ below_turns (rearmOps_below e f), ?_, by simp⟩
      rw [rearm_turns]
      refine ⟨hT.present, ?_, ?_⟩
      · rw [Function.update_of_ne (by simp), Function.update_self, foldl_setTurn, hT.setSince]
        rfl
      · rw [Function.update_self, foldl_setTurn, hT.clearedSince]
        -- The source asks for the set bit it has just decided about.
        apply updateRange_congr
        intro i hi
        have hset := PageBitmap.get_updateRange e.setSince e.meta_.npages
          (fun i => if f.sets.get i && !e.clearedSince.get i then some true else none) i
        rw [if_pos hi] at hset
        rw [rearmClear, hset]
        cases f.sets.get i && !e.clearedSince.get i <;> rfl

theorem accessed_writePages (h : FlagsOk n e) (hT : OfHandle e T) {off : Nat} {bytes : Bytes} :
    Accessed n ((Frame.writePages off bytes).bitOps c e d) T (Frame.stepWritePages e d off bytes) := by
  unfold Frame.bitOps Frame.stepWritePages
  dsimp only
  by_cases hempty : (bytes.isEmpty ||
      decide (min (off + bytes.length) e.meta_.fileSize ≤ off)) = true
  · rw [if_pos hempty, if_pos (by rw [hempty]; rfl)]
    exact accessed_none hT (by simp [Imageless])
  · rw [if_neg hempty]
    by_cases hdirect : e.cfg.fillBufferMb ≤ 0
    · rw [if_pos hdirect, if_pos (by rw [decide_eq_true hdirect, Bool.or_true])]
      exact accessed_none hT (by simp [Imageless])
    · rw [if_neg hdirect, if_neg (by simpa [hdirect] using hempty)]
      refine accessed_gets (map_gets fun i hi => ?_)
        (hT.untouched (Untouched.stagePages e off bytes)) ?_
      · exact wholePages_below h i (List.mem_filter.1 hi).1
      · simp only [Imageless]
        split <;> simp

/-- The accesses a step makes are at pages of the file and amount to what it does. -/
theorem step_bitOps {fr : Frame} (h : FlagsOk n e) (hfr : fr.Within n) (hT : OfHandle e T)
    (hcommit : fr.OfCommit e d T) (hr : fr.step c e d = some r) :
    Accessed n (fr.bitOps c e d) T r := by
  cases fr with
  | flushMeta force =>
      cases hr
      exact accessed_flushMeta hT
  | metaLoad f =>
      cases hr
      exact accessed_metaLoad hT hfr hcommit
  | metaStore f out merged =>
      cases hr
      exact accessed_none hT (by simp [Imageless, Frame.stepMetaStore])
  | metaEnd f out merged ok =>
      cases hr
      exact accessed_metaEnd h hT
  | touchAtime =>
      cases hr
      refine accessed_none ?_ (by simp [Imageless, Frame.stepTouchAtime])
      unfold Frame.stepTouchAtime
      split
      · exact ⟨hT.present, hT.setSince, hT.clearedSince⟩
      · exact hT
  | writePages off bytes =>
      cases hr
      exact accessed_writePages h hT
  | directCheck off bytes todo done =>
      cases hr
      cases todo with
      | nil =>
          unfold Frame.stepDirectCheck
          simp only
          split
          · exact accessed_none hT (by simp [Imageless])
          · exact accessed_none hT (by simp [Imageless])
      | cons i rest =>
          have hops : ∀ op ∈ [BitOp.get .present i], ∃ t j, op = .get t j ∧ j < n := by
            intro op hop
            rw [List.mem_singleton.1 hop]
            exact ⟨_, i, rfl, hfr.1 i (List.mem_cons_self ..)⟩
          unfold Frame.stepDirectCheck
          simp only
          split
          · exact accessed_gets hops hT (by simp [Imageless])
          · exact accessed_gets hops hT (by simp [Imageless])
  | directWrite off bytes i todo done =>
      cases hr
      unfold Frame.stepDirectWrite
      simp only
      split
      · exact accessed_none hT (by simp [Imageless])
      · exact accessed_none hT (by simp [Imageless])
  | directPublish done =>
      cases hr
      have hall := hT.publishAll done
      exact ⟨publishAll_below hfr.2, ⟨hall.present, hall.setSince, hall.clearedSince⟩, by simp⟩
  | flushBuffer force =>
      simp only [Frame.step, Frame.stepFlushBuffer] at hr
      split at hr
      · split at hr
        · cases hr
        · cases hr
          exact accessed_none hT (by simp [Imageless])
      · split at hr
        · cases hr
          exact accessed_none hT (by simp [Imageless])
        · cases hr
          exact accessed_none (hT.untouched (Untouched.drainSnapshot e)) (by simp [Imageless])
  | drainWrite todo done force =>
      cases hr
      unfold Frame.stepDrainWrite
      cases todo with
      | nil => exact accessed_none hT (by simp [Imageless])
      | cons ip rest =>
          simp only
          split
          · exact accessed_none hT (by simp [Imageless])
          · exact accessed_none hT (by simp [Imageless])
  | drainPublish done force =>
      cases hr
      have hall := hT.publishAll done
      refine ⟨publishAll_below hfr, ?_, by simp⟩
      unfold FileEntry.drainPublish
      cases done with
      | nil => exact ⟨hall.present, hall.setSince, hall.clearedSince⟩
      | cons pc done => exact ⟨hall.present, hall.setSince, hall.clearedSince⟩
  | stageSpeculative off bytes =>
      cases hr
      have hT' := hT.untouched (Untouched.stageSpeculative e off bytes)
      unfold Frame.bitOps
      dsimp only
      split
      · exact accessed_none hT' (by simp [Imageless])
      · exact accessed_gets (map_gets (wholePages_below h)) hT' (by simp [Imageless])
  | dropSpeculative off len =>
      cases hr
      exact accessed_none (hT.untouched (Untouched.dropSpeculative e off len)) (by simp [Imageless])
  | consumeSpeculative off len =>
      cases hr
      exact accessed_none (hT.untouched (Untouched.consumeSpeculative e off len))
        (by simp [Imageless])
  | checkpoint =>
      simp only [Frame.step] at hr
      split at hr
      · cases hr
        exact accessed_none hT (by simp [Imageless])
      · cases hr
        exact accessed_none hT (by simp [Imageless])
  | setPinned p =>
      cases hr
      exact accessed_none ⟨hT.present, hT.setSince, hT.clearedSince⟩ (by simp [Imageless])
  | releaseRanges ranges =>
      cases hr
      refine ⟨spanOps_below fun span hspan => ?_, hT.spans _, ?_⟩
      · obtain ⟨rg, -, hrg⟩ := List.mem_filterMap.1 hspan
        exact h.npages ▸ (FlagsOk.releaseSpan_below hrg).2
      · simp only [Frame.stepReleaseRanges]
        split <;> simp
  | punch spans =>
      cases hr
      unfold Frame.stepPunch
      cases spans with
      | nil => exact accessed_none hT (by simp [Imageless])
      | cons s rest => exact accessed_none hT (by simp [Imageless])
  | readCached off buf account =>
      cases hr
      unfold Frame.bitOps Frame.stepReadCached
      dsimp only
      by_cases hempty : buf.isEmpty = true
      · rw [if_pos hempty, if_pos (by rw [hempty]; rfl)]
        exact accessed_none hT (by simp [Imageless])
      · rw [if_neg hempty]
        by_cases hlong : e.meta_.fileSize < off + buf.length
        · rw [if_pos hlong, if_pos (by rw [decide_eq_true hlong, Bool.or_true])]
          exact accessed_none hT (by simp [Imageless])
        · rw [if_neg hlong, if_neg (by simpa [hlong] using hempty)]
          refine accessed_gets (planOps_gets (request_below h ?_ (by omega)))
            (hT.untouched (Untouched.readPlan e off buf account)) ?_
          · exact List.length_pos_iff.2 (by simpa using hempty)
          · simp only [Imageless]
            split <;> simp
  | readRuns off out runs account =>
      cases hr
      unfold Frame.stepReadRuns
      cases runs with
      | nil =>
          simp only
          split
          · exact accessed_none hT (by simp [Imageless])
          · exact accessed_none hT (by simp [Imageless])
      | cons rn rest =>
          simp only
          split
          · exact accessed_none hT (by simp [Imageless])
          · exact accessed_none hT (by simp [Imageless])
          · exact accessed_none hT (by simp [Imageless])
  | readDone off out =>
      cases hr
      exact accessed_none hT (by simp [Imageless])
  | demote i =>
      cases hr
      have hone : i + 1 - i = 1 := by omega
      have hret := hT.retract i
      refine ⟨retractOps_below hfr, ?_, by simp⟩
      unfold FileEntry.demoteRun
      simp only [hone, List.range'_one, List.foldl_cons, List.foldl_nil]
      exact ⟨hret.present, hret.setSince, hret.clearedSince⟩
  | demoteBadPages todo =>
      cases hr
      unfold Frame.stepDemoteBadPages
      cases todo with
      | nil => exact accessed_none hT (by simp [Imageless])
      | cons pc rest =>
          simp only
          split
          · exact accessed_none hT (by simp [Imageless])
          · exact accessed_none hT (by simp [Imageless])
  | verifyAll i bad =>
      cases hr
      unfold Frame.bitOps Frame.stepVerifyAll
      dsimp only
      split
      · refine accessed_none hT ?_
        simp only [Imageless]
        split <;> simp
      · rename_i hi
        have hops : ∀ op ∈ [BitOp.get .present i], ∃ t j, op = .get t j ∧ j < n := by
          intro op hop
          rw [List.mem_singleton.1 hop]
          exact ⟨_, i, rfl, h.npages ▸ Nat.lt_of_not_le hi⟩
        split
        · exact accessed_gets hops hT (by simp [Imageless])
        · exact accessed_gets hops hT (by simp [Imageless])
  | scrubPage i expect bad =>
      cases hr
      unfold Frame.stepScrubPage
      split
      · exact accessed_none hT (by simp [Imageless])
      · exact accessed_none hT (by simp [Imageless])
      · exact accessed_none hT (by simp [Imageless])

/-- The bytes of the bitmaps go through a step: no access leaves them, and afterwards they show the
bitmaps of the handle and the image the step is to store. -/
theorem step_bytes {fr : Frame} {R : Table → RawBitmap} (h : FlagsOk n e) (hfr : fr.Within n)
    (hheld : HeldTables n R T) (hT : OfHandle e T) (hcommit : fr.OfCommit e d T)
    (hr : fr.step c e d = some r) :
    ∃ R', exec BitOp.run R (fr.bitOps c e d) = some R' ∧ (R' .present).Shows r.1.meta_.bitmap ∧
      (R' .setSince).Shows r.1.setSince ∧ (R' .clearedSince).Shows r.1.clearedSince ∧
      ∀ f out, Frame.metaStore f out true ∈ r.2.2 → (R' .image).Shows out.bitmap := by
  have hacc := step_bitOps h hfr hT hcommit hr
  obtain ⟨R', hexec, hheld'⟩ := hheld.exec hacc.below
  refine ⟨R', hexec, ?_, ?_, ?_, ?_⟩
  · rw [← hacc.handle.present]
    exact hheld'.shows .present
  · rw [← hacc.handle.setSince]
    exact hheld'.shows .setSince
  · rw [← hacc.handle.clearedSince]
    exact hheld'.shows .clearedSince
  · intro f out hmem
    rw [← hacc.image f out hmem]
    exact hheld'.shows .image

end Steps

/-! ### Bytes to start from -/

/-- The bitmaps of a handle and of a commit. -/
def tablesOf (e : FileEntry) (sets clears image : PageBitmap) : Table → PageBitmap
  | .present => e.meta_.bitmap
  | .setSince => e.setSince
  | .clearedSince => e.clearedSince
  | .sets => sets
  | .clears => clears
  | .image => image

/-- The bytes a store writes for each bitmap. -/
def bytesOf (T : Table → PageBitmap) (t : Table) : RawBitmap :=
  ⟨(List.range (((T t).npages + 7) / 8)).map (T t).rawByte, (T t).npages, (T t).count⟩

theorem held_tablesOf {n : Nat} {e : FileEntry} (h : FlagsOk n e) {sets clears image : PageBitmap}
    (hsets : sets.Counted n) (hclears : clears.Counted n) (himage : image.Counted n) :
    HeldTables n (bytesOf (tablesOf e sets clears image)) (tablesOf e sets clears image) := by
  refine ⟨fun t => RawBitmap.Shows.stored _, fun t => ?_⟩
  cases t with
  | present => exact h.bitmap
  | setSince => exact h.setSince
  | clearedSince => exact h.clearedSince
  | sets => exact hsets
  | clears => exact hclears
  | image => exact himage

/-- Whatever frame a thread stands at, there are bytes for the bitmaps it uses. -/
theorem exists_held {n : Nat} {e : FileEntry} {d : Disk} {fr : Frame} (h : FlagsOk n e)
    (hfr : fr.Within n) (hside : ∀ m, d.sidecar = some m → m.Consistent) :
    ∃ R T, HeldTables n R T ∧ OfHandle e T ∧ fr.OfCommit e d T := by
  have hempty := PageBitmap.Counted.reset n
  cases fr with
  | metaLoad f =>
      rcases f.image_loaded e.cfg e.key d.sidecar with hown | ⟨disk, hload, hn, -⟩
      · refine ⟨_, _, held_tablesOf h hfr.sets hfr.clears hempty, ⟨rfl, rfl, rfl⟩, rfl, rfl, ?_⟩
        intro disk hload hmerged
        rw [hown] at hmerged
        cases hmerged
      · obtain ⟨m, hm, -, -⟩ := MetaFile.load_eq_some hload
        have hcons := hside m hm
        rw [hm] at hload
        have hsame := hcons.load hload
        subst hsame
        have hdisk : disk.bitmap.Counted n := (hn.trans hfr.npages) ▸ hcons.bitmap
        refine ⟨_, _, held_tablesOf h hfr.sets hfr.clears hdisk, ⟨rfl, rfl, rfl⟩, rfl, rfl, ?_⟩
        rintro disk' hload' -
        rw [hm, hload] at hload'
        cases hload'
        rfl
  | metaEnd f out merged ok =>
      obtain ⟨hf, hout, hn⟩ := hfr
      exact ⟨_, _, held_tablesOf h hf.sets hf.clears (hn ▸ hout.bitmap), ⟨rfl, rfl, rfl⟩, rfl, rfl,
        rfl⟩
  | _ => exact ⟨_, _, held_tablesOf h hempty hempty hempty, ⟨rfl, rfl, rfl⟩, trivial⟩

end UCache
