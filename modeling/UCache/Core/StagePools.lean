/-
Module: UCache.Core.StagePools
Purpose: The two byte counts a handle keeps of its stage.  Each section that moves pages in, out or
  between the two pools moves exactly the bytes of the pages it took, and what a call will report
  to the process-wide pools is what its section moved.
Trusted boundary: none
Main exports: poolBytes, Pooled, tally
-/
import Mathlib.Algebra.BigOperators.Group.Finset.Basic
import Mathlib.Algebra.Order.BigOperators.Group.Finset
import Mathlib.Algebra.Ring.Int.Defs
import Mathlib.Data.List.TakeWhile
import UCache.Core.Stage

namespace UCache

open Lib

/-! ### The pools of one handle -/

variable {i : Nat}

/-- Bytes page `i` adds to the pool of pages whose mark is `sp`. -/
def pagePool (m : MetaData) (sp : Bool) (i : Nat) : Option BufPage → Nat
  | some p => if p.spec = sp then m.pageBytes i else 0
  | none => 0

/-- Total size of the staged pages whose mark is `sp`. -/
def poolBytes (e : FileEntry) (sp : Bool) : Nat :=
  ∑ i ∈ Finset.range e.meta_.npages, pagePool e.meta_ sp i (e.buf i)

/-- What the lock of a handle keeps: each count is the size of its pages, no page is both staged
and being written, and only demanded pages are being written. -/
structure Pooled (e : FileEntry) : Prop where
  buf : e.bufBytes = poolBytes e false
  spec : e.specBytes = poolBytes e true
  inside : ∀ i p, e.buf i = some p → i < e.meta_.npages
  apart : ∀ i p, e.buf i = some p → e.flushing i = none
  demanded : ∀ i p, e.flushing i = some p → p.spec = false
  quiet : e.flushInProgress = false → ∀ i, e.flushing i = none

/-- A handle with nothing staged. -/
theorem Pooled.ofMeta (cfg : Config) (key : Bytes) (m : MetaData) (dirty : Bool) :
    Pooled (FileEntry.ofMeta cfg key m dirty) := by
  constructor <;> simp [FileEntry.ofMeta, poolBytes, pagePool]

theorem pagePool_le_poolBytes {e : FileEntry} (hi : i < e.meta_.npages) (sp : Bool) :
    pagePool e.meta_ sp i (e.buf i) ≤ poolBytes e sp :=
  Finset.single_le_sum (f := fun j => pagePool e.meta_ sp j (e.buf j)) (fun _ _ => Nat.zero_le _)
    (Finset.mem_range.2 hi)

/-- The pool a staged page is counted in holds at least its bytes, so taking them out again never
goes below zero. -/
theorem Pooled.enough {e : FileEntry} (h : Pooled e) {p : BufPage} (hp : e.buf i = some p) :
    e.meta_.pageBytes i ≤ if p.spec then e.specBytes else e.bufBytes := by
  have hi := h.inside i p hp
  cases hs : p.spec with
  | true =>
      have hle := pagePool_le_poolBytes hi true
      simp only [hp, pagePool, hs, if_true] at hle
      simpa [h.spec] using hle
  | false =>
      have hle := pagePool_le_poolBytes hi false
      simp only [hp, pagePool, hs, if_true] at hle
      simpa [h.buf] using hle

/-- Replacing one staged page exchanges its bytes. -/
theorem sum_pagePool_update (m : MetaData) (buf : Nat → Option BufPage) (sp : Bool) {n : Nat}
    (hi : i < n) (q : Option BufPage) :
    (∑ j ∈ Finset.range n, pagePool m sp j (Function.update buf i q j)) +
        pagePool m sp i (buf i) =
      (∑ j ∈ Finset.range n, pagePool m sp j (buf j)) + pagePool m sp i q := by
  have hmem : i ∈ Finset.range n := Finset.mem_range.2 hi
  rw [← Finset.add_sum_erase _ _ hmem, ← Finset.add_sum_erase _ (fun j => pagePool m sp j (buf j))
    hmem]
  have hrest : ∑ j ∈ (Finset.range n).erase i, pagePool m sp j (Function.update buf i q j) =
      ∑ j ∈ (Finset.range n).erase i, pagePool m sp j (buf j) := by
    refine Finset.sum_congr rfl ?_
    intro j hj
    rw [Function.update_of_ne (Finset.ne_of_mem_erase hj)]
  rw [hrest, Function.update_self]
  omega

/-! ### What a section moves -/

/-- The section from `e` to `e'` keeps the counts right, and moved `db` bytes into the demanded
pool and `ds` into the speculative one. -/
structure Moves (e e' : FileEntry) (db ds : Int) : Prop where
  pooled : Pooled e'
  buf : (e'.bufBytes : Int) = e.bufBytes + db
  spec : (e'.specBytes : Int) = e.specBytes + ds

namespace Moves

variable {e e' e'' : FileEntry} {db db' ds ds' : Int}

theorem refl (h : Pooled e) : Moves e e 0 0 := ⟨h, by simp, by simp⟩

theorem trans (h1 : Moves e e' db ds) (h2 : Moves e' e'' db' ds') :
    Moves e e'' (db + db') (ds + ds') := by
  refine ⟨h2.pooled, ?_, ?_⟩
  · rw [h2.buf, h1.buf, Int.add_assoc]
  · rw [h2.spec, h1.spec, Int.add_assoc]

/-- A section that leaves the stage alone. -/
theorem of_stage (h : Pooled e) (hps : e'.meta_.pageSize = e.meta_.pageSize)
    (hfs : e'.meta_.fileSize = e.meta_.fileSize) (hbuf : e'.buf = e.buf)
    (hfl : e'.flushing = e.flushing) (hbb : e'.bufBytes = e.bufBytes)
    (hsb : e'.specBytes = e.specBytes) (hbusy : e'.flushInProgress = e.flushInProgress) :
    Moves e e' 0 0 := by
  have hgeo : Geometry e.meta_ e' := ⟨hps, hfs⟩
  have hpool : ∀ sp, poolBytes e' sp = poolBytes e sp := by
    intro sp
    simp only [poolBytes, hgeo.npages, hbuf]
    refine Finset.sum_congr rfl ?_
    intro i _
    cases e.buf i with
    | none => rfl
    | some p => simp [pagePool, hgeo.pageBytes]
  refine ⟨⟨?_, ?_, ?_, ?_, ?_, ?_⟩, by simp [hbb], by simp [hsb]⟩
  · rw [hbb, hpool, h.buf]
  · rw [hsb, hpool, h.spec]
  · rw [hbuf, hgeo.npages]; exact h.inside
  · rw [hbuf, hfl]; exact h.apart
  · rw [hfl]; exact h.demanded
  · rw [hfl, hbusy]; exact h.quiet

/-- A section that replaces one page of the stage by `q`, which no drain holds. -/
theorem of_update (h : Pooled e) (e' : FileEntry) (hi : i < e.meta_.npages) (q : Option BufPage)
    (hq : q ≠ none → e.flushing i = none) (hmeta : e'.meta_ = e.meta_)
    (hbuf : e'.buf = Function.update e.buf i q) (hfl : e'.flushing = e.flushing)
    (hbusy : e'.flushInProgress = e.flushInProgress)
    (hbb : e'.bufBytes + pagePool e.meta_ false i (e.buf i) =
      e.bufBytes + pagePool e.meta_ false i q)
    (hsb : e'.specBytes + pagePool e.meta_ true i (e.buf i) =
      e.specBytes + pagePool e.meta_ true i q) :
    Moves e e' (pagePool e.meta_ false i q - pagePool e.meta_ false i (e.buf i))
      (pagePool e.meta_ true i q - pagePool e.meta_ true i (e.buf i)) := by
  have hpool : ∀ sp, poolBytes e' sp + pagePool e.meta_ sp i (e.buf i) =
      poolBytes e sp + pagePool e.meta_ sp i q := by
    intro sp
    simp only [poolBytes, hmeta, hbuf]
    exact sum_pagePool_update e.meta_ e.buf sp hi q
  refine ⟨⟨?_, ?_, ?_, ?_, ?_, ?_⟩, by omega, by omega⟩
  · have := hpool false
    have := h.buf
    omega
  · have := hpool true
    have := h.spec
    omega
  · intro j p hp
    rw [hmeta]
    by_cases hj : j = i
    · exact hj ▸ hi
    · rw [hbuf, Function.update_of_ne hj] at hp
      exact h.inside j p hp
  · intro j p hp
    rw [hfl]
    by_cases hj : j = i
    · subst hj
      rw [hbuf, Function.update_self] at hp
      exact hq (by simp [hp])
    · rw [hbuf, Function.update_of_ne hj] at hp
      exact h.apart j p hp
  · rw [hfl]; exact h.demanded
  · rw [hfl, hbusy]; exact h.quiet

end Moves

/-! ### Sums taken along a loop -/

section Tally

variable {α : Type} {M : Type} [AddCommMonoid M]

/-- The sum a loop accumulates: at each turn an amount read off the state before it. -/
def tally (sec : FileEntry → α → FileEntry) (amt : FileEntry → α → M) : FileEntry → List α → M
  | _, [] => 0
  | e, a :: as => amt e a + tally sec amt (sec e a) as

theorem tally_add (sec : FileEntry → α → FileEntry) (f g : FileEntry → α → M) (e : FileEntry)
    (as : List α) :
    tally sec (fun e a => f e a + g e a) e as = tally sec f e as + tally sec g e as := by
  induction as generalizing e with
  | nil => simp [tally]
  | cons a as ih =>
      simp only [tally, ih]
      exact add_add_add_comm _ _ _ _

theorem tally_zero (sec : FileEntry → α → FileEntry) (e : FileEntry) (as : List α) :
    tally sec (fun _ _ => (0 : M)) e as = 0 := by
  induction as generalizing e with
  | nil => rfl
  | cons a as ih => simp [tally, ih]

theorem tally_neg (sec : FileEntry → α → FileEntry) (f : FileEntry → α → Nat) (e : FileEntry)
    (as : List α) :
    tally sec (fun e a => -(f e a : Int)) e as = -((tally sec f e as : Nat) : Int) := by
  induction as generalizing e with
  | nil => rfl
  | cons a as ih =>
      simp only [tally, ih]
      omega

theorem tally_cast (sec : FileEntry → α → FileEntry) (f : FileEntry → α → Nat) (e : FileEntry)
    (as : List α) :
    tally sec (fun e a => (f e a : Int)) e as = ((tally sec f e as : Nat) : Int) := by
  induction as generalizing e with
  | nil => rfl
  | cons a as ih =>
      simp only [tally, ih]
      omega

/-- A loop moves the sum of what its turns move. -/
theorem Moves.foldl {sec : FileEntry → α → FileEntry} {fb fs : FileEntry → α → Int}
    (as : List α) (inv : FileEntry → Prop)
    (hsec : ∀ e, ∀ a ∈ as, inv e → Pooled e → inv (sec e a) ∧ Moves e (sec e a) (fb e a) (fs e a))
    {e : FileEntry} (hinv : inv e) (h : Pooled e) :
    Moves e (as.foldl sec e) (tally sec fb e as) (tally sec fs e as) := by
  induction as generalizing e with
  | nil => exact Moves.refl h
  | cons a as ih =>
      obtain ⟨hinv', h'⟩ := hsec e a (by simp) hinv h
      exact h'.trans (ih (fun e b hb => hsec e b (by simp [hb])) hinv' h'.pooled)

end Tally

/-! ### What each section moves -/

/-- Bytes of page `i` if it is staged and its mark is `sp`. -/
def stagedAs (sp : Bool) (e : FileEntry) (i : Nat) : Nat := pagePool e.meta_ sp i (e.buf i)

/-- Bytes a staging loop adds at page `i`: none when the page is present, staged or being
written. -/
def newlyStaged (e : FileEntry) (i : Nat) : Nat :=
  if e.meta_.bitmap.get i || (e.buf i).isSome || (e.flushing i).isSome then 0
  else e.meta_.pageBytes i

variable {e e' : FileEntry}

theorem moves_unmarkSpeculative (h : Pooled e) {p : BufPage} (hp : e.buf i = some p)
    (hs : p.spec = true) :
    Moves e (e.unmarkSpeculative i p) (e.meta_.pageBytes i) (-(e.meta_.pageBytes i : Int)) := by
  have henough := h.enough hp
  simp only [hs, if_true] at henough
  have hmove := Moves.of_update h (e.unmarkSpeculative i p) (h.inside i p hp)
    (some { p with spec := false }) (fun _ => h.apart i p hp) rfl rfl rfl rfl
    (by simp [FileEntry.unmarkSpeculative, pagePool, hp, hs])
    (by
      simp only [FileEntry.unmarkSpeculative, pagePool, hp, hs, if_true]
      simp
      omega)
  simpa [pagePool, hp, hs] using hmove

/-- A page of the loop of `writePages`: `covered` grows by a page whose mark it clears, `staged` by
one it puts in. -/
theorem moves_stagePage (off : Nat) (bytes : Bytes) (h : Pooled e) (hi : i < e.meta_.npages) :
    Moves e (FileEntry.stagePage off bytes e i) ((stagedAs true e i : Int) + newlyStaged e i)
      (-(stagedAs true e i : Int)) := by
  unfold FileEntry.stagePage
  cases hb : e.buf i with
  | some p =>
      cases hs : p.spec with
      | true =>
          have hmove := moves_unmarkSpeculative h hb hs
          simpa [stagedAs, pagePool, newlyStaged, hb, hs] using hmove
      | false => simpa [stagedAs, pagePool, newlyStaged, hb, hs] using Moves.refl h
  | none =>
      by_cases hskip : (e.meta_.bitmap.get i || (e.flushing i).isSome) = true
      · simpa [stagedAs, pagePool, newlyStaged, hb, hskip] using Moves.refl h
      · have hfl : e.flushing i = none := by
          cases hf : e.flushing i with
          | none => rfl
          | some p => simp [hf] at hskip
        have hmove := Moves.of_update h
          { e with
            buf := Function.update e.buf i (some (FileEntry.cutPage e.meta_ off bytes i))
            bufBytes := e.bufBytes + e.meta_.pageBytes i }
          hi (some (FileEntry.cutPage e.meta_ off bytes i)) (fun _ => hfl) rfl rfl rfl rfl
          (by simp [pagePool, hb, FileEntry.cutPage]) (by simp [pagePool, hb, FileEntry.cutPage])
        simpa [stagedAs, pagePool, newlyStaged, hb, hskip, FileEntry.cutPage] using hmove

/-- A page of the loop of `stageSpeculative`. -/
theorem moves_stageSpecPage (off : Nat) (bytes : Bytes) (h : Pooled e) (hi : i < e.meta_.npages) :
    Moves e (FileEntry.stageSpecPage off bytes e i) 0 (newlyStaged e i) := by
  unfold FileEntry.stageSpecPage
  by_cases hskip : (e.meta_.bitmap.get i || (e.buf i).isSome || (e.flushing i).isSome) = true
  · simpa [newlyStaged, hskip] using Moves.refl h
  · simp only [Bool.or_eq_true, not_or, Option.not_isSome_iff_eq_none] at hskip
    obtain ⟨⟨hbit, hb⟩, hfl⟩ := hskip
    have hmove := Moves.of_update h
      { e with
        buf := Function.update e.buf i
          (some { FileEntry.cutPage e.meta_ off bytes i with spec := true })
        specBytes := e.specBytes + e.meta_.pageBytes i }
      hi (some { FileEntry.cutPage e.meta_ off bytes i with spec := true }) (fun _ => hfl) rfl
      rfl rfl rfl (by simp [pagePool, hb]) (by simp [pagePool, hb])
    simpa [newlyStaged, hbit, hb, hfl, pagePool] using hmove

/-- Taking a page out of the stage takes its bytes out of its pool. -/
theorem moves_dropStaged (h : Pooled e) (i : Nat) :
    Moves e (e.dropStaged i) (-(stagedAs false e i : Int)) (-(stagedAs true e i : Int)) := by
  unfold FileEntry.dropStaged
  cases hb : e.buf i with
  | none => simpa [stagedAs, pagePool, hb] using Moves.refl h
  | some p =>
      have henough := h.enough hb
      cases hs : p.spec with
      | true =>
          simp only [hs, if_true] at henough
          have hmove := Moves.of_update h
            { e with
              buf := Function.update e.buf i none
              specBytes := e.specBytes - e.meta_.pageBytes i }
            (h.inside i p hb) none (by simp) rfl rfl rfl rfl
            (by simp [pagePool, hb, hs])
            (by
              simp only [pagePool, hb, hs, if_true]
              omega)
          simpa [stagedAs, pagePool, hb, hs] using hmove
      | false =>
          simp only [hs, Bool.false_eq_true, if_false] at henough
          have hmove := Moves.of_update h
            { e with
              buf := Function.update e.buf i none
              bufBytes := e.bufBytes - e.meta_.pageBytes i }
            (h.inside i p hb) none (by simp) rfl rfl rfl rfl
            (by
              simp only [pagePool, hb, hs, if_true]
              omega)
            (by simp [pagePool, hb, hs])
          simpa [stagedAs, pagePool, hb, hs] using hmove

/-- A marked page is dropped as `dropStaged` drops it, any other stays. -/
theorem moves_dropSpecPage (h : Pooled e) (i : Nat) :
    Moves e (e.dropSpecPage i) 0 (-(stagedAs true e i : Int)) := by
  cases hb : e.buf i with
  | none => simpa [FileEntry.dropSpecPage, stagedAs, pagePool, hb] using Moves.refl h
  | some p =>
      cases hs : p.spec with
      | true =>
          have hmove := moves_dropStaged h i
          simpa [FileEntry.dropSpecPage, FileEntry.dropStaged, stagedAs, pagePool, hb, hs] using hmove
      | false => simpa [FileEntry.dropSpecPage, stagedAs, pagePool, hb, hs] using Moves.refl h

theorem moves_touchSpecPage (h : Pooled e) (i : Nat) : Moves e (e.touchSpecPage i) 0 0 := by
  unfold FileEntry.touchSpecPage
  cases hb : e.buf i with
  | none => exact Moves.refl h
  | some p =>
      cases hs : p.spec with
      | true =>
          have hmove := Moves.of_update h
            { e with buf := Function.update e.buf i (some { p with touched := true }) }
            (h.inside i p hb) (some { p with touched := true }) (fun _ => h.apart i p hb) rfl rfl
            rfl rfl (by simp [pagePool, hb, hs]) (by simp [pagePool, hb, hs])
          simpa [pagePool, hb, hs] using hmove
      | false => simpa [hs] using Moves.refl h

theorem moves_releasePage (h : Pooled e) (i : Nat) :
    Moves e (e.releasePage i) (-(stagedAs false e i : Int)) (-(stagedAs true e i : Int)) := by
  unfold FileEntry.releasePage
  split
  · have hdrop := moves_dropStaged h i
    have hrest : Moves (e.dropStaged i) { (e.dropStaged i).retractPage i with dirty := true } 0 0 :=
      Moves.of_stage hdrop.pooled rfl rfl rfl rfl rfl rfl rfl
    simpa using hdrop.trans hrest
  · exact moves_dropStaged h i

/-! ### Whole sections -/

namespace FileEntry

/-- The pages the loops of `writePages`, `stageSpeculative` and `dropSpeculative` run over. -/
def loopPages (m : MetaData) (off len : Nat) : List Nat :=
  wholePages m off (min (off + len) m.fileSize)

/-- `covered` of `writePages`: bytes whose mark the demand read cleared. -/
def coveredBytes (e : FileEntry) (off : Nat) (bytes : Bytes) : Nat :=
  tally (stagePage off bytes) (stagedAs true) e (loopPages e.meta_ off bytes.length)

/-- `staged` of `writePages`. -/
def stagedBytes (e : FileEntry) (off : Nat) (bytes : Bytes) : Nat :=
  tally (stagePage off bytes) newlyStaged e (loopPages e.meta_ off bytes.length)

/-- `staged` of `stageSpeculative`. -/
def specStagedBytes (e : FileEntry) (off : Nat) (bytes : Bytes) : Nat :=
  if e.cfg.fillBufferMb ≤ 0 then 0
  else tally (stageSpecPage off bytes) newlyStaged e (loopPages e.meta_ off bytes.length)

/-- `dropped` of `dropSpeculative`. -/
def droppedBytes (e : FileEntry) (off len : Nat) : Nat :=
  tally dropSpecPage (stagedAs true) e (loopPages e.meta_ off len)

/-- `used` of `consumeSpeculative`. -/
def consumedBytes (e : FileEntry) (off len : Nat) : Nat :=
  let stop := min (off + len) e.meta_.fileSize
  if len = 0 ∨ stop ≤ off then 0
  else
    let whole := wholePages e.meta_ off stop
    let edges := [off / e.meta_.pageSize, (stop - 1) / e.meta_.pageSize].filter (· ∉ whole)
    tally dropSpecPage (stagedAs true) (edges.foldl touchSpecPage e) whole

/-- Bytes `releaseRanges` takes out of the pool of pages whose mark is `sp`. -/
def releasedBytes (sp : Bool) (e : FileEntry) (ranges : List (Nat × Nat)) : Nat :=
  tally releaseOne
    (fun e span => tally releasePage (stagedAs sp) e (List.range' span.1 (span.2 - span.1)))
    e (ranges.filterMap (releaseSpan e.meta_))

/-- `specServed` grows by page `i`: staged, marked, and the read is a reader's. -/
def servedAt (account : Bool) (e : FileEntry) (i : Nat) : Nat :=
  match e.staged i with
  | some p => if p.spec && account then e.meta_.pageBytes i else 0
  | none => 0

/-- `specServed` when the planning loop ends, at its last page or at an absent one. -/
def planServed (off len : Nat) (account : Bool) : ReadPlan → List Nat → Nat
  | _, [] => 0
  | st, i :: rest =>
      match planPage off len account st i with
      | some st' => servedAt account st.e i + planServed off len account st' rest
      | none => 0

/-- `specServed` of `readCached`. -/
def readServed (e : FileEntry) (off : Nat) (buf : Bytes) (account : Bool) : Nat :=
  let first := off / e.meta_.pageSize
  let last := (off + buf.length - 1) / e.meta_.pageSize
  planServed off buf.length account { e := e, out := buf, runs := [] }
    (List.range' first (last + 1 - first))

end FileEntry

theorem mem_loopPages {m : MetaData} {off len : Nat} (h : i ∈ FileEntry.loopPages m off len) :
    i < m.npages :=
  (mem_wholePages h).1

theorem meta_stagePage (off : Nat) (bytes : Bytes) (e : FileEntry) (i : Nat) :
    (FileEntry.stagePage off bytes e i).meta_ = e.meta_ := by
  unfold FileEntry.stagePage
  split
  · split <;> rfl
  · split <;> rfl

theorem meta_stageSpecPage (off : Nat) (bytes : Bytes) (e : FileEntry) (i : Nat) :
    (FileEntry.stageSpecPage off bytes e i).meta_ = e.meta_ := by
  unfold FileEntry.stageSpecPage
  split <;> rfl

/-- [SRC FileEntry.cc:511-537] -/
theorem moves_stagePages (h : Pooled e) (off : Nat) (bytes : Bytes) :
    Moves e (e.stagePages off bytes)
      ((e.coveredBytes off bytes : Int) + e.stagedBytes off bytes)
      (-(e.coveredBytes off bytes : Int)) := by
  have hmove := Moves.foldl (FileEntry.loopPages e.meta_ off bytes.length) (fun e' => e'.meta_ = e.meta_)
    (fun e' i hi hm h' => ⟨(meta_stagePage off bytes e' i).trans hm,
      moves_stagePage off bytes h' (hm ▸ mem_loopPages hi)⟩) rfl h
  rw [tally_add, tally_cast, tally_cast, tally_neg] at hmove
  exact hmove

/-- [SRC FileEntry.cc:559-590] -/
theorem moves_stageSpeculative (h : Pooled e) (off : Nat) (bytes : Bytes) :
    Moves e (e.stageSpeculative off bytes) 0 (e.specStagedBytes off bytes) := by
  unfold FileEntry.stageSpeculative FileEntry.specStagedBytes
  split
  · exact Moves.refl h
  · have hmove := Moves.foldl (FileEntry.loopPages e.meta_ off bytes.length) (fun e' => e'.meta_ = e.meta_)
      (fun e' i hi hm h' => ⟨(meta_stageSpecPage off bytes e' i).trans hm,
        moves_stageSpecPage off bytes h' (hm ▸ mem_loopPages hi)⟩) rfl h
    rw [tally_zero, tally_cast] at hmove
    exact hmove

/-- Dropping marked pages, over any list of them. -/
theorem moves_dropSpecPages (h : Pooled e) (pages : List Nat) :
    Moves e (pages.foldl FileEntry.dropSpecPage e) 0
      (-((tally FileEntry.dropSpecPage (stagedAs true) e pages : Nat) : Int)) := by
  have hmove := Moves.foldl (pages) (fun _ => True)
    (fun _ i _ _ h' => ⟨trivial, moves_dropSpecPage h' i⟩) trivial h
  rw [tally_zero, tally_neg] at hmove
  exact hmove

/-- [SRC FileEntry.cc:592-628] -/
theorem moves_dropSpeculative (h : Pooled e) (off len : Nat) :
    Moves e (e.dropSpeculative off len) 0 (-(e.droppedBytes off len : Int)) :=
  moves_dropSpecPages h _

/-- [SRC FileEntry.cc:644-682] -/
theorem moves_consumeSpeculative (h : Pooled e) (off len : Nat) :
    Moves e (e.consumeSpeculative off len) 0 (-(e.consumedBytes off len : Int)) := by
  unfold FileEntry.consumeSpeculative FileEntry.consumedBytes
  simp only
  split
  · exact Moves.refl h
  · have htouch := Moves.foldl ([off / e.meta_.pageSize,
        (min (off + len) e.meta_.fileSize - 1) / e.meta_.pageSize].filter
        (· ∉ FileEntry.wholePages e.meta_ off (min (off + len) e.meta_.fileSize))) (fun _ => True)
      (fun _ i _ _ h' => ⟨trivial, moves_touchSpecPage h' i⟩) trivial h
    rw [tally_zero] at htouch
    simpa using htouch.trans (moves_dropSpecPages htouch.pooled _)

/-- [SRC FileEntry.cc:1222-1263] -/
theorem moves_releaseSection (h : Pooled e) (ranges : List (Nat × Nat)) :
    Moves e (e.releaseSection ranges).1 (-(e.releasedBytes false ranges : Int))
      (-(e.releasedBytes true ranges : Int)) := by
  have hone : ∀ (e' : FileEntry) (span : Nat × Nat), Pooled e' →
      Moves e' (e'.releaseOne span)
        (-((tally FileEntry.releasePage (stagedAs false) e'
          (List.range' span.1 (span.2 - span.1)) : Nat) : Int))
        (-((tally FileEntry.releasePage (stagedAs true) e'
          (List.range' span.1 (span.2 - span.1)) : Nat) : Int)) := by
    intro e' span h'
    have hpages := Moves.foldl (List.range' span.1 (span.2 - span.1)) (fun _ => True)
      (fun _ i _ _ h'' => ⟨trivial, moves_releasePage h'' i⟩) trivial h'
    rw [tally_neg, tally_neg] at hpages
    have hflag : Moves ((List.range' span.1 (span.2 - span.1)).foldl FileEntry.releasePage e')
        (e'.releaseOne span) 0 0 :=
      Moves.of_stage hpages.pooled rfl rfl rfl rfl rfl rfl rfl
    simpa using hpages.trans hflag
  have hmove := Moves.foldl (ranges.filterMap (FileEntry.releaseSpan e.meta_))
    (fun _ => True) (fun e' span _ _ h' => ⟨trivial, hone e' span h'⟩) trivial h
  rw [tally_neg, tally_neg] at hmove
  exact hmove

/-- One page of the planning loop moves what it adds to `specServed`. -/
theorem moves_planPage {off len : Nat} {account : Bool} {st st' : FileEntry.ReadPlan}
    (h : Pooled st.e) (hst : FileEntry.planPage off len account st i = some st') :
    Moves st.e st'.e (FileEntry.servedAt account st.e i) (-(FileEntry.servedAt account st.e i : Int)) := by
  unfold FileEntry.planPage at hst
  simp only at hst
  split at hst
  · rename_i p hp
    cases hst
    simp only [FileEntry.servedAt, hp]
    cases hmark : p.spec && account with
    | false => simpa using Moves.refl h
    | true =>
        have hs : p.spec = true := (Bool.and_eq_true_iff.1 hmark).1
        -- A marked page is in the stage: a drain holds only demanded ones.
        have hb : st.e.buf i = some p := by
          rcases Option.or_eq_some_iff.1 hp with hb | ⟨-, hf⟩
          · exact hb
          · simp [h.demanded i p hf] at hs
        simpa using moves_unmarkSpeculative h hb hs
  · rename_i hp
    split at hst
    · cases hst
      simpa [FileEntry.servedAt, hp] using Moves.refl h
    · simp at hst

theorem moves_planPages (off len : Nat) (account : Bool) :
    ∀ (pages : List Nat) (st : FileEntry.ReadPlan), Pooled st.e →
      Moves st.e (FileEntry.planPages off len account st pages).1.e
        (FileEntry.planServed off len account st pages)
        (-(FileEntry.planServed off len account st pages : Int))
  | [], _, h => Moves.refl h
  | i :: rest, st, h => by
      unfold FileEntry.planPages FileEntry.planServed
      cases hst : FileEntry.planPage off len account st i with
      | none => exact Moves.refl h
      | some st' =>
          have hone := moves_planPage h hst
          have hrest := moves_planPages off len account rest st' hone.pooled
          have hboth := hone.trans hrest
          rw [← Int.neg_add, ← Int.natCast_add] at hboth
          exact hboth

/-- [SRC FileEntry.cc:381-433] -/
theorem moves_readPlan (h : Pooled e) (off : Nat) (buf : Bytes) (account : Bool) :
    Moves e (e.readPlan off buf account).1.e (e.readServed off buf account)
      (-(e.readServed off buf account : Int)) :=
  moves_planPages off buf.length account _ { e := e, out := buf, runs := [] } h

/-- [SRC FileEntry.cc:803-816] The snapshot takes the whole demanded pool. -/
theorem moves_drainSnapshot (h : Pooled e) : Moves e e.drainSnapshot (-(e.bufBytes : Int)) 0 := by
  have hkeep : ∀ sp, poolBytes e.drainSnapshot sp = if sp then poolBytes e true else 0 := by
    intro sp
    have hpage : ∀ i, pagePool e.meta_ sp i ((e.buf i).filter fun p => p.spec) =
        if sp then pagePool e.meta_ true i (e.buf i) else 0 := by
      intro i
      cases hb : e.buf i with
      | none => cases sp <;> rfl
      | some p => cases sp <;> cases hs : p.spec <;> simp [Option.filter, pagePool, hs]
    simp only [poolBytes, FileEntry.drainSnapshot, hpage]
    cases sp <;> simp
  refine ⟨⟨?_, ?_, ?_, ?_, ?_, ?_⟩, ?_, ?_⟩
  · exact (hkeep false).symm
  · exact h.spec.trans (hkeep true).symm
  · intro i p hp
    simp only [FileEntry.drainSnapshot, Option.filter_eq_some_iff] at hp
    exact h.inside i p hp.1
  · intro i p hp
    simp only [FileEntry.drainSnapshot, Option.filter_eq_some_iff] at hp
    simp [FileEntry.drainSnapshot, hp.1, Option.filter, hp.2]
  · intro i p hp
    simp only [FileEntry.drainSnapshot, Option.filter_eq_some_iff] at hp
    simpa using hp.2
  · simp [FileEntry.drainSnapshot]
  · simp [FileEntry.drainSnapshot]
  · simp [FileEntry.drainSnapshot]

theorem moves_publishAll (h : Pooled e) (done : List (Nat × UInt32)) :
    Moves e (e.publishAll done) 0 0 := by
  have hone : ∀ (e' : FileEntry) (pc : Nat × UInt32), Pooled e' →
      Moves e' (e'.publishPage pc.1 pc.2) 0 0 := fun _ _ h' =>
    Moves.of_stage h' rfl rfl rfl rfl rfl rfl rfl
  have hmove := Moves.foldl done (fun _ => True) (fun e' pc _ _ h' => ⟨trivial, hone e' pc h'⟩)
    trivial h
  rw [tally_zero] at hmove
  exact hmove

theorem moves_directPublish (h : Pooled e) (done : List (Nat × UInt32)) :
    Moves e (e.directPublish done) 0 0 := by
  have hall := moves_publishAll h done
  have hmark : Moves (e.publishAll done) (e.directPublish done) 0 0 :=
    Moves.of_stage hall.pooled rfl rfl rfl rfl rfl rfl rfl
  simpa using hall.trans hmark

/-- [SRC FileEntry.cc:872-885] The end of a drain frees the snapshot; its bytes left the pool when
the snapshot was taken. -/
theorem moves_drainPublish (h : Pooled e) (done : List (Nat × UInt32)) :
    Moves e (e.drainPublish done) 0 0 := by
  have hall := moves_publishAll h done
  have hmark : Moves (e.publishAll done)
      (if done.isEmpty then e.publishAll done else (e.publishAll done).markPublished) 0 0 := by
    split
    · exact Moves.refl hall.pooled
    · exact Moves.of_stage hall.pooled rfl rfl rfl rfl rfl rfl rfl
  have hbits := hall.trans hmark
  have hfree : Moves
      (if done.isEmpty then e.publishAll done else (e.publishAll done).markPublished)
      (e.drainPublish done) 0 0 := by
    refine ⟨⟨hbits.pooled.buf, hbits.pooled.spec, hbits.pooled.inside, ?_, ?_, ?_⟩, ?_, ?_⟩
    · exact fun _ _ _ => rfl
    · intro i p hp
      simp [FileEntry.drainPublish] at hp
    · exact fun _ _ => rfl
    · simp [FileEntry.drainPublish]
    · simp [FileEntry.drainPublish]
  simpa using hbits.trans hfree

theorem moves_demoteRun (h : Pooled e) (i : Nat) : Moves e (e.demoteRun i i) 0 0 := by
  have hone : i + 1 - i = 1 := by omega
  refine Moves.of_stage h ?_ ?_ ?_ ?_ ?_ ?_ ?_ <;>
    simp [FileEntry.demoteRun, hone, FileEntry.retractPage]

/-- The loop over the whole file visits every page. -/
theorem wholePages_all (m : MetaData) :
    FileEntry.wholePages m 0 (min (0 + m.fileSize) m.fileSize) = List.range m.npages := by
  unfold FileEntry.wholePages
  rcases Nat.eq_zero_or_pos m.pageSize with hz | hp
  · have hn : m.npages = 0 := by simp [MetaData.npages, MetaData.pagesOf, hz]
    simp [hn]
  · have hfirst : (m.pageSize - 1) / m.pageSize = 0 := Nat.div_eq_of_lt (by omega)
    simp only [Nat.zero_add, Nat.min_self, hfirst, Nat.sub_zero]
    rw [← List.range_eq_range', List.takeWhile_eq_self_iff]
    intro i hi
    have hi' := List.mem_range.1 hi
    simp [MetaData.start_lt hi', MetaData.end_le hi']

/-- A page still marked after a loop of drops was not in the loop. -/
theorem marked_of_dropSpecPages {pages : List Nat} {p : BufPage}
    (hp : (pages.foldl FileEntry.dropSpecPage e).buf i = some p) (hs : p.spec = true) :
    i ∉ pages ∧ e.buf i = some p := by
  induction pages generalizing e with
  | nil => exact ⟨by simp, hp⟩
  | cons j pages ih =>
      obtain ⟨hnot, hb⟩ := ih hp
      unfold FileEntry.dropSpecPage at hb
      by_cases hij : i = j
      · subst hij
        cases hbi : e.buf i with
        | none => simp [hbi] at hb
        | some q =>
            cases hq : q.spec with
            | true => simp [hbi, hq] at hb
            | false =>
                simp only [hbi, hq, Bool.false_eq_true, if_false, Option.some.injEq] at hb
                subst hb
                simp [hs] at hq
      · refine ⟨by simp [hij, hnot], ?_⟩
        split at hb
        · split at hb
          · simpa [Function.update_of_ne hij] using hb
          · exact hb
        · exact hb

/-- `dropAllSpeculative` leaves nothing speculative. -/
theorem specBytes_dropAll (h : Pooled e) :
    (e.dropSpeculative 0 e.meta_.fileSize).specBytes = 0 := by
  rw [(moves_dropSpeculative h 0 e.meta_.fileSize).pooled.spec]
  refine Finset.sum_eq_zero ?_
  intro i _
  cases hb : (e.dropSpeculative 0 e.meta_.fileSize).buf i with
  | none => rfl
  | some p =>
      cases hs : p.spec with
      | false => simp [pagePool, hs]
      | true =>
          unfold FileEntry.dropSpeculative at hb
          rw [wholePages_all] at hb
          obtain ⟨hnot, hbefore⟩ := marked_of_dropSpecPages hb hs
          exact absurd (List.mem_range.2 (h.inside i p hbefore)) hnot

end UCache
