/-
Module: UCache.Core.FillStock
Purpose: Calls one after another on an entry that nothing else uses, and a machine that knows only
  which pages of the origin are here.  What the entry keeps of it between two calls, through staging,
  direct writing, draining and committing.
Trusted boundary: none
Main exports: Call, Call.run, runCalls
-/
import UCache.Core.CachedReads
import UCache.Core.Releases
import UCache.Core.StagePools

namespace UCache.FillPaths

open Lib FileEntry Alone Presence

/-! ### The calls -/

/-- The calls that fill, read and release. -/
inductive Call where
  | writePages (off : Nat) (bytes : Bytes)
  | readCached (off : Nat) (buf : Bytes) (account : Bool)
  | hasRange (off len : Nat)
  | flushAll
  | releaseRanges (ranges : List (Nat × Nat))

/-- What a call tells its caller.  A read that returns false leaves its buffer undefined. -/
inductive Answer where
  | done
  | read (out : Option Bytes)
  | range (here : Bool)
deriving DecidableEq

/-- A handle and the disk under it. -/
abbrev Entry := FileEntry × Disk

def Call.run (t : Timing) (s : Entry) : Call → Entry × Answer
  | .writePages off bytes => (Alone.writePages t off bytes s.1 s.2, .done)
  | .readCached off buf account =>
      let r := Alone.readCached t off buf account s.1 s.2
      ((r.1, s.2), .read r.2)
  | .hasRange off len => (s, .range (Presence.hasRange s.1 off len))
  | .flushAll => (Alone.flushAll t s.1 s.2, .done)
  | .releaseRanges ranges => (Alone.releaseRanges t ranges s.1 s.2, .done)

/-- The calls in order, each with what the clock decides in it: where they leave the entry, and their
answers. -/
def runCalls (s : Entry) : List (Timing × Call) → Entry × List Answer
  | [] => (s, [])
  | (t, c) :: rest =>
      let r := c.run t s
      let u := runCalls r.1 rest
      (u.1, r.2 :: u.2)

/-! ### What an entry is for -/

/-- Which pages are here: all that a caller can see of an entry filled from one origin. -/
abbrev Stock := Nat → Prop

/-- What a call does to the stock of an entry with the geometry of `m`. -/
def Stock.next (m : MetaData) (A : Stock) : Call → Stock
  | .writePages off bytes =>
      fun i => A i ∨ i ∈ wholePages m off (min (off + bytes.length) m.fileSize)
  | .releaseRanges ranges => fun i => A i ∧ ¬ Releases.Inside m ranges i
  | _ => A

open Classical in
/-- What a call answers out of the stock. -/
noncomputable def Stock.answer (O : Bytes) (m : MetaData) (A : Stock) : Call → Answer
  | .readCached off buf _ => .read <|
      if buf.length = 0 then some buf
      else if off + buf.length ≤ m.fileSize ∧ ∀ i, Touches m off buf.length i → A i then
        some (slice O off buf.length)
      else none
  | .hasRange off len => .range <|
      decide (0 < len ∧ ¬ wraps off len ∧ off + len ≤ m.fileSize ∧ ∀ i, Touches m off len i → A i)
  | _ => .done

/-- The stock and the answers of calls in order. -/
noncomputable def Stock.run (O : Bytes) (m : MetaData) (A : Stock) : List Call → Stock × List Answer
  | [] => (A, [])
  | c :: rest =>
      let u := (A.next m c).run O m rest
      (u.1, A.answer O m c :: u.2)

/-- The bytes a write hands over are the origin's. -/
def Call.OfOrigin (O : Bytes) : Call → Prop
  | .writePages off bytes => OriginBytes O off bytes
  | _ => True

/-! ### What the code keeps -/

/-- The data file has the origin's byte `b`. -/
def Saved (O : Bytes) (data : DataFile) (b : Nat) : Prop :=
  b < data.size ∧ O[b]? = some (data.byte b)

def PageSaved (O : Bytes) (m : MetaData) (data : DataFile) (i : Nat) : Prop :=
  ∀ b, i * m.pageSize ≤ b → b < i * m.pageSize + m.pageBytes i → Saved O data b

/-- The sidecar a commit would merge into tells the handle nothing new: no other handle has been at
it. -/
def OwnSidecar (e : FileEntry) (d : Disk) : Prop :=
  ∀ disk, mergeBase e d = some disk → ∀ i < e.meta_.npages,
    committedPage e disk i = e.meta_.seen i

/-- Between two calls the entry holds the pages of the stock and no others, in the stage or in the
data file, as the origin has them. -/
structure Holds (O : Bytes) (m : MetaData) (A : Stock) (s : Entry) : Prop where
  geo : Geometry m s.1
  pooled : Pooled s.1
  idle : s.1.flushInProgress = false
  staged : ∀ i p, s.1.buf i = some p → p.spec = false ∧ PageIs O m i p.data p.crc
  here : ∀ i < m.npages, A i ↔ (s.1.buf i).isSome = true ∨ s.1.meta_.bitmap.get i = true
  crc : ∀ i < m.npages, s.1.meta_.bitmap.get i = true →
    s.1.meta_.pageCrcs i = crc32c (originPage O m i)
  blank : ∀ i < m.npages, s.1.meta_.bitmap.get i = false → s.1.meta_.pageCrcs i = 0
  saved : ∀ i < m.npages, s.1.meta_.bitmap.get i = true → PageSaved O m s.2.data i
  own : OwnSidecar s.1 s.2

section Fill

variable {O : Bytes} {m : MetaData} {A : Stock} {e : FileEntry} {d : Disk}

theorem Holds.flushing (h : Holds O m A (e, d)) (i : Nat) : e.flushing i = none :=
  h.pooled.quiet h.idle i

/-- What a page shows to its readers is all that is kept of it. -/
theorem Holds.seen_eq (h : Holds O m A (e, d)) {i : Nat} (hi : i < m.npages) :
    e.meta_.seen i = e.meta_.page i := by
  rw [MetaData.seen, MetaData.page]
  cases hbit : e.meta_.bitmap.get i with
  | true => rfl
  | false => exact Prod.ext rfl (h.blank i hi hbit).symm

/-- A change to no page keeps what the entry holds. -/
theorem Holds.same_pages {e' : FileEntry} {d' : Disk} (h : Holds O m A (e, d))
    (hgeo : Geometry m e') (hpooled : Pooled e') (hbuf : e'.buf = e.buf)
    (hidle : e'.flushInProgress = e.flushInProgress)
    (hpage : ∀ i < m.npages, e'.meta_.page i = e.meta_.page i) (hdata : d'.data = d.data)
    (hown : OwnSidecar e' d') : Holds O m A (e', d') where
  geo := hgeo
  pooled := hpooled
  idle := hidle.trans h.idle
  staged i p hp := h.staged i p (by rwa [← hbuf])
  here i hi := by
    have hbit : e'.meta_.bitmap.get i = e.meta_.bitmap.get i := congrArg Prod.fst (hpage i hi)
    simp only [hbuf, hbit]
    exact h.here i hi
  crc i hi hbit := by
    obtain ⟨hsame, hcrc⟩ := Prod.ext_iff.1 (hpage i hi)
    exact hcrc.trans (h.crc i hi (hsame.symm.trans hbit))
  blank i hi hbit := by
    obtain ⟨hsame, hcrc⟩ := Prod.ext_iff.1 (hpage i hi)
    exact hcrc.trans (h.blank i hi (hsame.symm.trans hbit))
  saved i hi hbit := by
    simp only [hdata]
    exact h.saved i hi ((congrArg Prod.fst (hpage i hi)).symm.trans hbit)
  own := hown

theorem SameStage.pooled {e' : FileEntry} (h : SameStage e e') (hp : Pooled e) : Pooled e' :=
  (Moves.of_stage hp h.pageSize h.fileSize h.buf h.flushing h.bufBytes h.specBytes h.busy).pooled

/-- What a commit stored is what the handle says, so the next one finds nothing new. -/
theorem own_of_committed {e' : FileEntry} {d' : Disk} (h : Committed e d e' d') :
    OwnSidecar e' d' := by
  intro disk hbase i hi
  obtain ⟨hlinked, hload, -, -⟩ := mergeBase_eq_some hbase
  obtain ⟨out, hout, -, -, hseen⟩ := h.stored (h.linked ▸ hlinked)
  obtain ⟨stored, hstored, -, rfl⟩ := MetaFile.load_eq_some hload
  obtain rfl : stored = out := by
    rw [hstored] at hout
    exact Option.some.inj hout
  have hn : e'.meta_.npages = e.meta_.npages := by
    simp [MetaData.npages, h.stage.pageSize, h.stage.fileSize]
  rw [committedPage, h.clearedSince, h.setSince]
  simp only [Bool.false_eq_true, if_false]
  rw [← hseen i (hn ▸ hi)]
  rfl

/-- A commit tells the handle nothing new, and leaves a sidecar that tells it nothing new. -/
theorem holds_flushMeta (force : Bool) (t : Timing) (h : Holds O m A (e, d)) :
    Holds O m A (flushMeta force t e d) := by
  cases hskip : (!e.dirty || (!force && !t.metaDue)) with
  | true =>
      rw [flushMeta_skip d hskip]
      exact h
  | false =>
      have hcommit := @committed_flushMeta force t e d hskip
      generalize flushMeta force t e d = r at hcommit ⊢
      obtain ⟨e', d'⟩ := r
      simp only at hcommit
      have hstage := hcommit.stage
      refine h.same_pages
        ⟨hstage.pageSize.trans h.geo.pageSize, hstage.fileSize.trans h.geo.fileSize⟩
        (SameStage.pooled hstage h.pooled) hstage.buf hstage.busy (fun i hi => ?_) hcommit.data
        (own_of_committed hcommit)
      have hi' : i < e.meta_.npages := h.geo.npages.symm ▸ hi
      rw [hcommit.page i hi']
      cases hbase : mergeBase e d with
      | none => rfl
      | some disk => exact (h.own disk hbase i hi').trans (h.seen_eq hi)

theorem holds_touchAtime (t : Timing) (h : Holds O m A (e, d)) :
    Holds O m A (touchAtime t e, d) := by
  unfold touchAtime
  split
  · refine h.same_pages ⟨h.geo.pageSize, h.geo.fileSize⟩ ?_ rfl rfl (fun _ _ => rfl) rfl h.own
    have hmove : Moves e { e with meta_ := { e.meta_ with atime := t.now }, dirty := true } 0 0 :=
      Moves.of_stage h.pooled rfl rfl rfl rfl rfl rfl rfl
    exact hmove.pooled
  · exact h

/-! ### Staging -/

theorem Holds.congr {B : Stock} {s : Entry} (h : Holds O m A s) (hAB : ∀ i < m.npages, A i ↔ B i) :
    Holds O m B s :=
  { h with here := fun i hi => (hAB i hi).symm.trans (h.here i hi) }

/-- A page that is here already can be named again. -/
theorem Holds.add {s : Entry} (h : Holds O m A s) {i : Nat} (hi : A i) :
    Holds O m (fun j => A j ∨ j = i) s :=
  h.congr fun _ _ => ⟨.inl, fun hj => hj.elim id fun hji => hji ▸ hi⟩

theorem holds_stagePage {off i : Nat} {bytes : Bytes} (hO : O.length = m.fileSize)
    (hbytes : OriginBytes O off bytes) (hin : InBuffer m off bytes.length i)
    (h : Holds O m A (e, d)) : Holds O m (fun j => A j ∨ j = i) (stagePage off bytes e i, d) := by
  have hi : i < m.npages := hin.1
  have hpooled := (moves_stagePage off bytes h.pooled (h.geo.npages.symm ▸ hi)).pooled
  have hpage := cutPage_isOrigin hO hbytes h.geo hin
  unfold stagePage at hpooled ⊢
  cases hbuf : e.buf i with
  | some p =>
      have hspec := (h.staged i p hbuf).1
      simp only [hspec, Bool.false_eq_true, if_false]
      exact h.add ((h.here i hi).2 (.inl (by simp [hbuf])))
  | none =>
      simp only [hbuf] at hpooled ⊢
      split
      · rename_i hcond
        simp only [h.flushing, Option.isSome_none, Bool.or_false] at hcond
        exact h.add ((h.here i hi).2 (.inr hcond))
      · rename_i hcond
        rw [if_neg hcond] at hpooled
        refine ⟨⟨h.geo.pageSize, h.geo.fileSize⟩, hpooled, h.idle, fun j p hj => ?_, fun j hj => ?_,
          h.crc, h.blank, h.saved, h.own⟩
        · by_cases hji : j = i
          · subst hji
            simp only [Function.update_self, Option.some.injEq] at hj
            subst hj
            exact ⟨rfl, hpage⟩
          · simp only [Function.update_of_ne hji] at hj
            exact h.staged j p hj
        · by_cases hji : j = i
          · subst hji
            simp
          · simp only [Function.update_of_ne hji, hji, or_false]
            exact h.here j hj

/-- The pages of a list that a write covers, staged one after another. -/
theorem holds_stageList {off : Nat} {bytes : Bytes} (hO : O.length = m.fileSize)
    (hbytes : OriginBytes O off bytes) (pages : List Nat)
    (hpages : ∀ i ∈ pages, InBuffer m off bytes.length i) (h : Holds O m A (e, d)) :
    Holds O m (fun j => A j ∨ j ∈ pages) (pages.foldl (stagePage off bytes) e, d) := by
  induction pages generalizing A e with
  | nil => exact h.congr fun i _ => by simp
  | cons i pages ih =>
      have hone := holds_stagePage hO hbytes (hpages i (by simp)) h
      refine (ih (fun j hj => hpages j (by simp [hj])) hone).congr fun j _ => ?_
      simp [or_assoc]

/-! ### Writing and publishing -/

/-- Writing the origin's bytes in their place loses none and saves those written. -/
theorem saved_write {data : DataFile} {a b : Nat} {w : Bytes}
    (hw : ∀ k < w.length, w[k]? = O[a + k]?)
    (h : Saved O data b ∨ a ≤ b ∧ b < a + w.length) : Saved O (data.write a w) b := by
  unfold DataFile.write
  split
  · rename_i hempty
    have hlen : w.length = 0 := by simpa using hempty
    exact h.resolve_right (by omega)
  · by_cases hin : a ≤ b ∧ b < a + w.length
    · refine ⟨lt_max_of_lt_right hin.2, ?_⟩
      have hget := hw (b - a) (by omega)
      rw [Nat.add_sub_cancel' hin.1] at hget
      simp only [if_pos hin, ← hget, List.getD_eq_getElem?_getD]
      rw [List.getElem?_eq_getElem (by omega)]
      rfl
    · obtain ⟨hsize, hbyte⟩ := h.resolve_right hin
      refine ⟨lt_max_of_lt_left hsize, ?_⟩
      simp only [if_neg hin]
      exact hbyte

/-- A data file that keeps the origin's bytes keeps what the entry holds. -/
theorem Holds.data (h : Holds O m A (e, d)) {data : DataFile}
    (hkeep : ∀ b, Saved O d.data b → Saved O data b) : Holds O m A (e, { d with data := data }) :=
  { h with saved := fun i hi hbit b h1 h2 => hkeep b (h.saved i hi hbit b h1 h2) }

/-- Publishing a page whose bytes are in the data file. -/
theorem holds_publishPage {i : Nat} {crc : UInt32} (h : Holds O m A (e, d))
    (hsaved : PageSaved O m d.data i) (hcrc : crc = crc32c (originPage O m i)) :
    Holds O m (fun j => A j ∨ j = i) (e.publishPage i crc, d) where
  geo := ⟨h.geo.pageSize, h.geo.fileSize⟩
  pooled := by
    have hmove : Moves e (e.publishPage i crc) 0 0 :=
      Moves.of_stage h.pooled rfl rfl rfl rfl rfl rfl rfl
    exact hmove.pooled
  idle := h.idle
  staged := h.staged
  here j hj := by
    have := h.here j hj
    by_cases hji : j = i
    · subst hji
      simp [publishPage]
    · simpa [publishPage, hji] using this
  crc j hj hbit := by
    by_cases hji : j = i
    · subst hji
      simpa [publishPage] using hcrc
    · simp only [publishPage, Function.update_of_ne hji, PageBitmap.get_set, hji] at hbit ⊢
      exact h.crc j hj hbit
  blank j hj hbit := by
    by_cases hji : j = i
    · subst hji
      simp [publishPage] at hbit
    · simp only [publishPage, Function.update_of_ne hji, PageBitmap.get_set, hji] at hbit ⊢
      exact h.blank j hj hbit
  saved j hj hbit := by
    by_cases hji : j = i
    · exact hji ▸ hsaved
    · simp only [publishPage, PageBitmap.get_set, hji] at hbit
      exact h.saved j hj hbit
  own disk hbase j hj := by
    by_cases hji : j = i
    · subst hji
      simp [committedPage, publishPage, MetaData.seen]
    · have hsame := h.own disk hbase j hj
      simpa [committedPage, publishPage, MetaData.seen, hji] using hsame

theorem holds_publishAll (done : List (Nat × UInt32)) (h : Holds O m A (e, d))
    (hdone : ∀ pc ∈ done, PageSaved O m d.data pc.1 ∧ pc.2 = crc32c (originPage O m pc.1)) :
    Holds O m (fun j => A j ∨ j ∈ done.map Prod.fst) (e.publishAll done, d) := by
  induction done generalizing A e with
  | nil => exact h.congr fun i _ => by simp
  | cons pc done ih =>
      obtain ⟨hsaved, hcrc⟩ := hdone pc (by simp)
      have hone := holds_publishPage h hsaved hcrc
      refine (ih hone fun q hq => hdone q (by simp [hq])).congr fun j _ => ?_
      simp [or_assoc]

theorem holds_markPublished (h : Holds O m A (e, d)) : Holds O m A (e.markPublished, d) := by
  refine h.same_pages ⟨h.geo.pageSize, h.geo.fileSize⟩ ?_ rfl rfl (fun _ _ => rfl) rfl h.own
  have hmove : Moves e e.markPublished 0 0 := Moves.of_stage h.pooled rfl rfl rfl rfl rfl rfl rfl
  exact hmove.pooled

/-! ### Writing directly -/

/-- A page of the origin in its place. -/
theorem originPage_getElem? {i k : Nat} (hk : k < (originPage O m i).length) :
    (originPage O m i)[k]? = O[i * m.pageSize + k]? := by
  have hlen : k < m.pageBytes i := by
    rw [originPage, length_slice] at hk
    omega
  exact getElem?_originPage hlen

/-- The write loop saves the absent pages of its list, and what it lists as done is saved. -/
theorem directPages_spec {off : Nat} {bytes : Bytes} (hO : O.length = m.fileSize)
    (hbytes : OriginBytes O off bytes)
    (hgeo : Geometry m e) (pages : List Nat)
    (hpages : ∀ i ∈ pages, InBuffer m off bytes.length i)
    (data : DataFile) (done : List (Nat × UInt32))
    (hdone : ∀ pc ∈ done, PageSaved O m data pc.1 ∧ pc.2 = crc32c (originPage O m pc.1)) :
    let r := directPages e off bytes pages data done
    (∀ b, Saved O data b → Saved O r.1 b) ∧
      (∀ pc ∈ r.2, PageSaved O m r.1 pc.1 ∧ pc.2 = crc32c (originPage O m pc.1)) ∧
      ∀ i, i ∈ r.2.map Prod.fst ↔
        i ∈ done.map Prod.fst ∨ (i ∈ pages ∧ e.meta_.bitmap.get i = false) := by
  induction pages generalizing data done with
  | nil => exact ⟨fun _ h => h, hdone, fun i => by simp [directPages]⟩
  | cons i pages ih =>
      have hrest (j : Nat) (hj : j ∈ pages) := hpages j (by simp [hj])
      simp only [directPages]
      split
      · rename_i hpresent
        obtain ⟨hkeep, hall, hmem⟩ := ih hrest data done hdone
        refine ⟨hkeep, hall, fun j => (hmem j).trans (or_congr_right ?_)⟩
        simp only [List.mem_cons, or_and_right]
        refine (or_iff_right ?_).symm
        rintro ⟨rfl, habsent⟩
        simp [hpresent] at habsent
      · rename_i habsent
        have hi : i < m.npages := (hpages i (by simp)).1
        obtain ⟨hpage, -⟩ := cutPage_isOrigin hO hbytes hgeo (hpages i (by simp))
        rw [hpage, hgeo.pageSize]
        have hwrite (b : Nat) := @saved_write O data (i * m.pageSize) b (originPage O m i)
          fun k hk => originPage_getElem? hk
        have hsaved : PageSaved O m (data.write (i * m.pageSize) (originPage O m i)) i := by
          intro b h1 h2
          exact hwrite b (.inr ⟨h1, by rwa [length_originPage hO hi]⟩)
        obtain ⟨hkeep, hall, hmem⟩ := ih hrest
          (data.write (i * m.pageSize) (originPage O m i))
          (done ++ [(i, crc32c (originPage O m i))]) (by
            intro pc hpc
            rcases List.mem_append.1 hpc with hpc | hpc
            · exact ⟨fun b h1 h2 => hwrite b (.inl ((hdone pc hpc).1 b h1 h2)), (hdone pc hpc).2⟩
            · obtain rfl := List.mem_singleton.1 hpc
              exact ⟨hsaved, rfl⟩)
        refine ⟨fun b hb => hkeep b (hwrite b (.inl hb)), hall, fun j => (hmem j).trans ?_⟩
        have habsent : e.meta_.bitmap.get i = false := by simpa using habsent
        simp only [List.map_append, List.mem_append, List.map_cons, List.map_nil, List.mem_cons,
          List.not_mem_nil, false_or, or_and_right, or_assoc]
        refine or_congr_right (or_congr_left ?_)
        constructor
        · rintro rfl
          exact ⟨rfl, habsent⟩
        · exact fun hj => hj.1

/-- What was written directly is published. -/
theorem holds_directEnd (t : Timing) {done : List (Nat × UInt32)} (h : Holds O m A (e, d))
    (hdone : ∀ pc ∈ done, PageSaved O m d.data pc.1 ∧ pc.2 = crc32c (originPage O m pc.1)) :
    Holds O m (fun j => A j ∨ j ∈ done.map Prod.fst) (directEnd t e done d) := by
  unfold directEnd
  split
  · rename_i hnone
    obtain rfl : done = [] := List.isEmpty_iff.1 hnone
    exact h.congr fun i _ => by simp
  · have hpub := holds_markPublished (holds_publishAll done h hdone)
    exact holds_flushMeta false t (holds_touchAtime t hpub)

/-! ### Draining -/

/-- The bytes of a run of staged pages are a stretch of the origin. -/
theorem runData_isOrigin {m' : MetaData} (hO : O.length = m.fileSize)
    (hbytes : ∀ i, m'.pageBytes i = m.pageBytes i) (run : List (Nat × BufPage)) (first : Nat)
    (hpages : run.map Prod.fst = List.range' first run.length)
    (hrun : ∀ ip ∈ run, ip.1 < m.npages ∧ ip.2.data = originPage O m ip.1) :
    ∀ k < (Frame.runData m' run).length,
      (Frame.runData m' run)[k]? = O[first * m.pageSize + k]? := by
  induction run generalizing first with
  | nil => simp [Frame.runData]
  | cons hd run ih =>
      simp only [List.map_cons, List.length_cons, List.range'_succ, List.cons.injEq] at hpages
      obtain ⟨rfl, hrest⟩ := hpages
      obtain ⟨hi, hdata⟩ := hrun hd (by simp)
      have hlen := length_originPage hO hi
      have hcons : Frame.runData m' (hd :: run) = originPage O m hd.1 ++ Frame.runData m' run := by
        simp only [Frame.runData, List.map_cons, List.flatten_cons, hbytes, hdata]
        rw [List.take_of_length_le (by omega)]
      intro k hk
      rw [hcons] at hk ⊢
      by_cases hhead : k < m.pageBytes hd.1
      · rw [List.getElem?_append_left (by omega), getElem?_originPage hhead]
      · cases run with
        | nil =>
            simp [Frame.runData] at hk
            omega
        | cons next run =>
            -- A page that another one follows is full.
            have hnext := (hrun next (by simp)).1
            simp only [List.map_cons, List.length_cons, List.range'_succ, List.cons.injEq] at hrest
            have hfull : m.pageBytes hd.1 = m.pageSize :=
              MetaData.pageBytes_of_succ_lt (hrest.1 ▸ hnext)
            rw [List.length_append] at hk
            rw [List.getElem?_append_right (by omega),
              ih (hd.1 + 1) (by simpa [List.range'_succ] using hrest)
                (fun ip hip => hrun ip (by simp [hip])) _ (by omega)]
            congr 1
            rw [Nat.add_mul, Nat.one_mul]
            omega

/-- A drain saves the pages it writes, and lists them all. -/
theorem drainRuns_spec {m' : MetaData} (hO : O.length = m.fileSize)
    (hsize : m'.pageSize = m.pageSize) (hfile : m'.fileSize = m.fileSize) (n : Nat)
    (todo : List (Nat × BufPage)) (hn : todo.length ≤ n) (data : DataFile)
    (done : List (Nat × UInt32))
    (htodo : ∀ ip ∈ todo, ip.1 < m.npages ∧ ip.2.data = originPage O m ip.1) :
    let r := drainRuns m' n todo data done
    (∀ b, Saved O data b → Saved O r.1 b) ∧ (∀ ip ∈ todo, PageSaved O m r.1 ip.1) ∧
      r.2 = done ++ todo.map fun ip => (ip.1, ip.2.crc) := by
  have hbytes (i : Nat) : m'.pageBytes i = m.pageBytes i := by
    simp [MetaData.pageBytes, hsize, hfile]
  have hnpages : m'.npages = m.npages := by simp [MetaData.npages, hsize, hfile]
  induction n generalizing todo data done with
  | zero =>
      obtain rfl : todo = [] := List.length_eq_zero_iff.1 (Nat.le_zero.1 hn)
      exact ⟨fun _ h => h, by simp, by simp [drainRuns]⟩
  | succ n ih =>
      cases todo with
      | nil => exact ⟨fun _ h => h, by simp, by simp [drainRuns]⟩
      | cons ip rest =>
          obtain ⟨first, p⟩ := ip
          have hshort := length_takeRun_lt m' first p rest
          obtain ⟨hsplit, hrun⟩ := takeRun_spec m' ((first, p) :: rest) first 0
          simp only [drainRuns]
          generalize takeRun m' first 0 ((first, p) :: rest) = cut at hshort hsplit hrun ⊢
          obtain ⟨run, left⟩ := cut
          simp only at hshort hsplit hrun ⊢
          rw [← hsplit] at htodo ⊢
          have hpages (ip : Nat × BufPage) (hip : ip ∈ run) := htodo ip (by simp [hip])
          have horigin := runData_isOrigin hO hbytes run first hrun hpages
          have hcovers := run_covers (m := m') run first hrun fun ip hip => by
            obtain ⟨hi, hdata⟩ := hpages ip hip
            rw [hnpages, hbytes, hdata, length_originPage hO hi]
            exact ⟨hi, rfl⟩
          rw [hsize]
          have hwrite (b : Nat) :=
            @saved_write O data (first * m.pageSize) b (Frame.runData m' run) horigin
          have hsaved (ip : Nat × BufPage) (hip : ip ∈ run) : PageSaved O m
              (data.write (first * m.pageSize) (Frame.runData m' run)) ip.1 := by
            intro b h1 h2
            obtain ⟨hle, hend⟩ := hcovers ip hip
            rw [hsize, hbytes] at hend
            have hstart : ip.1 * m.pageSize = first * m.pageSize + (ip.1 - first) * m.pageSize := by
              rw [← Nat.add_mul, Nat.add_sub_cancel' hle]
            exact hwrite b (.inr ⟨by omega, by omega⟩)
          obtain ⟨hkeep, hleft, hlist⟩ := ih left
            (by simp only [List.length_cons] at hn; omega) (data.write (first * m.pageSize)
              (Frame.runData m' run)) (done ++ run.map fun ip => (ip.1, ip.2.crc))
            fun ip hip => htodo ip (by simp [hip])
          refine ⟨fun b hb => hkeep b (hwrite b (.inl hb)), ?_, ?_⟩
          · intro ip hip
            rcases List.mem_append.1 hip with hip | hip
            · exact fun b h1 h2 => hkeep b (hsaved ip hip b h1 h2)
            · exact hleft ip hip
          · rw [hlist, List.map_append, List.append_assoc]

/-- The handle with an empty stage. -/
def emptied (e : FileEntry) : FileEntry := { e with buf := fun _ => none, bufBytes := 0 }

/-- Publishing looks at nothing of the stage. -/
theorem publishAll_stage (done : List (Nat × UInt32)) (e : FileEntry)
    (flushing : Nat → Option BufPage) (busy : Bool) :
    FileEntry.publishAll { e with flushing := flushing, flushInProgress := busy } done =
      { e.publishAll done with flushing := flushing, flushInProgress := busy } := by
  induction done generalizing e with
  | nil => rfl
  | cons pc done ih => exact ih (e.publishPage pc.1 pc.2)

theorem publishAll_busy (done : List (Nat × UInt32)) (e : FileEntry) :
    (e.publishAll done).flushInProgress = e.flushInProgress := by
  induction done generalizing e with
  | nil => rfl
  | cons pc done ih => exact ih (e.publishPage pc.1 pc.2)

/-- Without speculative pages a drain is the publication of all that was staged, by a handle whose
stage is empty. -/
theorem drainPublish_eq (h : Holds O m A (e, d)) (done : List (Nat × UInt32)) :
    e.drainSnapshot.drainPublish done =
      if done.isEmpty then (emptied e).publishAll done
      else ((emptied e).publishAll done).markPublished := by
  have hbuf : e.drainSnapshot.buf = fun _ => none := by
    funext i
    cases hp : e.buf i with
    | none => simp [drainSnapshot, hp]
    | some p => simp [drainSnapshot, hp, Option.filter, (h.staged i p hp).1]
  have hsnap : e.drainSnapshot = { emptied e with
      flushing := e.drainSnapshot.flushing
      flushInProgress := true } := by
    rw [emptied, ← hbuf]
    rfl
  have hflush : ((emptied e).publishAll done).flushing = fun _ => none :=
    (StagedOk.publishAll_buf (emptied e) done).2.trans (funext h.flushing)
  have hbusy : ((emptied e).publishAll done).flushInProgress = false :=
    (publishAll_busy done (emptied e)).trans h.idle
  rw [hsnap, drainPublish, publishAll_stage]
  generalize (emptied e).publishAll done = x at hflush hbusy ⊢
  split
  · rw [← hflush, ← hbusy]
  · rw [markPublished, markPublished]
    simp only [← hflush, ← hbusy]

theorem holds_emptied (h : Holds O m A (e, d)) :
    Holds O m (fun i => e.meta_.bitmap.get i = true) (emptied e, d) where
  geo := ⟨h.geo.pageSize, h.geo.fileSize⟩
  pooled := by
    have hspec : poolBytes e true = 0 := by
      refine Finset.sum_eq_zero fun i _ => ?_
      cases hp : e.buf i with
      | none => rfl
      | some p => simp [pagePool, (h.staged i p hp).1]
    constructor
    · simp [emptied, poolBytes, pagePool]
    · simpa [emptied, poolBytes, pagePool] using h.pooled.spec.trans hspec
    · simp [emptied]
    · simp [emptied]
    · exact h.pooled.demanded
    · exact h.pooled.quiet
  idle := h.idle
  staged i p hp := by simp [emptied] at hp
  here i hi := by simp [emptied]
  crc := h.crc
  blank := h.blank
  saved := h.saved
  own := h.own

theorem mem_drainTodo {i : Nat} {p : BufPage} : (i, p) ∈ e.drainSnapshot.drainTodo ↔
    i < e.meta_.npages ∧ e.buf i = some p ∧ p.spec = false := by
  have hmeta : e.drainSnapshot.meta_ = e.meta_ := rfl
  simp only [drainTodo, List.mem_filterMap, List.mem_range, Option.map_eq_some_iff, Prod.mk.injEq,
    hmeta]
  constructor
  · rintro ⟨j, hj, q, hq, rfl, rfl⟩
    simpa [drainSnapshot, Option.filter_eq_some_iff, hj] using hq
  · rintro ⟨hi, hp, hspec⟩
    exact ⟨i, hi, p, by simp [drainSnapshot, Option.filter_eq_some_iff, hp, hspec], rfl, rfl⟩

theorem holds_flushBuffer (hO : O.length = m.fileSize) (force : Bool) (t : Timing)
    (h : Holds O m A (e, d)) : Holds O m A (flushBuffer force t e d) := by
  unfold flushBuffer
  split
  · exact h
  · have htodo (ip : Nat × BufPage) (hip : ip ∈ e.drainSnapshot.drainTodo) :
        ip.1 < m.npages ∧ PageIs O m ip.1 ip.2.data ip.2.crc := by
      obtain ⟨hi, hp, -⟩ := mem_drainTodo.1 hip
      exact ⟨h.geo.npages ▸ hi, (h.staged _ _ hp).2⟩
    obtain ⟨hkeep, hsaved, hdone⟩ := @drainRuns_spec O m e.drainSnapshot.meta_ hO h.geo.pageSize
      h.geo.fileSize _ _ (Nat.le_refl _) d.data [] fun ip hip =>
        ⟨(htodo ip hip).1, (htodo ip hip).2.1⟩
    simp only
    generalize drainRuns _ _ _ _ _ = r at hkeep hsaved hdone ⊢
    obtain ⟨data, done⟩ := r
    simp only [List.nil_append] at hkeep hsaved hdone
    refine holds_flushMeta force t ?_
    have hpub := holds_publishAll done ((holds_emptied h).data hkeep) (by
      rw [hdone]
      rintro pc hpc
      obtain ⟨ip, hip, rfl⟩ := List.mem_map.1 hpc
      exact ⟨hsaved ip hip, (htodo ip hip).2.2⟩)
    -- What was staged and what was present is what the entry held.
    have hstock : ∀ i < m.npages,
        e.meta_.bitmap.get i = true ∨ i ∈ done.map Prod.fst ↔ A i := by
      intro i hi
      rw [h.here i hi, or_comm]
      refine or_congr_left ?_
      rw [hdone, List.map_map, List.mem_map]
      constructor
      · rintro ⟨ip, hip, rfl⟩
        simp [(mem_drainTodo.1 hip).2.1]
      · intro hsome
        obtain ⟨p, hp⟩ := Option.isSome_iff_exists.1 hsome
        exact ⟨(i, p), mem_drainTodo.2 ⟨h.geo.npages.symm ▸ hi, hp, (h.staged i p hp).1⟩, rfl⟩
    rw [drainPublish_eq h]
    split
    · exact hpub.congr hstock
    · exact (holds_markPublished hpub).congr hstock

/-- A forced drain leaves nothing in the stage. -/
theorem flushBuffer_empties (t : Timing) (h : Holds O m A (e, d)) (i : Nat) :
    (flushBuffer true t e d).1.buf i = none := by
  unfold flushBuffer
  split
  · rename_i hnothing
    have hzero : poolBytes e false = 0 := by
      rw [← h.pooled.buf]
      simpa using hnothing
    cases hp : e.buf i with
    | none => rfl
    | some p =>
        -- A staged page has bytes, which the pool counts.
        have hi : i < e.meta_.npages := h.pooled.inside i p hp
        have hpos := Releases.pageBytes_pos hi
        have hle := pagePool_le_poolBytes hi false
        rw [hzero, hp] at hle
        simp only [pagePool, (h.staged i p hp).1, if_true] at hle
        omega
  · simp only
    rw [(Releases.flushMeta_same true t _ _).1.buf, drainPublish_eq h]
    split
    · exact congrFun (StagedOk.publishAll_buf (emptied e) _).1 i
    · exact congrFun (StagedOk.publishAll_buf (emptied e) _).1 i

end Fill

end UCache.FillPaths
