/-
Module: UCache.Core.FillPaths
Purpose: Every call keeps what the entry holds and answers out of it, whether writes go through the
  stage or to the file, so a run of calls answers the same both ways and ends with the same entry.
Trusted boundary: none
Main exports: holds_run, runCalls_refines, fill_paths_agree
-/
import UCache.Core.Commits
import UCache.Core.FillStock

namespace UCache.FillPaths

open Lib FileEntry Alone Presence

section Calls

variable {O : Bytes} {m : MetaData} {A : Stock} {e : FileEntry} {d : Disk}

/-! ### The calls -/

theorem wholePages_congr (hgeo : Geometry m e) (off stop : Nat) :
    wholePages e.meta_ off stop = wholePages m off stop := by
  simp only [wholePages, hgeo.npages, hgeo.pageBytes, hgeo.pageSize]

theorem holds_writePages (hO : O.length = m.fileSize) (t : Timing) {off : Nat} {bytes : Bytes}
    (hbytes : OriginBytes O off bytes)
    (h : Holds O m A (e, d)) :
    Holds O m (A.next m (.writePages off bytes)) (writePages t off bytes e d) := by
  have hgeo : Geometry m e := h.geo
  have hpages (i : Nat) (hi : i ∈ wholePages m off (min (off + bytes.length) m.fileSize)) :
      InBuffer m off bytes.length i := by
    obtain ⟨hlt, hlow, hhigh⟩ := mem_wholePages hi
    exact ⟨hlt, hlow, by omega⟩
  simp only [writePages, stagePages, Stock.next, hgeo.fileSize, wholePages_congr hgeo]
  split
  · -- An empty write takes no page.
    rename_i hnothing
    refine h.congr fun i _ => (or_iff_left fun hi => ?_).symm
    obtain ⟨hlt, hlow, hhigh⟩ := mem_wholePages hi
    have hpos := Releases.pageBytes_pos hlt
    simp only [Bool.or_eq_true, List.isEmpty_iff, decide_eq_true_eq] at hnothing
    rcases hnothing with rfl | hnothing
    · simp only [List.length_nil] at hhigh
      omega
    · omega
  · generalize wholePages m off (min (off + bytes.length) m.fileSize) = pages at hpages ⊢
    split
    · obtain ⟨hkeep, hdone, hmem⟩ := directPages_spec hO hbytes hgeo pages hpages d.data []
        (by simp)
      generalize directPages e off bytes pages d.data [] = r at hkeep hdone hmem ⊢
      obtain ⟨data, done⟩ := r
      refine (holds_directEnd t (h.data hkeep) hdone).congr fun i hi => ?_
      -- A page of the list that was not written was present.
      simp only [hmem, List.map_nil, List.not_mem_nil, false_or]
      have hhere := h.here i hi
      constructor
      · exact fun hA => hA.imp_right And.left
      · rintro (hA | hin)
        · exact .inl hA
        · cases hbit : e.meta_.bitmap.get i with
          | true => exact .inl (hhere.2 (.inr hbit))
          | false => exact .inr ⟨hin, rfl⟩
    · have hstaged := holds_stageList hO hbytes pages hpages h
      split
      · exact holds_flushBuffer hO false t (holds_touchAtime t hstaged)
      · exact hstaged

/-- With no speculative page in the stage, planning a read changes nothing in the handle. -/
theorem planPages_same {off len : Nat} {account : Bool} (pages : List Nat) {st : ReadPlan}
    (hspec : ∀ i p, st.e.staged i = some p → p.spec = false) :
    (planPages off len account st pages).1.e = st.e := by
  induction pages generalizing st with
  | nil => rfl
  | cons i pages ih =>
      rw [planPages]
      cases hstep : planPage off len account st i with
      | none => rfl
      | some st' =>
          have hsame : st'.e = st.e := by
            unfold planPage at hstep
            simp only at hstep
            split at hstep
            · rename_i p hp
              rw [hspec i p hp] at hstep
              cases hstep
              rfl
            · split at hstep
              · cases hstep
                rfl
              · cases hstep
          exact (ih (by rwa [hsame])).trans hsame

/-- A saved page reads as the origin's. -/
theorem filePage_of_saved {data : DataFile} {i : Nat} (hO : O.length = m.fileSize)
    (hi : i < m.npages) (h : PageSaved O m data i) : filePage data m i = originPage O m i := by
  have hpos := Releases.pageBytes_pos hi
  have hsize := (h (i * m.pageSize + (m.pageBytes i - 1)) (by omega) (by omega)).1
  apply List.ext_getElem?
  intro k
  by_cases hk : k < m.pageBytes i
  · have hbyte := (h (i * m.pageSize + k) (by omega) (by omega)).2
    rw [getElem?_originPage hk, hbyte, filePage, DataFile.read, List.getElem?_map,
      List.getElem?_range (by omega)]
    rfl
  · rw [List.getElem?_eq_none (by rw [filePage, DataFile.length_read]; omega),
      List.getElem?_eq_none (by rw [length_originPage hO hi]; omega)]

theorem Holds.good (h : Holds O m A (e, d)) (hO : O.length = m.fileSize) {i : Nat}
    (hi : i < m.npages) (hbit : e.meta_.bitmap.get i = true) :
    CachedReads.GoodPage d.data e.meta_ i (e.meta_.pageCrcs i) := by
  have hgeo : Geometry m e := h.geo
  have hpage := filePage_of_saved hO hi (h.saved i hi hbit)
  rw [CachedReads.goodPage_congr hgeo.pageSize hgeo.fileSize, CachedReads.GoodPage, hpage]
  exact ⟨length_originPage hO hi, (h.crc i hi hbit).symm⟩

theorem Holds.staged_eq (h : Holds O m A (e, d)) (i : Nat) : e.staged i = e.buf i := by
  rw [FileEntry.staged, h.flushing i, Option.or_none]

theorem Holds.stagedWhole (h : Holds O m A (e, d)) (hO : O.length = m.fileSize) :
    CachedReads.StagedWhole e := by
  intro i p hp
  have hgeo : Geometry m e := h.geo
  rw [h.staged_eq] at hp
  have hi : i < m.npages := hgeo.npages ▸ h.pooled.inside i p hp
  rw [(h.staged i p hp).2.1, length_originPage hO hi, hgeo.pageBytes]

/-- A page can be read when it is in stock. -/
theorem Holds.readable_iff (h : Holds O m A (e, d)) (hO : O.length = m.fileSize) {i : Nat}
    (hi : i < m.npages) : CachedReads.Readable e d.data i ↔ A i := by
  rw [h.here i hi, CachedReads.Readable, h.staged_eq]
  exact or_congr_right ⟨And.left, fun hbit => ⟨hbit, h.good hO hi hbit⟩⟩

/-- Every byte of a page in stock is served as the origin has it. -/
theorem Holds.content (h : Holds O m A (e, d)) (hO : O.length = m.fileSize) (hP : 0 < m.pageSize)
    {b : Nat} (hb : b < m.fileSize) (hA : A (b / m.pageSize)) :
    (CachedReads.content e d.data)[b]? = O[b]? := by
  have hgeo : Geometry m e := h.geo
  have hdiv := Nat.div_add_mod' b m.pageSize
  have hmod := Nat.mod_lt b hP
  have hi : b / m.pageSize < m.npages := MetaData.lt_npages hP (by omega)
  have hin : b % m.pageSize < m.pageBytes (b / m.pageSize) := by
    unfold MetaData.pageBytes
    omega
  rw [CachedReads.content, List.getElem?_map, List.getElem?_range (hgeo.fileSize ▸ hb)]
  simp only [Option.map_some, CachedReads.byteAt, hgeo.pageSize, h.staged_eq]
  cases hbuf : e.buf (b / m.pageSize) with
  | some p =>
      have hdata := (h.staged _ p hbuf).2.1
      have hget := getElem?_originPage (O := O) hin
      rw [hdiv] at hget
      simp only [hdata, List.getD_eq_getElem?_getD, hget]
      rw [List.getElem?_eq_getElem (hO ▸ hb)]
      rfl
  | none =>
      have hbit := ((h.here _ hi).1 hA).resolve_left (by simp [hbuf])
      exact ((h.saved _ hi hbit) b (by omega) (by omega)).2.symm

/-! ### Reading -/

theorem touches_congr (hgeo : Geometry m e) (off len i : Nat) :
    Touches e.meta_ off len i ↔ Touches m off len i := by
  simp only [Touches, hgeo.pageSize, hgeo.pageBytes]

/-- A read changes nothing that the entry holds: no page of it fails its check. -/
theorem holds_readCached (hO : O.length = m.fileSize) (hP : 0 < m.pageSize) (t : Timing)
    (off : Nat) (buf : Bytes) (account : Bool) (h : Holds O m A (e, d)) :
    Holds O m A ((readCached t off buf account e d).1, d) := by
  have hgeo : Geometry m e := h.geo
  by_cases hempty : buf.isEmpty = true
  · rw [readCached, if_pos hempty]
    exact h
  by_cases hpast : e.meta_.fileSize < off + buf.length
  · rw [readCached, if_neg hempty, if_pos hpast]
    exact h
  have hreq : Request e.meta_ off buf.length :=
    ⟨hgeo.pageSize ▸ hP, List.length_pos_iff.2 (by simpa using hempty), Nat.not_lt.1 hpast⟩
  have hplan := @CachedReads.readPlan_spec e d.data off buf account hreq (h.stagedWhole hO)
  have hsame : (e.readPlan off buf account).1.e = e := by
    refine planPages_same _ fun i p hp => ?_
    exact (h.staged i p ((h.staged_eq i).symm.trans hp)).1
  rw [readCached, if_neg hempty, if_neg hpast]
  generalize e.readPlan off buf account = res at hplan hsame ⊢
  obtain ⟨plan, found⟩ := res
  simp only at hsame
  cases found with
  | false =>
      simp only [hsame]
      exact h
  | true =>
      have hruns := CachedReads.readRuns_spec plan.runs.reverse
        (fun r hr => hplan.runs r (List.mem_reverse.1 hr)) plan.e hplan.meta_ plan.out
        (by rw [hplan.length]; exact hreq.inside) hplan.covers
      simp only [Bool.not_true, Bool.false_eq_true, if_false]
      generalize readRuns _ _ _ _ _ = res at hruns ⊢
      obtain ⟨e', ans⟩ := res
      cases ans with
      | some out =>
          obtain ⟨rfl, -⟩ := hruns
          rw [hsame, readEnd]
          split
          · exact holds_touchAtime t h
          · exact h
      | none =>
          -- A page of a run is present, so it checks.
          obtain ⟨⟨i, ⟨r, hr, h1, h2⟩, hbad⟩, -⟩ := hruns
          have hhere := hplan.runs r (List.mem_reverse.1 hr)
          have hbit := (hhere.page _ _ (hhere.getElem? h1 h2)).2.1
          rw [Nat.add_sub_cancel' h1] at hbit
          have hi : i < m.npages := hgeo.npages ▸ h2.trans_lt hhere.lt
          exact absurd (h.good hO hi hbit) hbad

/-- A read answers out of the stock, with the origin's bytes. -/
theorem readCached_answer (hO : O.length = m.fileSize) (hP : 0 < m.pageSize) (t : Timing)
    (off : Nat) (buf : Bytes) (account : Bool) (h : Holds O m A (e, d)) :
    Answer.read (readCached t off buf account e d).2 =
      A.answer O m (.readCached off buf account) := by
  have hgeo : Geometry m e := h.geo
  rw [Stock.answer]
  refine congrArg Answer.read ?_
  by_cases hempty : buf.length = 0
  · rw [if_pos hempty, readCached, if_pos (by simpa using hempty)]
  have hlen : 0 < buf.length := Nat.pos_of_ne_zero hempty
  rw [if_neg hempty]
  by_cases hin : off + buf.length ≤ m.fileSize
  · have hread := CachedReads.readCached_reads_pages t e d off buf account (hgeo.pageSize ▸ hP) hlen
      (hgeo.fileSize ▸ hin) (h.stagedWhole hO)
    generalize readCached t off buf account e d = r at hread ⊢
    obtain ⟨hfound, hbytes, -⟩ := hread
    have hfound : r.2.isSome = true ↔ ∀ i, Touches m off buf.length i → A i := by
      rw [hfound]
      refine forall_congr' fun i => ?_
      rw [touches_congr hgeo]
      exact imp_congr_right fun hi => h.readable_iff hO (hi.lt_npages hP hin)
    by_cases hall : ∀ i, Touches m off buf.length i → A i
    · rw [if_pos ⟨hin, hall⟩]
      obtain ⟨out, hout⟩ := Option.isSome_iff_exists.1 (hfound.2 hall)
      rw [hout, hbytes out hout]
      refine congrArg some (List.ext_getElem? fun k => ?_)
      rw [getElem?_slice, getElem?_slice]
      split
      · rename_i hk
        refine h.content hO hP (by omega) (hall _ ?_)
        refine (touches_iff hP hlen hin).1 ⟨?_, ?_⟩
        · exact Nat.div_le_div_right (Nat.le_add_right off k)
        · exact Nat.div_le_div_right (by omega)
      · rfl
    · rw [if_neg fun hyes => hall hyes.2]
      exact Option.not_isSome_iff_eq_none.1 fun hsome => hall (hfound.1 hsome)
  · have hpast : e.meta_.fileSize < off + buf.length := hgeo.fileSize ▸ Nat.not_le.1 hin
    rw [if_neg fun hyes => hin hyes.1, readCached, if_neg (by simpa using hempty), if_pos hpast]

open Classical in
/-- `hasRange` answers out of the stock. -/
theorem hasRange_answer (hP : 0 < m.pageSize) (off len : Nat) (h : Holds O m A (e, d)) :
    Answer.range (hasRange e off len) = A.answer O m (.hasRange off len) := by
  have hgeo : Geometry m e := h.geo
  rw [Stock.answer]
  refine congrArg Answer.range ?_
  rw [Bool.eq_iff_iff, decide_eq_true_iff, hasRange_iff (hgeo.pageSize ▸ hP), hgeo.fileSize]
  refine and_congr_right fun _ => and_congr_right fun _ => and_congr_right fun hin => ?_
  refine forall_congr' fun i => ?_
  rw [touches_congr hgeo]
  refine imp_congr_right fun hi => ?_
  rw [h.here i (hi.lt_npages hP hin)]
  simp [here, h.flushing i, or_comm]

/-! ### Releasing -/

theorem inside_congr (hgeo : Geometry m e) (ranges : List (Nat × Nat)) (i : Nat) :
    Releases.Inside e.meta_ ranges i ↔ Releases.Inside m ranges i := by
  have hspan : releaseSpan e.meta_ = releaseSpan m := by
    funext r
    simp only [releaseSpan, hgeo.pageSize, hgeo.fileSize]
  rw [Releases.Inside, Releases.Inside, hspan]

/-- What the locked section drops is out of stock, staged or present. -/
theorem holds_releaseSection (ranges : List (Nat × Nat)) (h : Holds O m A (e, d)) :
    Holds O m (A.next m (.releaseRanges ranges)) ((e.releaseSection ranges).1, d) := by
  have hgeo : Geometry m e := h.geo
  have hdrop := (Releases.dropped_releaseSection e ranges).congr (inside_congr hgeo ranges)
  have hpooled : Pooled (e.releaseSection ranges).1 := (moves_releaseSection h.pooled ranges).pooled
  generalize (e.releaseSection ranges).1 = e' at hdrop hpooled ⊢
  have hfile : e'.meta_.fileSize = e.meta_.fileSize :=
    congrArg Validators.originSize hdrop.validators
  -- A page that is still present was not dropped, and is as it was.
  have hkept (i : Nat) (hbit : e'.meta_.bitmap.get i = true) : ¬ Releases.Inside m ranges i ∧
      e'.meta_.page i = e.meta_.page i ∧ e.meta_.bitmap.get i = true := by
    have hout : ¬ Releases.Inside m ranges i := by
      intro hi
      rw [hdrop.absent hi] at hbit
      cases hbit
    exact ⟨hout, (hdrop.miss i fun hi => absurd hi hout).1, hdrop.bit_of_not hout ▸ hbit⟩
  refine
    { geo := ⟨hdrop.pageSize.trans hgeo.pageSize, hfile.trans hgeo.fileSize⟩
      pooled := hpooled
      idle := hdrop.busy.trans h.idle
      staged := fun i p hp => ?_
      here := fun i hi => ?_
      crc := fun i hi hbit => ?_
      blank := fun i hi hbit => ?_
      saved := fun i hi hbit => h.saved i hi (hkept i hbit).2.2
      own := fun disk hbase i hi => ?_ }
  · by_cases hin : Releases.Inside m ranges i
    · simp [hdrop.unstaged i hin] at hp
    · exact h.staged i p ((hdrop.staged i hin).symm.trans hp)
  · by_cases hin : Releases.Inside m ranges i
    · simp [Stock.next, hin, hdrop.unstaged i hin, hdrop.absent hin]
    · simp only [Stock.next, hin, not_false_eq_true, and_true, hdrop.staged i hin,
        hdrop.bit_of_not hin]
      exact h.here i hi
  · obtain ⟨-, hpage, hbit'⟩ := hkept i hbit
    exact (congrArg Prod.snd hpage).trans (h.crc i hi hbit')
  · by_cases hhit : Releases.Inside m ranges i ∧ e.meta_.bitmap.get i = true
    · exact congrArg Prod.snd (hdrop.hit i hhit.1 hhit.2).1
    · have hpage := (hdrop.miss i fun hin => by simpa [hin] using hhit).1
      exact (congrArg Prod.snd hpage).trans
        (h.blank i hi ((congrArg Prod.fst hpage).symm.trans hbit))
  · rw [mergeBase_congr hdrop.cfg hdrop.key hdrop.pageSize hdrop.validators rfl rfl] at hbase
    have hi' : i < e.meta_.npages := hdrop.npages ▸ hi
    by_cases hhit : Releases.Inside m ranges i ∧ e.meta_.bitmap.get i = true
    · rw [hdrop.committed_hit disk hhit.1 hhit.2, MetaData.seen, hdrop.absent hhit.1]
      rfl
    · have hmiss (hin : Releases.Inside m ranges i) : e.meta_.bitmap.get i = false := by
        simpa [hin] using hhit
      rw [hdrop.committed_miss disk hmiss, h.own disk hbase i hi']
      exact (MetaData.seen_congr (hdrop.miss i hmiss).1).symm

theorem saved_punchAll {holes : List (Nat × Nat)} {b : Nat} (data : DataFile)
    (hout : ∀ hole ∈ holes, ¬ (hole.1 ≤ b ∧ b < hole.1 + hole.2)) (h : Saved O data b) :
    Saved O (punchAll data holes) b := by
  have hsize : (punchAll data holes).size = data.size := by
    clear hout h
    induction holes generalizing data with
    | nil => rfl
    | cons hole holes ih => exact ih _
  rw [Saved, hsize, Releases.byte_punchAll data hout]
  exact h

/-- The holes take no page that is still in stock. -/
theorem holds_releaseRanges (t : Timing) (ranges : List (Nat × Nat)) (h : Holds O m A (e, d)) :
    Holds O m (A.next m (.releaseRanges ranges)) (releaseRanges t ranges e d) := by
  have hgeo : Geometry m e := h.geo
  have hsection := holds_releaseSection ranges h
  have hspans : (e.releaseSection ranges).2 = ranges.filterMap (releaseSpan m) := by
    refine List.filterMap_congr fun r _ => ?_
    simp only [releaseSpan, hgeo.pageSize, hgeo.fileSize]
  simp only [releaseRanges]
  split
  · exact hsection
  · have hcommit := holds_flushMeta true t hsection
    generalize flushMeta true t (e.releaseSection ranges).1 d = r at hcommit ⊢
    obtain ⟨e₂, d₂⟩ := r
    have hgeo₂ : Geometry m e₂ := hcommit.geo
    have hholes : holesOf e₂.meta_ (e.releaseSection ranges).2 =
        holesOf m (ranges.filterMap (releaseSpan m)) := by
      simp only [hspans, holesOf, hgeo₂.pageSize]
    simp only [hholes]
    refine { hcommit with saved := fun i hi hbit b h1 h2 => ?_ }
    have hstock := (hcommit.here i hi).2 (.inr hbit)
    refine saved_punchAll d₂.data (fun hole hmem hin => hstock.2 ?_)
      (hcommit.saved i hi hbit b h1 h2)
    have hbytes := m.pageBytes_le i
    have hsplit : i * m.pageSize + (b - i * m.pageSize) = b := Nat.add_sub_cancel' h1
    exact Releases.inside_of_byte (k := b - i * m.pageSize) hmem (by omega) (by omega) (by omega)

/-! ### Flushing -/

theorem holds_flushAll (hO : O.length = m.fileSize) (t : Timing) (h : Holds O m A (e, d)) :
    Holds O m A (flushAll t e d) :=
  holds_flushMeta true t (holds_flushBuffer hO true t h)

/-- After a flush a page is in stock when it is present. -/
theorem present_flushAll (hO : O.length = m.fileSize) (t : Timing) (h : Holds O m A (e, d))
    {i : Nat} (hi : i < m.npages) : A i ↔ (flushAll t e d).1.meta_.bitmap.get i = true := by
  have hempty : (flushAll t e d).1.buf i = none := by
    rw [flushAll, (Releases.flushMeta_same true t _ _).1.buf]
    exact flushBuffer_empties t h i
  rw [(holds_flushAll hO t h).here i hi, hempty]
  simp

end Calls

/-! ### Whole runs -/

variable {O : Bytes} {m : MetaData} {A : Stock} {s : Entry}

/-- One call moves the entry as it moves the stock, and answers out of the stock. -/
theorem holds_run (hO : O.length = m.fileSize) (hP : 0 < m.pageSize) (t : Timing) (c : Call)
    (hc : c.OfOrigin O) (h : Holds O m A s) :
    Holds O m (A.next m c) (c.run t s).1 ∧ (c.run t s).2 = A.answer O m c := by
  obtain ⟨e, d⟩ := s
  cases c with
  | writePages off bytes => exact ⟨holds_writePages hO t hc h, rfl⟩
  | readCached off buf account =>
      exact ⟨holds_readCached hO hP t off buf account h,
        readCached_answer hO hP t off buf account h⟩
  | hasRange off len => exact ⟨h, hasRange_answer hP off len h⟩
  | flushAll => exact ⟨holds_flushAll hO t h, rfl⟩
  | releaseRanges ranges => exact ⟨holds_releaseRanges t ranges h, rfl⟩

/-- A run of calls refines the stock: whatever the clock decides and wherever writes go. -/
theorem runCalls_refines (hO : O.length = m.fileSize) (hP : 0 < m.pageSize)
    (calls : List (Timing × Call)) (hcalls : ∀ tc ∈ calls, tc.2.OfOrigin O) (h : Holds O m A s) :
    Holds O m (A.run O m (calls.map Prod.snd)).1 (runCalls s calls).1 ∧
      (runCalls s calls).2 = (A.run O m (calls.map Prod.snd)).2 := by
  induction calls generalizing A s with
  | nil => exact ⟨h, rfl⟩
  | cons tc calls ih =>
      obtain ⟨hone, hanswer⟩ := holds_run hO hP tc.1 tc.2 (hcalls tc (by simp)) h
      obtain ⟨hrest, hanswers⟩ := ih (fun q hq => hcalls q (by simp [hq])) hone
      exact ⟨hrest, congrArg₂ List.cons hanswer hanswers⟩

/-! ### Opening -/

/-- Every page of the image is absent without a CRC, or present with the origin's CRC and bytes. -/
def Honest (O : Bytes) (m : MetaData) (data : DataFile) : Prop :=
  ∀ i < m.npages, m.page i = (false, 0) ∨
    m.page i = (true, crc32c (originPage O m i)) ∧ PageSaved O m data i

/-- The entry as `open` leaves it, its writes having gone through. -/
def start (cfg : Config) (key : Bytes) (v : Validators) (now : Nat) (sidecar : Option MetaData)
    (data : DataFile) : Entry :=
  let s := Machine.opened cfg key v now true sidecar data
  (s.e, s.disk)

/-- Two entries agree on all pages: bits, CRCs, and the bytes of those present. -/
structure SameEntry (m : MetaData) (s s' : Entry) : Prop where
  bitmap : ∀ i < m.npages, s.1.meta_.bitmap.get i = s'.1.meta_.bitmap.get i
  crcs : ∀ i < m.npages, s.1.meta_.pageCrcs i = s'.1.meta_.pageCrcs i
  bytes : ∀ i < m.npages, s.1.meta_.bitmap.get i = true →
    filePage s.2.data m i = filePage s'.2.data m i

section Start

variable {cfg : Config} {key : Bytes} {v : Validators} {now : Nat} {sidecar : Option MetaData}
  {data : DataFile}

/-- A handle just opened over the image that its sidecar holds. -/
theorem holds_ofMeta (cfg : Config) (key : Bytes) {d : Disk}
    (hside : ∀ disk, MetaFile.load d.sidecar = some disk → ∀ i, disk.page i = m.page i)
    (honest : Honest O m d.data) :
    Holds O m (fun i => m.bitmap.get i = true) (ofMeta cfg key m false, d) where
  geo := ⟨rfl, rfl⟩
  pooled := Pooled.ofMeta cfg key m false
  idle := rfl
  staged i p hp := nomatch hp
  here i _ := by simp [ofMeta]
  crc i hi hbit := by
    rcases honest i hi with hblank | ⟨hpage, -⟩
    · exact absurd (hbit.symm.trans (congrArg Prod.fst hblank)) (by decide)
    · exact congrArg Prod.snd hpage
  blank i hi hbit := by
    rcases honest i hi with hblank | ⟨hpage, -⟩
    · exact congrArg Prod.snd hblank
    · exact absurd (hbit.symm.trans (congrArg Prod.fst hpage)) Bool.false_ne_true
  saved i hi hbit := by
    rcases honest i hi with hblank | ⟨-, hsaved⟩
    · exact absurd (hbit.symm.trans (congrArg Prod.fst hblank)) (by decide)
    · exact hsaved
  own disk hbase i _ := by
    obtain ⟨-, hload, -, -⟩ := mergeBase_eq_some hbase
    simp only [committedPage, ofMeta, PageBitmap.get_reset, Bool.false_eq_true, if_false]
    exact MetaData.seen_congr (hside disk hload i)

/-- What `open` leaves, by whether it adopted the sidecar. -/
theorem start_cases (cfg : Config) (key : Bytes) (v : Validators) (now : Nat)
    (sidecar : Option MetaData) (data : DataFile) :
    (∃ m, openAdopt cfg key v sidecar = some (ofMeta cfg key m false) ∧
        adoptable m cfg key v = true ∧
        (∀ disk, MetaFile.load sidecar = some disk → ∀ i, disk.page i = m.page i) ∧
        start cfg key v now sidecar data = (ofMeta cfg key m false,
          { sidecar := sidecar, data := { data with punched := fun _ => false } })) ∨
      openAdopt cfg key v sidecar = none ∧
        start cfg key v now sidecar data = (openFresh cfg key v now true,
          { sidecar := some (freshMeta cfg key v now)
            data := DataFile.truncate v.originSize }) := by
  unfold start Machine.opened
  cases hopen : openAdopt cfg key v sidecar with
  | none => exact .inr ⟨rfl, rfl⟩
  | some e =>
      obtain ⟨m, hload, hm⟩ := Option.bind_eq_some_iff.1 hopen
      split at hm
      · rename_i hadopt
        cases hm
        refine .inl ⟨m, rfl, hadopt, fun disk hdisk i => ?_, rfl⟩
        cases hload.symm.trans hdisk
        rfl
      · cases hm

/-- An opened entry over the origin's data holds its present pages. -/
theorem holds_start
    (honest : ∀ e, openAdopt cfg key v sidecar = some e → Honest O e.meta_ data) :
    Holds O (start cfg key v now sidecar data).1.meta_
      (fun i => (start cfg key v now sidecar data).1.meta_.bitmap.get i = true)
      (start cfg key v now sidecar data) := by
  rcases start_cases cfg key v now sidecar data with ⟨m, hopen, -, hside, hstart⟩ | ⟨-, hstart⟩
  · rw [hstart]
    exact holds_ofMeta cfg key hside (honest _ hopen)
  · rw [hstart]
    refine holds_ofMeta cfg key (fun disk hload i => ?_) fun i _ => .inl rfl
    obtain ⟨stored, hstored, -, rfl⟩ := MetaFile.load_eq_some hload
    cases hstored
    rfl

theorem start_fileSize : (start cfg key v now sidecar data).1.meta_.fileSize = v.originSize := by
  rcases start_cases cfg key v now sidecar data with ⟨m, -, hadopt, -, hstart⟩ | ⟨-, hstart⟩
  · rw [hstart]
    simp only [adoptable, Bool.and_eq_true, decide_eq_true_eq] at hadopt
    exact hadopt.1.1.1.1.2
  · rw [hstart]
    rfl

theorem start_pageSize_pos (hP : 0 < cfg.pageSize) :
    0 < (start cfg key v now sidecar data).1.meta_.pageSize := by
  rcases start_cases cfg key v now sidecar data with ⟨m, -, hadopt, -, hstart⟩ | ⟨-, hstart⟩
  · rw [hstart]
    simp only [adoptable, Config.validPageSize, Bool.and_eq_true, decide_eq_true_eq] at hadopt
    have hlow := hadopt.1.1.1.2.1.1
    exact Nat.lt_of_lt_of_le (by decide) hlow
  · rw [hstart]
    exact hP

/-- The size of the fill buffer plays no part in adopting a sidecar. -/
theorem openAdopt_fillBuffer (mb : Int) :
    openAdopt { cfg with fillBufferMb := mb } key v sidecar =
      (openAdopt cfg key v sidecar).map fun e =>
        { e with cfg := { cfg with fillBufferMb := mb } } := by
  unfold openAdopt
  cases MetaFile.load sidecar with
  | none => rfl
  | some m =>
      have hsame : adoptable m { cfg with fillBufferMb := mb } key v = adoptable m cfg key v := rfl
      simp only [Option.bind_some, hsame]
      split <;> rfl

/-- Nor does it show in the metadata of the opened entry. -/
theorem start_fillBuffer (mb : Int) :
    (start { cfg with fillBufferMb := mb } key v now sidecar data).1.meta_ =
      (start cfg key v now sidecar data).1.meta_ := by
  unfold start Machine.opened
  rw [openAdopt_fillBuffer]
  cases openAdopt cfg key v sidecar <;> rfl

theorem holds_start_fillBuffer (mb : Int)
    (honest : ∀ e, openAdopt cfg key v sidecar = some e → Honest O e.meta_ data) :
    Holds O (start cfg key v now sidecar data).1.meta_
      (fun i => (start cfg key v now sidecar data).1.meta_.bitmap.get i = true)
      (start { cfg with fillBufferMb := mb } key v now sidecar data) := by
  rw [← start_fillBuffer mb]
  refine holds_start fun e he => ?_
  rw [openAdopt_fillBuffer] at he
  obtain ⟨e₀, he₀, rfl⟩ := Option.map_eq_some_iff.1 he
  exact honest e₀ he₀

end Start

/-! ### The two paths -/

/-- Two entries with the same pages in stock are the same after a flush. -/
theorem sameEntry_flushAll {s' : Entry} (hO : O.length = m.fileSize) (t t' : Timing)
    (h : Holds O m A s) (h' : Holds O m A s') :
    SameEntry m (flushAll t s.1 s.2) (flushAll t' s'.1 s'.2) := by
  have hf := holds_flushAll hO t h
  have hf' := holds_flushAll hO t' h'
  have hbit (i : Nat) (hi : i < m.npages) :
      (flushAll t s.1 s.2).1.meta_.bitmap.get i = (flushAll t' s'.1 s'.2).1.meta_.bitmap.get i := by
    rw [Bool.eq_iff_iff, ← present_flushAll hO t h hi, ← present_flushAll hO t' h' hi]
  generalize flushAll t s.1 s.2 = r at hf hbit ⊢
  generalize flushAll t' s'.1 s'.2 = r' at hf' hbit ⊢
  refine ⟨hbit, fun i hi => ?_, fun i hi hpresent => ?_⟩
  · cases hpresent : r.1.meta_.bitmap.get i with
    | true => rw [hf.crc i hi hpresent, hf'.crc i hi ((hbit i hi).symm.trans hpresent)]
    | false => rw [hf.blank i hi hpresent, hf'.blank i hi ((hbit i hi).symm.trans hpresent)]
  · have hpresent' := (hbit i hi).symm.trans hpresent
    rw [filePage_of_saved hO hi (hf.saved i hi hpresent),
      filePage_of_saved hO hi (hf'.saved i hi hpresent')]

/-- Two runs of the same calls on an entry just opened, each with a fill buffer of its own size or
with none, and whatever the clock decides in each: the same answers, and after a flush the same
entry. -/
theorem fill_paths_agree (O : Bytes) (cfg : Config) (mb mb' : Int) (key : Bytes) (v : Validators)
    (now : Nat) (sidecar : Option MetaData) (data : DataFile) (hsize : v.originSize = O.length)
    (hP : 0 < cfg.pageSize)
    (honest : ∀ e, openAdopt cfg key v sidecar = some e → Honest O e.meta_ data)
    (calls calls' : List (Timing × Call)) (hsame : calls'.map Prod.snd = calls.map Prod.snd)
    (horigin : ∀ tc ∈ calls, tc.2.OfOrigin O) :
    let run := runCalls (start { cfg with fillBufferMb := mb } key v now sidecar data) calls
    let run' := runCalls (start { cfg with fillBufferMb := mb' } key v now sidecar data) calls'
    run.2 = run'.2 ∧ ∀ t t', SameEntry (start cfg key v now sidecar data).1.meta_
      (flushAll t run.1.1 run.1.2) (flushAll t' run'.1.1 run'.1.2) := by
  have hO : O.length = (start cfg key v now sidecar data).1.meta_.fileSize :=
    hsize.symm.trans start_fileSize.symm
  have hP := @start_pageSize_pos cfg key v now sidecar data hP
  have horigin' : ∀ tc ∈ calls', tc.2.OfOrigin O := by
    intro tc htc
    have hmem := List.mem_map_of_mem (f := Prod.snd) htc
    rw [hsame] at hmem
    obtain ⟨q, hq, heq⟩ := List.mem_map.1 hmem
    exact heq ▸ horigin q hq
  obtain ⟨hheld, hans⟩ := runCalls_refines hO hP calls horigin
    (@holds_start_fillBuffer O cfg key v now sidecar data mb honest)
  obtain ⟨hheld', hans'⟩ := runCalls_refines hO hP calls' horigin'
    (@holds_start_fillBuffer O cfg key v now sidecar data mb' honest)
  rw [hsame] at hheld' hans'
  exact ⟨hans.trans hans'.symm, fun t t' => sameEntry_flushAll hO t t' hheld hheld'⟩

/-- A file of two pages and 808 bytes is written whole, read across a page, released by one page and
a half, and asked for. -/
def shortCalls : List (Timing × Call) :=
  [({}, .writePages 0 (List.replicate 9000 7)), ({}, .readCached 100 (List.replicate 8900 0) true),
    ({}, .releaseRanges [(0, 6144)]), ({}, .hasRange 0 4096), ({}, .hasRange 8192 808)]

/-- The calls over a fresh entry with a fill buffer, and without one. -/
theorem short_paths_agree :
    let run := runCalls (start { ({} : Config) with fillBufferMb := 48 } [] { originSize := 9000 } 0
      none (DataFile.truncate 0)) shortCalls
    let run' := runCalls (start { ({} : Config) with fillBufferMb := 0 } [] { originSize := 9000 } 0
      none (DataFile.truncate 0)) shortCalls
    run.2 = run'.2 ∧ ∀ t t',
      SameEntry (start {} [] { originSize := 9000 } 0 none (DataFile.truncate 0)).1.meta_
        (flushAll t run.1.1 run.1.2) (flushAll t' run'.1.1 run'.1.2) := by
  refine fill_paths_agree (List.replicate 9000 7) {} 48 0 [] _ 0 none (DataFile.truncate 0)
    (by rw [List.length_replicate]) (by decide) (fun e he => nomatch he) shortCalls shortCalls
    rfl ?_
  intro tc htc
  simp only [shortCalls, List.mem_cons, List.not_mem_nil, or_false] at htc
  rcases htc with rfl | rfl | rfl | rfl | rfl
  · intro k _ _
    rw [Nat.zero_add]
  all_goals trivial

end UCache.FillPaths
