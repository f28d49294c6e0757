/-
Module: UCache.Plugin.ReadAheadRuns
Purpose: What holds in every run of read-ahead: what is on its way is counted and announced, no byte
  is asked for twice at once for a handle, and a handle that was closed is let go.
Trusted boundary: none
Main exports: AheadLegal, AheadSafe, read_ahead_accounted
-/
import UCache.Lib.Run
import UCache.Lib.Totals
import UCache.Plugin.ReadAhead

namespace UCache

open Lib

/-! ### The ranges that are looked for -/

variable {cand : List Next}

section Scan

variable {pageSize fileSize : Nat} (hpos : 0 < pageSize)

include hpos

/-- What of a range is absent: whole pages of it, one behind the other, none of which is held. -/
theorem absentRuns_laid (held : Nat → Bool) {r : Nat × Nat} (hin : r.2 ≤ fileSize) :
    let absent := absentRuns pageSize fileSize held r.1 (r.2 - r.1)
    Laid pageSize fileSize absent ∧
      (∀ q ∈ absent, r.1 / pageSize * pageSize ≤ q.1 ∧ q.1 + q.2 ≤ fileSize ∧
        ∀ n, pageSize ∣ n → r.2 ≤ n → q.1 + q.2 ≤ n) ∧
      ∀ b, Staged absent b → held (b / pageSize) = false := by
  intro absent
  by_cases hnone : r.2 - r.1 = 0 ∨ min (r.1 + (r.2 - r.1)) fileSize ≤ r.1
  · have hnil : absent = [] := by
      simp only [absent, absentRuns, if_pos hnone]
    rw [hnil]
    refine ⟨⟨?_, ?_, ?_, List.Pairwise.nil⟩, ?_, ?_⟩
    · exact fun q hq => absurd hq List.not_mem_nil
    · exact fun q hq => absurd hq List.not_mem_nil
    · exact fun q hq => absurd hq List.not_mem_nil
    · exact fun q hq => absurd hq List.not_mem_nil
    · intro b hb
      obtain ⟨q, hq, -⟩ := staged_iff.1 hb
      exact absurd hq List.not_mem_nil
  · have hspans := @absentRuns_spans pageSize fileSize held r.1 (r.2 - r.1) hnone
    have hmem := @mem_absentPages pageSize fileSize held r.1 (r.2 - r.1)
    have hasc := absentPages_ascending pageSize fileSize held r.1 (r.2 - r.1)
    have hstop : min (r.1 + (r.2 - r.1)) fileSize = r.2 := by omega
    rw [hstop] at hmem
    generalize absentPages pageSize fileSize held r.1 (r.2 - r.1) = pages at hspans hmem hasc
    have hpage : ∀ i ∈ pages, i * pageSize < r.2 := by
      intro i hi
      have h1 := Nat.mul_le_mul_right pageSize ((hmem i).1 hi).2.1
      have h2 := Nat.div_mul_le_self (r.2 - 1) pageSize
      omega
    have hspan : ∀ s ∈ pages.map (pageSpan pageSize fileSize), s.1 < s.2 := by
      intro s hs
      obtain ⟨i, hi, rfl⟩ := List.mem_map.1 hs
      have := hpage i hi
      simp only [pageSpan]
      omega
    have hsorted : (pages.map (pageSpan pageSize fileSize)).Pairwise fun a b => a.1 ≤ b.1 :=
      List.pairwise_map.2 (hasc.imp fun h => Nat.mul_le_mul_right _ (Nat.le_of_lt h))
    have hempty : Coalesced [] := ⟨by simp, .nil⟩
    obtain ⟨hco, hwithin⟩ := foldl_addSpan hempty (fun s hs => (hspan s hs).le) hsorted (by simp)
    have hstrict := foldl_addSpan_strict hempty (by simp) hspan
    have hends : ∀ q ∈ absent, (∃ i ∈ pages, i * pageSize = q.1) ∧
        ∃ i ∈ pages, i * pageSize + min pageSize (fileSize - i * pageSize) = q.1 + q.2 := by
      intro q hq
      have hq := List.mem_map_of_mem (f := spanOf) hq
      rw [hspans] at hq
      obtain ⟨⟨s, hs, hstart⟩, u, hu, hend⟩ :=
        foldl_addSpan_mem hempty (fun s hs => (hspan s hs).le) hq
      obtain ⟨i, hi, rfl⟩ := List.mem_map.1 hs
      obtain ⟨j, hj, rfl⟩ := List.mem_map.1 hu
      exact ⟨⟨i, hi, hstart⟩, j, hj, hend⟩
    rw [← hspans] at hco hwithin hstrict
    refine ⟨⟨?_, ?_, ?_, ?_⟩, ?_, ?_⟩
    · intro q hq
      have := hstrict (spanOf q) (List.mem_map_of_mem hq)
      simp only [spanOf] at this
      omega
    · intro q hq
      obtain ⟨⟨i, -, hi⟩, -⟩ := hends q hq
      exact hi ▸ Nat.dvd_mul_left _ _
    · intro q hq
      obtain ⟨-, i, hmemi, hi⟩ := hends q hq
      have hlast := hpage i hmemi
      rw [← hi]
      by_cases hfull : i * pageSize + pageSize ≤ fileSize
      · left
        rw [Nat.min_eq_left (by omega)]
        exact (Nat.dvd_mul_left pageSize i).add (Nat.dvd_refl _)
      · right
        omega
    · exact (List.pairwise_map.1 hco.apart).imp fun h => Nat.le_of_lt h
    · intro q hq
      obtain ⟨⟨i, hi, hstart⟩, j, hj, hend⟩ := hends q hq
      have hfirst := Nat.mul_le_mul_right pageSize ((hmem i).1 hi).1
      have hlast := hpage j hj
      refine ⟨hstart ▸ hfirst, by rw [← hend]; omega, ?_⟩
      rintro n ⟨m, rfl⟩ hn
      have hlt : j * pageSize < m * pageSize := by
        rw [Nat.mul_comm m]
        exact lt_of_lt_of_le (hpage j hj) hn
      have hnext := Nat.succ_le_of_lt (Nat.lt_of_mul_lt_mul_right hlt)
      have hstep := Nat.mul_le_mul_right pageSize hnext
      rw [Nat.succ_mul, Nat.mul_comm m] at hstep
      omega
    · intro b hb
      obtain ⟨s, hs, h1, h2⟩ := ((hwithin b).1 hb).resolve_left (by simp)
      obtain ⟨i, hi, rfl⟩ := List.mem_map.1 hs
      simp only [pageSpan] at h1 h2
      have hdiv : b / pageSize = i := by
        rw [Nat.div_eq_iff hpos]
        omega
      rw [hdiv]
      exact ((hmem i).1 hi).2.2

/-- Ranges that start on page boundaries, one behind the other in the file. -/
structure Ranged (pageSize fileSize : Nat) (runs : List (Nat × Nat)) : Prop where
  start : ∀ r ∈ runs, pageSize ∣ r.1
  stop : ∀ r ∈ runs, r.2 ≤ fileSize
  apart : runs.Pairwise fun a b => a.2 ≤ b.1

omit hpos in
theorem Ranged.tail {r : Nat × Nat} {runs : List (Nat × Nat)}
    (h : Ranged pageSize fileSize (r :: runs)) : Ranged pageSize fileSize runs :=
  ⟨fun q hq => h.start q (List.mem_cons_of_mem r hq),
    fun q hq => h.stop q (List.mem_cons_of_mem r hq), (List.pairwise_cons.1 h.apart).2⟩

/-- Predicted baskets inside the file, rounded to pages and coalesced. -/
theorem issueRuns_ranged (hmax : pageSize ≤ 2 ^ 20)
    (hcand : ∀ c ∈ cand, u64 c.seek < fileSize ∧ u64 c.seek + u64 c.size ≤ fileSize ∧
      u64 c.size < 2 ^ 31) : Ranged pageSize fileSize (issueRuns pageSize fileSize cand) := by
  have hspans : ∀ s ∈ cand.map fun c => roundSpan pageSize fileSize (u64 c.seek) (u64 c.size),
      s.1 ≤ s.2 ∧ s.2 ≤ fileSize ∧ pageSize ∣ s.1 := by
    intro s hs
    obtain ⟨c, hc, rfl⟩ := List.mem_map.1 hs
    obtain ⟨hseek, hstop, hsize⟩ := hcand c hc
    obtain ⟨hstart, hle, hend, -⟩ := roundSpan_pages (m := MetaData.fresh [] fileSize pageSize 0)
      hpos hmax (c := ⟨u64 c.seek, u64 c.size⟩) ⟨hseek, hstop, hsize⟩
    exact ⟨hle, hend, hstart⟩
  unfold issueRuns
  simp only
  generalize (cand.map fun c => roundSpan pageSize fileSize (u64 c.seek) (u64 c.size)) = spans
    at hspans
  obtain ⟨hperm, hsorted⟩ := sorted_spans spans
  generalize spans.insertionSort (fun a b => a.1 < b.1 ∨ a.1 = b.1 ∧ a.2 ≤ b.2) = sorted
    at hperm hsorted
  have heach : ∀ s ∈ sorted, s.1 ≤ s.2 ∧ s.2 ≤ fileSize ∧ pageSize ∣ s.1 :=
    fun s hs => hspans s (hperm.mem_iff.1 hs)
  have hempty : Coalesced [] := ⟨by simp, .nil⟩
  obtain ⟨hco, -⟩ := foldl_addSpan hempty (fun s hs => (heach s hs).1) hsorted (by simp)
  refine ⟨?_, ?_, hco.apart.imp fun h => Nat.le_of_lt h⟩
  · intro r hr
    obtain ⟨⟨s, hs, hstart⟩, -⟩ := foldl_addSpan_mem hempty (fun s hs => (heach s hs).1) hr
    rw [← hstart]
    exact (heach s (by simpa using hs)).2.2
  · exact foldl_addSpan_ends (by simp) fun s hs => (heach s hs).2.1

end Scan

/-! ### What is asked of a run -/

/-- The fill that a thread works on. -/
def AheadPc.fillOf : AheadPc → Option FillJob
  | .looking j | .noting j _ _ _ | .passing j _ | .predicting j | .scanning j _ _ _
  | .sending j _ _ _ | .asking j _ _ _ _ | .refused j _ _ _ | .recording j _ _ => some j
  | .idle | .dropping _ _ => none

/-- The prediction that a thread sends for. -/
def AheadPc.candOf : AheadPc → Option (List Next)
  | .scanning _ cand _ _ | .sending _ cand _ _ | .asking _ cand _ _ _ | .refused _ cand _ _
  | .recording _ cand _ => some cand
  | _ => none

/-- The request that a thread announces. -/
def AheadPc.askOf : AheadPc → Option Nat
  | .asking _ _ _ _ k => some k
  | _ => none

/-- The bytes of a request that are counted. -/
def WireHandler.load (x : WireHandler) : Nat := if x.phase = .counted then 0 else x.bytes

/-- The settings as the configuration has them. -/
structure AheadSetup.Valid (S : AheadSetup) : Prop where
  page : ∀ e, Config.validPageSize (S.pageSize e) = true
  size : ∀ e, S.fileSize e < 2 ^ 63
  memory : S.ramCap < 2 ^ 52

/-- A handle has one entry, a parsed table's baskets lie inside the file, and a close without the
entry is not the first. -/
def AheadLegal (S : AheadSetup) (w : AheadWorld) : AheadAct → Prop
  | .fill _ j => j.entry = S.entryOf j.handle
  | .parse s _ parsed => ∀ j t, w.job s = .looking j → parsed = some t →
      t.Proper (S.fileSize j.entry)
  | .close _ h hasEntry => hasEntry = true ∨ ∀ p, w.handles h = some p → p.closed = true
  | _ => True

/-- All but the last basket of a prediction stay under the window and the memory's limit. -/
def Windowed (S : AheadSetup) (cand : List Next) : Prop :=
  cand ≠ [] → (cand.dropLast.map fun c => u64 c.size).sum < min (S.window * S.depth) S.ramCap

/-- What is on its way is counted, byte for byte, and announced, range for range; before the process
is confirmed nothing was asked for; no byte is on its way twice for a handle; what was read ahead is
remembered, once, until it is dropped; a handle that was closed is let go; and what is being asked
for is ahead of the reader and under the limits. -/
structure AheadSafe (S : AheadSetup) (w : AheadWorld) : Prop where
  counted : Total (fun k => (w.wires k).elim 0 WireHandler.load) w.inflight
  noted : ∀ e r, Total (fun k => (w.wires k).elim 0 fun x =>
    if x.entry = e then x.announced.count r else 0) ((w.noted e).count r)
  unconfirmed : w.confirmed = false → w.made = 0 ∧ ∀ k, w.wires k = none
  apart : ∀ k k' x x', w.wires k = some x → w.wires k' = some x' → k ≠ k' →
    x.handle = x'.handle → ∀ b, Staged (stagesOf x.elems) b → ¬ Staged (stagesOf x'.elems) b
  owed : ∀ h p, w.handles h = some p → ∀ g, w.owed h g = true ↔ g ∈ p.issued.map Issued.g
  once : ∀ h p, w.handles h = some p → (p.issued.map Issued.g).Pairwise (· < ·)
  closed : ∀ h p, w.handles h = some p → p.closed = true →
    (∀ s j, (w.job s).fillOf = some j → j.handle ≠ h) ∧
      ((∃ hasEntry, w.job (S.shard h) = .dropping h hasEntry) ∨ p.issued = [] ∧ p.shadow = [])
  ahead : ∀ s cand, (w.job s).candOf = some cand → w.confirmed = true ∧ Windowed S cand ∧
    ∃ j p t, (w.job s).fillOf = some j ∧ w.handles j.handle = some p ∧ p.table = some t ∧
      AheadOf t p.frontier cand

/-! ### What holds between the steps -/

/-- A byte is on its way for a handle. -/
def OwnFlight (w : AheadWorld) (h b : Nat) : Prop :=
  ∃ k x, w.wires k = some x ∧ x.handle = h ∧ Staged (stagesOf x.elems) b

structure AheadFillOk (S : AheadSetup) (w : AheadWorld) (s : Nat) (j : FillJob) : Prop where
  shard : S.shard j.handle = s
  entry : j.entry = S.entryOf j.handle
  here : ∃ p, w.handles j.handle = some p ∧ p.closed = false

/-- The handle's basket map was found. -/
def Tabled (w : AheadWorld) (j : FillJob) : Prop :=
  ∃ p t, w.handles j.handle = some p ∧ p.table = some t

structure CandOk (S : AheadSetup) (w : AheadWorld) (j : FillJob) (cand : List Next) : Prop where
  window : Windowed S cand
  ahead : ∃ p t, w.handles j.handle = some p ∧ p.table = some t ∧ AheadOf t p.frontier cand

/-- Ranges of whole pages in the file, none of which is on its way. -/
structure Lacked (S : AheadSetup) (w : AheadWorld) (j : FillJob) (ranges : List (Nat × Nat)) :
    Prop where
  laid : Laid (S.pageSize j.entry) (S.fileSize j.entry) ranges
  inside : ∀ r ∈ ranges, r.1 + r.2 ≤ S.fileSize j.entry
  new : ∀ b, Staged ranges b → ¬ OwnFlight w j.handle b

/-- What is known where a thread stands. -/
def AheadJobOk (S : AheadSetup) (w : AheadWorld) (s : Nat) : AheadPc → Prop
  | .idle => True
  | .looking j => AheadFillOk S w s j
  | .noting j _ _ _ | .passing j _ | .predicting j => AheadFillOk S w s j ∧ Tabled w j
  | .scanning j cand runs absent => AheadFillOk S w s j ∧ CandOk S w j cand ∧ Lacked S w j absent ∧
      Ranged (S.pageSize j.entry) (S.fileSize j.entry) runs ∧
        ∀ q ∈ absent, ∀ r ∈ runs, q.1 + q.2 ≤ r.1
  | .sending j cand parts _ => AheadFillOk S w s j ∧ CandOk S w j cand ∧
      Lacked S w j (stagesOf parts.flatten)
  | .asking j cand parts _ k => AheadFillOk S w s j ∧ CandOk S w j cand ∧
      Lacked S w j (stagesOf parts.flatten) ∧
        ∃ x left, w.wires k = some x ∧ x.handle = j.handle ∧ x.phase = .announcing left
  | .refused j cand _ _ | .recording j cand _ => AheadFillOk S w s j ∧ CandOk S w j cand
  | .dropping h hasEntry => S.shard h = s ∧ ∃ p, w.handles h = some p ∧ p.closed = true ∧
      (hasEntry = true ∨ p.issued = [])

/-- The ranges that were announced, and who announces those that were not. -/
def Announced (S : AheadSetup) (w : AheadWorld) (k : Nat) (x : WireHandler) : Prop :=
  match x.phase with
  | .announcing left => x.announced ++ left = stagesOf x.elems ∧
      (w.job (S.shard x.handle)).askOf = some k
  | _ => x.announced = stagesOf x.elems

structure AheadWireOk (S : AheadSetup) (w : AheadWorld) (k : Nat) (x : WireHandler) : Prop where
  made : k < w.made
  entry : x.entry = S.entryOf x.handle
  laid : Laid (S.pageSize x.entry) (S.fileSize x.entry) (stagesOf x.elems)
  inside : ∀ r ∈ stagesOf x.elems, r.1 + r.2 ≤ S.fileSize x.entry
  announced : Announced S w k x

structure AheadHandleOk (S : AheadSetup) (w : AheadWorld) (h : Nat) (p : PrefetchHandle) :
    Prop where
  once : (p.issued.map Issued.g).Pairwise (· < ·)
  table : ∀ t, p.table = some t → t.Proper (S.fileSize (S.entryOf h))
  closed : p.closed = true →
    (∃ hasEntry, w.job (S.shard h) = .dropping h hasEntry) ∨ p.issued = [] ∧ p.shadow = []
  owed : ∀ g, w.owed h g = true ↔ g ∈ p.issued.map Issued.g

structure AheadOk (S : AheadSetup) (w : AheadWorld) : Prop where
  counted : Total (fun k => (w.wires k).elim 0 WireHandler.load) w.inflight
  noted : ∀ e r, Total (fun k => (w.wires k).elim 0 fun x =>
    if x.entry = e then x.announced.count r else 0) ((w.noted e).count r)
  quiet : w.confirmed = false → w.made = 0 ∧ ∀ s, (w.job s).candOf = none
  wires : ∀ k x, w.wires k = some x → AheadWireOk S w k x
  apart : ∀ k k' x x', w.wires k = some x → w.wires k' = some x' → k ≠ k' →
    x.handle = x'.handle → ∀ b, Staged (stagesOf x.elems) b → ¬ Staged (stagesOf x'.elems) b
  jobs : ∀ s, AheadJobOk S w s (w.job s)
  handles : ∀ h p, w.handles h = some p → AheadHandleOk S w h p
  unknown : ∀ h, w.handles h = none → ∀ g, w.owed h g = false

variable {S : AheadSetup} {w w' : AheadWorld} {s : Nat} {j : FillJob} {pc pc' : AheadPc}

/-! ### What a step leaves as it is -/

variable {k : Nat} {p : PrefetchHandle} {x : WireHandler}

/-- What a step of another thread, or of a request, may do to a handle. -/
structure HandleKept (w w' : AheadWorld) (h : Nat) : Prop where
  handle : w'.handles h = w.handles h
  flight : ∀ b, OwnFlight w' h b → OwnFlight w h b
  asked : ∀ k x left, w.wires k = some x → x.handle = h → x.phase = .announcing left →
    ∃ x' left', w'.wires k = some x' ∧ x'.handle = h ∧ x'.phase = .announcing left'

theorem AheadFillOk.kept (h : AheadFillOk S w s j) (hk : w'.handles j.handle = w.handles j.handle) :
    AheadFillOk S w' s j :=
  ⟨h.shard, h.entry, hk ▸ h.here⟩

theorem Tabled.kept (h : Tabled w j) (hk : w'.handles j.handle = w.handles j.handle) :
    Tabled w' j := by
  unfold Tabled
  rw [hk]
  exact h

theorem CandOk.kept (h : CandOk S w j cand) (hk : w'.handles j.handle = w.handles j.handle) :
    CandOk S w' j cand :=
  ⟨h.window, hk ▸ h.ahead⟩

theorem Lacked.kept {ranges : List (Nat × Nat)} (h : Lacked S w j ranges)
    (hk : ∀ b, OwnFlight w' j.handle b → OwnFlight w j.handle b) : Lacked S w' j ranges :=
  ⟨h.laid, h.inside, fun b hb hown => h.new b hb (hk b hown)⟩

theorem AheadJobOk.kept (h : AheadJobOk S w s pc)
    (hk : ∀ h, S.shard h = s → HandleKept w w' h) : AheadJobOk S w' s pc := by
  cases pc with
  | idle => exact trivial
  | looking j => exact h.kept (hk _ h.shard).handle
  | noting j _ _ _ | passing j _ | predicting j =>
      have hkeep := (hk _ h.1.shard).handle
      exact ⟨h.1.kept hkeep, h.2.kept hkeep⟩
  | scanning j cand runs absent =>
      have hkeep := hk _ h.1.shard
      exact ⟨h.1.kept hkeep.handle, h.2.1.kept hkeep.handle, h.2.2.1.kept hkeep.flight, h.2.2.2⟩
  | sending j cand parts sent =>
      have hkeep := hk _ h.1.shard
      exact ⟨h.1.kept hkeep.handle, h.2.1.kept hkeep.handle, h.2.2.kept hkeep.flight⟩
  | asking j cand parts sent k =>
      have hkeep := hk _ h.1.shard
      obtain ⟨hfill, hcand, hparts, x, left, hx, hhandle, hphase⟩ := h
      exact ⟨hfill.kept hkeep.handle, hcand.kept hkeep.handle, hparts.kept hkeep.flight,
        hkeep.asked k x left hx hhandle hphase⟩
  | refused j _ _ _ | recording j _ _ =>
      have hkeep := (hk _ h.1.shard).handle
      exact ⟨h.1.kept hkeep, h.2.kept hkeep⟩
  | dropping hd hasEntry => exact ⟨h.1, (hk _ h.1).handle ▸ h.2⟩

theorem AheadHandleOk.kept {h : Nat} (hp : AheadHandleOk S w h p)
    (hjob : ∀ e, w.job (S.shard h) = .dropping h e → w'.job (S.shard h) = .dropping h e)
    (howed : w'.owed h = w.owed h) : AheadHandleOk S w' h p :=
  ⟨hp.once, hp.table, fun hc => (hp.closed hc).imp_left fun he => he.imp hjob,
    howed ▸ hp.owed⟩

/-- The request and its announcing are as they were. -/
theorem AheadWireOk.kept (hx : AheadWireOk S w k x) (hmade : w.made ≤ w'.made)
    (hask : (w.job (S.shard x.handle)).askOf = some k →
      (w'.job (S.shard x.handle)).askOf = some k) : AheadWireOk S w' k x := by
  refine ⟨lt_of_lt_of_le hx.made hmade, hx.entry, hx.laid, hx.inside, ?_⟩
  have hann := hx.announced
  unfold Announced at hann ⊢
  split
  · rename_i left hphase
    rw [hphase] at hann
    exact ⟨hann.1, hask hann.2⟩
  · rename_i hphase
    split at hann
    · rename_i left hleft
      exact absurd hleft (hphase left)
    · exact hann

theorem HandleKept.of_eq {h : Nat} (hhandle : w'.handles h = w.handles h)
    (hwires : w'.wires = w.wires) : HandleKept w w' h := by
  refine ⟨hhandle, ?_, ?_⟩
  · rintro b ⟨k, x, hx, hown⟩
    exact ⟨k, x, hwires ▸ hx, hown⟩
  · intro k x left hx hown hphase
    exact ⟨x, left, hwires ▸ hx, hown, hphase⟩

/-- A thread moves on, with what it knows of one handle, and leaves the requests alone. -/
structure ThreadMoves (S : AheadSetup) (w w' : AheadWorld) (s hd : Nat) (p : PrefetchHandle)
    (pc : AheadPc) : Prop where
  wires : w'.wires = w.wires
  noted : w'.noted = w.noted
  inflight : w'.inflight = w.inflight
  made : w'.made = w.made
  job : w'.job = Function.update w.job s pc
  handles : w'.handles = Function.update w.handles hd (some p)
  shard : S.shard hd = s
  owed : ∀ h, h ≠ hd → w'.owed h = w.owed h
  confirmed : w.confirmed = true → w'.confirmed = true
  asked : (w.job s).askOf = none
  asks : pc.askOf = none
  quiet : pc.candOf ≠ none → w.confirmed = true
  dropped : ∀ h e, w.job s = .dropping h e → h = hd

theorem AheadOk.moved (h : AheadOk S w) {hd : Nat} (hm : ThreadMoves S w w' s hd p pc)
    (hjob : AheadJobOk S w' s pc) (hhandle : AheadHandleOk S w' hd p) : AheadOk S w' where
  counted := by
    rw [hm.wires, hm.inflight]
    exact h.counted
  noted := by
    rw [hm.wires, hm.noted]
    exact h.noted
  quiet := by
    intro hno
    have hwas : w.confirmed = false := by
      by_contra hyes
      rw [hm.confirmed (Bool.eq_true_of_not_eq_false hyes)] at hno
      cases hno
    obtain ⟨hmade, hcand⟩ := h.quiet hwas
    refine ⟨hm.made.trans hmade, fun s' => ?_⟩
    rw [hm.job]
    by_cases hs : s' = s
    · subst hs
      rw [Function.update_self]
      by_contra hsome
      rw [hm.quiet hsome] at hwas
      cases hwas
    · rw [Function.update_of_ne hs]
      exact hcand s'
  wires := by
    intro k x hx
    rw [hm.wires] at hx
    refine (h.wires k x hx).kept hm.made.ge ?_
    rw [hm.job]
    by_cases hs : S.shard x.handle = s
    · rw [hs, hm.asked]
      exact fun hno => absurd hno.symm (Option.some_ne_none k)
    · rw [Function.update_of_ne hs]
      exact id
  apart := by
    rw [hm.wires]
    exact h.apart
  jobs := by
    intro s'
    by_cases hs : s' = s
    · subst hs
      rw [hm.job, Function.update_self]
      exact hjob
    · rw [hm.job, Function.update_of_ne hs]
      refine (h.jobs s').kept fun h' hshard => HandleKept.of_eq ?_ hm.wires
      rw [hm.handles, Function.update_of_ne]
      rintro rfl
      exact hs (hshard.symm.trans hm.shard)
  handles := by
    intro h' p' hp
    rw [hm.handles] at hp
    by_cases hh : h' = hd
    · subst hh
      rw [Function.update_self, Option.some.injEq] at hp
      exact hp ▸ hhandle
    · rw [Function.update_of_ne hh] at hp
      refine (h.handles h' p' hp).kept ?_ (hm.owed h' hh)
      intro e he
      rw [hm.job]
      by_cases hs : S.shard h' = s
      · rw [hs] at he
        exact absurd (hm.dropped h' e he) hh
      · rw [Function.update_of_ne hs]
        exact he
  unknown := by
    intro h' hnone g
    rw [hm.handles] at hnone
    by_cases hh : h' = hd
    · subst hh
      rw [Function.update_self] at hnone
      cases hnone
    · rw [Function.update_of_ne hh] at hnone
      rw [hm.owed h' hh]
      exact h.unknown h' hnone g

/-- What is known where a thread is found. -/
theorem AheadOk.stands (h : AheadOk S w) (hpc : w.job s = pc) : AheadJobOk S w s pc :=
  hpc ▸ h.jobs s

/-- A thread moves on in its fill, and the handle stays as it was. -/
theorem AheadOk.stepped (h : AheadOk S w) (hpc : w.job s = pc) (hfill : AheadFillOk S w s j)
    (hin : pc.fillOf = some j) (hasked : pc.askOf = none) {shares : Bytes → Nat}
    {confirmed : Bool} (hconfirmed : w.confirmed = true → confirmed = true)
    (hasks : pc'.askOf = none) (hquiet : pc'.candOf ≠ none → w.confirmed = true)
    (hjob : AheadJobOk S w s pc') :
    AheadOk S ({ w with shareByName := shares, confirmed := confirmed }.setJob s pc') := by
  obtain ⟨p, hp, -⟩ := hfill.here
  have hdropping : ∀ h e, w.job s ≠ .dropping h e := by
    intro h' e he
    rw [hpc.symm.trans he] at hin
    cases hin
  have hm : ThreadMoves S w ({ w with shareByName := shares, confirmed := confirmed }.setJob s pc')
      s j.handle p pc' := by
    refine ⟨rfl, rfl, rfl, rfl, rfl, ?_, hfill.shard, fun _ _ => rfl, hconfirmed, hpc ▸ hasked,
      hasks, hquiet, fun h' e he => absurd he (hdropping h' e)⟩
    rw [← hp, Function.update_eq_self]
    rfl
  refine h.moved hm (hjob.kept fun _ _ => HandleKept.of_eq rfl rfl)
    ((h.handles _ p hp).kept (fun e he => ?_) rfl)
  rw [hfill.shard] at he
  exact absurd he (hdropping _ e)

/-- What is sent for was predicted in a process that is confirmed. -/
theorem AheadOk.confirmed (h : AheadOk S w) (hpc : w.job s = pc) (hcand : pc.candOf = some cand) :
    w.confirmed = true := by
  by_contra hno
  have hquiet := (h.quiet (Bool.eq_false_iff.2 hno)).2 s
  rw [hpc, hcand] at hquiet
  cases hquiet

/-- A thread moves on in its prediction, and all else stays as it was. -/
theorem AheadOk.walked (h : AheadOk S w) (hpc : w.job s = pc) (hfill : AheadFillOk S w s j)
    (hin : pc.fillOf = some j) (hcand : pc.candOf = some cand) (hasked : pc.askOf = none)
    (hasks : pc'.askOf = none) (hjob : AheadJobOk S w s pc') : AheadOk S (w.setJob s pc') := by
  show AheadOk S ({ w with
    shareByName := w.shareByName, confirmed := w.confirmed }.setJob s pc')
  exact h.stepped hpc hfill hin hasked id hasks (fun _ => h.confirmed hpc hcand) hjob

/-! ### The steps of a fill -/

/-- The handle of a fill in hand, and what is known of it. -/
theorem AheadOk.inHand (h : AheadOk S w) (hfill : AheadFillOk S w s j)
    (hp : w.handles j.handle = some p) : AheadHandleOk S w j.handle p ∧ p.closed = false := by
  obtain ⟨q, hq, hopen⟩ := hfill.here
  rw [hp] at hq
  cases hq
  exact ⟨h.handles _ p hp, hopen⟩

/-- What a handle is to say of itself, where it is open. -/
theorem AheadHandleOk.of_open {hd : Nat} (hopen : p.closed = false)
    (honce : (p.issued.map Issued.g).Pairwise (· < ·))
    (htable : ∀ t, p.table = some t → t.Proper (S.fileSize (S.entryOf hd)))
    (howed : ∀ g, w.owed hd g = true ↔ g ∈ p.issued.map Issued.g) : AheadHandleOk S w hd p :=
  ⟨honce, htable, fun hc => absurd (hopen.symm.trans hc) Bool.false_ne_true, howed⟩

theorem fill_keeps (h : AheadOk S w) (hidle : w.job s = .idle) (hshard : S.shard j.handle = s)
    (hlegal : j.entry = S.entryOf j.handle) (hp : (w.handles j.handle).getD {} = p) :
    (p.closed = true → AheadOk S (w.setHandle j.handle p)) ∧
      (p.closed = false → AheadOk S
        ((w.setHandle j.handle { p with fills := p.fills + 1 }).setJob s (.looking j))) := by
  have hok : AheadHandleOk S w j.handle p := by
    cases hw : w.handles j.handle with
    | some q =>
        rw [hw] at hp
        exact hp ▸ h.handles _ q hw
    | none =>
        rw [hw] at hp
        subst hp
        refine AheadHandleOk.of_open rfl List.Pairwise.nil (fun t ht => by cases ht) fun g => ?_
        rw [h.unknown _ hw g]
        exact ⟨fun hno => absurd hno Bool.false_ne_true, fun hno => absurd hno List.not_mem_nil⟩
  constructor
  · intro hclosed
    have hm : ThreadMoves S w (w.setHandle j.handle p) s j.handle p .idle := by
      refine ⟨rfl, rfl, rfl, rfl, ?_, rfl, hshard, fun _ _ => rfl, id, by rw [hidle]; rfl, rfl,
        fun hno => absurd rfl hno, fun h' e he => absurd (hidle.symm.trans he) AheadPc.noConfusion⟩
      rw [← hidle, Function.update_eq_self]
      rfl
    exact h.moved hm trivial (hok.kept (fun e he => he) rfl)
  · intro hopen
    have hm : ThreadMoves S w
        ((w.setHandle j.handle { p with fills := p.fills + 1 }).setJob s (.looking j)) s j.handle
        { p with fills := p.fills + 1 } (.looking j) :=
      ⟨rfl, rfl, rfl, rfl, rfl, rfl, hshard, fun _ _ => rfl, id, by rw [hidle]; rfl, rfl,
        fun hno => absurd rfl hno, fun h' e he => absurd (hidle.symm.trans he) AheadPc.noConfusion⟩
    refine h.moved hm ⟨hshard, hlegal, _, Function.update_self .., hopen⟩ ?_
    exact AheadHandleOk.of_open hopen hok.once hok.table hok.owed

/-- The search changes nothing but the map and what counts its tries. -/
theorem findTable_spec (p : PrefetchHandle) (confirmed hasHeader : Bool)
    (parsed : Option BasketTable) :
    (p.findTable confirmed hasHeader parsed).issued = p.issued ∧
      (p.findTable confirmed hasHeader parsed).closed = p.closed ∧
        ∀ t, (p.findTable confirmed hasHeader parsed).table = some t →
          p.table = some t ∨ parsed = some t := by
  unfold PrefetchHandle.findTable
  split
  · exact ⟨rfl, rfl, fun t ht => .inl ht⟩
  · split
    · exact ⟨rfl, rfl, fun t ht => .inl ht⟩
    · split
      · exact ⟨rfl, rfl, fun t ht => .inl ht⟩
      · cases parsed with
        | none => exact ⟨rfl, rfl, fun t ht => .inl ht⟩
        | some u => exact ⟨rfl, rfl, fun t ht => .inr ht⟩

theorem noteBarren_spec (p : PrefetchHandle) :
    p.noteBarren.issued = p.issued ∧ p.noteBarren.closed = p.closed ∧
      ∀ t, p.noteBarren.table = some t → p.table = some t := by
  unfold PrefetchHandle.noteBarren
  split
  · exact ⟨rfl, rfl, fun t ht => by cases ht⟩
  · exact ⟨rfl, rfl, fun t ht => ht⟩

/-- In a fill, the thread changes what it knows of the handle. -/
theorem AheadOk.learned (h : AheadOk S w) (hfill : AheadFillOk S w s j) (hopen : p.closed = false)
    (hm : ThreadMoves S w w' s j.handle p pc') (hjob : AheadFillOk S w' s j → AheadJobOk S w' s pc')
    (honce : (p.issued.map Issued.g).Pairwise (· < ·))
    (htable : ∀ t, p.table = some t → t.Proper (S.fileSize j.entry))
    (howed : ∀ g, w'.owed j.handle g = true ↔ g ∈ p.issued.map Issued.g) : AheadOk S w' := by
  have hhere : w'.handles j.handle = some p := by
    rw [hm.handles, Function.update_self]
  refine h.moved hm (hjob ⟨hfill.shard, hfill.entry, p, hhere, hopen⟩) ?_
  exact AheadHandleOk.of_open hopen honce (hfill.entry ▸ htable) howed

/-- The moves of a thread in a fill that change its handle. -/
theorem threadMoves_learn (hpc : w.job s = pc) (hfill : AheadFillOk S w s j)
    (hin : pc.fillOf = some j) (hasked : pc.askOf = none) (hasks : pc'.askOf = none)
    (hquiet : pc'.candOf ≠ none → w.confirmed = true) (p : PrefetchHandle) {disabled : Bool}
    {issued : Nat} {owed : Nat → Nat → Bool} (howed : ∀ h, h ≠ j.handle → owed h = w.owed h) :
    ThreadMoves S w (({ w with disabled := disabled, issued := issued, owed := owed }.setHandle
      j.handle p).setJob s pc') s j.handle p pc' := by
  refine ⟨rfl, rfl, rfl, rfl, rfl, rfl, hfill.shard, howed, id, hpc ▸ hasked, hasks, hquiet, ?_⟩
  intro h' e he
  rw [hpc.symm.trans he] at hin
  cases hin

theorem parse_keeps (h : AheadOk S w) (hpc : w.job s = .looking j)
    (hp : w.handles j.handle = some p) {parsed : Option BasketTable}
    (hparsed : ∀ t, parsed = some t → t.Proper (S.fileSize j.entry)) (hasHeader : Bool) :
    let q := p.findTable w.confirmed hasHeader parsed
    (q.table = none → AheadOk S ((w.setHandle j.handle q).setJob s .idle)) ∧
      ∀ t, q.table = some t →
        AheadOk S ((w.setHandle j.handle q.noteBarren).setJob s .idle) ∧
          ∀ frontier share gs notes, AheadOk S ((w.setHandle j.handle { q with
            barren := 0
            frontier := frontier
            share := share }).setJob s (.noting j gs q.frontier notes)) := by
  intro q
  have hfill : AheadFillOk S w s j := h.stands hpc
  obtain ⟨hok, hopen⟩ := h.inHand hfill hp
  obtain ⟨hissued, hclosed, htable⟩ := findTable_spec p w.confirmed hasHeader parsed
  have hproper : ∀ t, q.table = some t → t.Proper (S.fileSize j.entry) := by
    intro t ht
    rcases htable t ht with hold | hnew
    · rw [hfill.entry]
      exact hok.table t hold
    · exact hparsed t hnew
  have hqopen : q.closed = false := hclosed.trans hopen
  have hqonce : (q.issued.map Issued.g).Pairwise (· < ·) := hissued ▸ hok.once
  have hqowed : ∀ g, w.owed j.handle g = true ↔ g ∈ q.issued.map Issued.g := hissued ▸ hok.owed
  refine ⟨fun hnone => ?_, fun t ht => ⟨?_, fun frontier share gs notes => ?_⟩⟩
  · refine h.learned hfill hqopen (threadMoves_learn hpc hfill rfl rfl rfl
      (fun hno => absurd rfl hno) q fun _ _ => rfl) (fun _ => trivial) hqonce hproper hqowed
  · obtain ⟨hbissued, hbclosed, hbtable⟩ := noteBarren_spec q
    refine h.learned hfill (hbclosed.trans hqopen) (threadMoves_learn hpc hfill rfl rfl rfl
      (fun hno => absurd rfl hno) q.noteBarren fun _ _ => rfl) (fun _ => trivial)
      (hbissued ▸ hqonce) (fun t ht => hproper t (hbtable t ht)) (hbissued ▸ hqowed)
  · refine h.learned hfill (p := { q with barren := 0, frontier := frontier, share := share })
      hqopen (threadMoves_learn hpc hfill rfl rfl rfl (fun hno => absurd rfl hno) _ fun _ _ => rfl)
      (fun hfill' => ⟨hfill', _, t, Function.update_self .., ht⟩) hqonce hproper hqowed

theorem noteShare_keeps (h : AheadOk S w) {gs : List Nat} {prev : List Int} {n : Bytes × Nat}
    {left : List (Bytes × Nat)} (hpc : w.job s = .noting j gs prev (n :: left))
    (shares : Bytes → Nat) :
    AheadOk S ({ w with shareByName := shares }.setJob s (.noting j gs prev left)) := by
  have hjob := h.stands hpc
  exact h.stepped hpc hjob.1 rfl rfl id rfl (fun hno => absurd rfl hno) hjob

theorem judge_keeps (h : AheadOk S w) {gs : List Nat} {prev : List Int}
    (hpc : w.job s = .noting j gs prev []) (good : Bool) :
    AheadOk S ({ w with confirmed := w.confirmed || good }.setJob s (.passing j prev)) := by
  have hjob := h.stands hpc
  exact h.stepped hpc hjob.1 rfl rfl (fun hyes => by rw [hyes]; rfl) rfl
    (fun hno => absurd rfl hno) hjob

/-- What is dropped is owed no more. -/
theorem dropAll_owed (h : Nat) (issued : List Issued) (g : Nat) :
    (w.dropAll h issued).owed h g = true ↔ w.owed h g = true ∧ g ∉ issued.map Issued.g := by
  simp [AheadWorld.dropAll]

theorem dropAll_other {h h' : Nat} (hne : h' ≠ h) (issued : List Issued) :
    (w.dropAll h issued).owed h' = w.owed h' :=
  Function.update_of_ne hne _ _

/-- Of some baskets, those that a test on the index keeps are those that it does not drop. -/
theorem kept_iff {issued : List Issued} (f : Issued → Bool) (hf : ∀ i i', i.g = i'.g → f i = f i')
    (g : Nat) :
    (g ∈ issued.map Issued.g ∧ g ∉ (issued.filter f).map Issued.g) ↔
      g ∈ (issued.filter fun i => !f i).map Issued.g := by
  simp only [List.mem_map, List.mem_filter, Bool.not_eq_true']
  constructor
  · rintro ⟨⟨i, hi, rfl⟩, hno⟩
    refine ⟨i, ⟨hi, ?_⟩, rfl⟩
    by_contra hyes
    exact hno ⟨i, ⟨hi, Bool.eq_true_of_not_eq_false hyes⟩, rfl⟩
  · rintro ⟨i, ⟨hi, hno⟩, rfl⟩
    refine ⟨⟨i, hi, rfl⟩, ?_⟩
    rintro ⟨i', ⟨-, hyes⟩, heq⟩
    rw [hf i' i heq, hno] at hyes
    cases hyes

theorem passOver_keeps (h : AheadOk S w) {prev : List Int} (hpc : w.job s = .passing j prev)
    (hp : w.handles j.handle = some p) {t : BasketTable} (ht : p.table = some t) :
    let w' := w.dropAll j.handle (p.issued.filter (passedOver t prev))
    let keep := p.issued.filter fun i => !passedOver t prev i
    AheadOk S ({ (w'.dropAll j.handle keep).setHandle j.handle { p with issued := [] } with
        disabled := true }.setJob s .idle) ∧
      AheadOk S ((w'.setHandle j.handle { p with issued := keep }).setJob s (.predicting j)) := by
  intro w' keep
  obtain ⟨hfill, -⟩ := h.stands hpc
  obtain ⟨hok, hopen⟩ := h.inHand hfill hp
  have hindex : ∀ i i' : Issued, i.g = i'.g → passedOver t prev i = passedOver t prev i' := by
    intro i i' heq
    unfold passedOver
    rw [heq]
  have howed : ∀ g, w'.owed j.handle g = true ↔ g ∈ keep.map Issued.g := by
    intro g
    rw [dropAll_owed, hok.owed]
    exact kept_iff _ hindex g
  have hproper : ∀ t, p.table = some t → t.Proper (S.fileSize j.entry) := by
    rw [hfill.entry]
    exact hok.table
  have hother : ∀ h, h ≠ j.handle → w'.owed h = w.owed h := fun h hne => dropAll_other hne _
  constructor
  · refine h.learned hfill (p := { p with issued := [] }) hopen
      (threadMoves_learn hpc hfill rfl rfl rfl (fun hno => absurd rfl hno) _
        fun h' hne => (dropAll_other hne _).trans (hother h' hne))
      (fun _ => trivial) List.Pairwise.nil hproper fun g => ?_
    have hnone : (w'.dropAll j.handle keep).owed j.handle g ≠ true := by
      rw [Ne, dropAll_owed, howed]
      exact fun hno => hno.2 hno.1
    exact ⟨fun hyes => absurd hyes hnone, fun hno => absurd hno List.not_mem_nil⟩
  · refine h.learned hfill (p := { p with issued := keep }) hopen (threadMoves_learn hpc hfill rfl
      rfl rfl (fun hno => absurd rfl hno) _ hother)
      (fun hfill' => ⟨hfill', _, t, Function.update_self .., ht⟩) ?_ hproper howed
    exact hok.once.sublist ((List.filter_sublist).map _)

/-! ### The steps of a prediction -/

theorem predict_keeps (hS : S.Valid) (h : AheadOk S w) (hpc : w.job s = .predicting j)
    (hp : w.handles j.handle = some p) {t : BasketTable} (ht : p.table = some t)
    (shares : Bytes → Nat) (staged : Nat) :
    let cand := predict t p S.depth
      (windowLeft (S.window * S.depth) S.ramCap (staged + w.inflight)) shares
    AheadOk S ((w.setHandle j.handle { p with
      shadow := (cand.map Next.g).insertionSort (· ≤ ·) }).setJob s
        (if cand = [] ∨ ¬ w.confirmed then .idle
        else .scanning j cand (issueRuns (S.pageSize j.entry) (S.fileSize j.entry) cand) [])) := by
  intro cand
  obtain ⟨hfill, -⟩ := h.stands hpc
  obtain ⟨hok, hopen⟩ := h.inHand hfill hp
  have hproper : ∀ t, p.table = some t → t.Proper (S.fileSize j.entry) := by
    rw [hfill.entry]
    exact hok.table
  have htp := hproper t ht
  have hleft : windowLeft (S.window * S.depth) S.ramCap (staged + w.inflight) ≤
      min (S.window * S.depth) S.ramCap := by
    unfold windowLeft
    split <;> omega
  have hmem := hS.memory
  obtain ⟨hahead, hbound⟩ := @predict_spec t (S.fileSize j.entry) p htp S.depth
    (windowLeft (S.window * S.depth) S.ramCap (staged + w.inflight)) (by omega) shares
  change AheadOf t p.frontier cand at hahead
  change cand ≠ [] → _ at hbound
  obtain ⟨hlo, hhi, -⟩ := MetaFile.validPageSize_iff.1 (hS.page j.entry)
  have hinside : ∀ c ∈ cand, u64 c.seek < S.fileSize j.entry ∧
      u64 c.seek + u64 c.size ≤ S.fileSize j.entry ∧ u64 c.size < 2 ^ 31 := by
    intro c hc
    obtain ⟨hseek, hsize, hlt⟩ := htp.bytes c.g
    obtain ⟨hstart, hstop⟩ := htp.inside c.g
    have hfile := hS.size j.entry
    have hu : u64 c.seek = (t.seekOf c.g).toNat := by
      rw [hahead.seek c hc]
      exact BasketTable.u64_of_nonneg hseek (by omega)
    have hu' : u64 c.size = (t.sizeOf c.g).toNat := by
      rw [hahead.size c hc]
      exact BasketTable.u64_of_nonneg hsize (by omega)
    omega
  by_cases hnone : cand = [] ∨ ¬ w.confirmed
  · rw [if_pos hnone]
    exact h.learned hfill (p := { p with shadow := (cand.map Next.g).insertionSort (· ≤ ·) }) hopen
      (threadMoves_learn hpc hfill rfl rfl rfl (fun hno => absurd rfl hno) _ fun _ _ => rfl)
      (fun _ => trivial) hok.once hproper hok.owed
  · rw [if_neg hnone]
    rw [not_or, not_not] at hnone
    refine h.learned hfill (p := { p with shadow := (cand.map Next.g).insertionSort (· ≤ ·) }) hopen
      (threadMoves_learn hpc hfill rfl rfl rfl (fun _ => hnone.2) _ fun _ _ => rfl)
      (fun hfill' => ?_) hok.once hproper hok.owed
    refine ⟨hfill', ⟨fun hne => lt_of_lt_of_le (hbound hne) hleft, _, t, Function.update_self ..,
      ht, hahead⟩, ⟨⟨?_, ?_, ?_, List.Pairwise.nil⟩, ?_, ?_⟩,
      issueRuns_ranged (by omega) (by omega) hinside, ?_⟩
    · exact fun r hr => absurd hr List.not_mem_nil
    · exact fun r hr => absurd hr List.not_mem_nil
    · exact fun r hr => absurd hr List.not_mem_nil
    · exact fun r hr => absurd hr List.not_mem_nil
    · intro b hb
      obtain ⟨r, hr, -⟩ := staged_iff.1 hb
      exact absurd hr List.not_mem_nil
    · exact fun r hr => absurd hr List.not_mem_nil

/-- While no request of a handle is being announced, all that is on its way for the handle was. -/
theorem AheadOk.flight_noted (hS : S.Valid) (h : AheadOk S w) (hpc : w.job s = pc)
    (hfill : AheadFillOk S w s j) (hasked : pc.askOf = none) {b : Nat}
    (hown : OwnFlight w j.handle b) :
    Presence.pageInFlight ((w.noted j.entry).flatMap fun q =>
      (clipPages (S.pageSize j.entry) (S.fileSize j.entry) q).toList)
        (b / S.pageSize j.entry) = true := by
  obtain ⟨k, x, hx, hhandle, hstaged⟩ := hown
  have hw := h.wires k x hx
  have hentry : x.entry = j.entry := by
    rw [hw.entry, hfill.entry, hhandle]
  have hann : x.announced = stagesOf x.elems := by
    have hann := hw.announced
    unfold Announced at hann
    split at hann
    · rw [hhandle, hfill.shard, hpc, hasked] at hann
      exact absurd hann.2.symm (Option.some_ne_none k)
    · exact hann
  obtain ⟨r, hr, h1, h2⟩ := staged_iff.1 hstaged
  have hcount := (h.noted j.entry r).le k
  rw [hx, Option.elim_some, if_pos hentry, hann] at hcount
  have hnoted : r ∈ w.noted j.entry := by
    have hpos := List.count_pos_iff.2 hr
    exact List.count_pos_iff.1 (by omega)
  obtain ⟨hlo, -, -⟩ := MetaFile.validPageSize_iff.1 (hS.page j.entry)
  have hfile := hS.size j.entry
  have hin := hw.inside r hr
  rw [hentry] at hin
  obtain ⟨q, hq, hpage⟩ := (@clipPages_pages (S.pageSize j.entry) (S.fileSize j.entry) (by omega)
    (by omega) r (hw.laid.pos r hr) hin (b / S.pageSize j.entry)).2 ⟨b, h1, h2, rfl⟩
  refine List.any_eq_true.2 ⟨q, List.mem_flatMap.2 ⟨r, hnoted, hq⟩, ?_⟩
  simp only [Bool.and_eq_true, decide_eq_true_eq]
  exact hpage

theorem scan_keeps (hS : S.Valid) (h : AheadOk S w) {r : Nat × Nat} {runs absent : List (Nat × Nat)}
    (hpc : w.job s = .scanning j cand (r :: runs) absent) (here : Nat → Bool) :
    AheadOk S (w.setJob s (.scanning j cand runs (absent ++
      absentRuns (S.pageSize j.entry) (S.fileSize j.entry) (fun i => here i ||
        Presence.pageInFlight ((w.noted j.entry).flatMap fun q =>
          (clipPages (S.pageSize j.entry) (S.fileSize j.entry) q).toList) i)
            r.1 (r.2 - r.1)))) := by
  obtain ⟨hfill, hcand, hlack, hranged, hbefore⟩ := h.stands hpc
  obtain ⟨hlo, -, -⟩ := MetaFile.validPageSize_iff.1 (hS.page j.entry)
  have hpos : 0 < S.pageSize j.entry := by omega
  obtain ⟨hlaid, hends, hheld⟩ := absentRuns_laid hpos (fun i => here i ||
    Presence.pageInFlight ((w.noted j.entry).flatMap fun q =>
      (clipPages (S.pageSize j.entry) (S.fileSize j.entry) q).toList) i)
    (hranged.stop r List.mem_cons_self)
  have hstart := hranged.start r List.mem_cons_self
  generalize absentRuns (S.pageSize j.entry) (S.fileSize j.entry) _ r.1 (r.2 - r.1) = more
    at hlaid hends hheld
  have hfrom : ∀ q ∈ more, r.1 ≤ q.1 := by
    intro q hq
    have hle := (hends q hq).1
    rw [Nat.div_mul_cancel hstart] at hle
    exact hle
  obtain ⟨hfirst, -⟩ := List.pairwise_cons.1 hranged.apart
  refine h.walked hpc hfill rfl rfl rfl rfl
    ⟨hfill, hcand, ⟨?_, ?_, ?_⟩, hranged.tail, ?_⟩
  · exact hlack.laid.append hlaid (fun q hq => hbefore q hq r List.mem_cons_self) hfrom
  · intro q hq
    rcases List.mem_append.1 hq with hq | hq
    · exact hlack.inside q hq
    · exact (hends q hq).2.1
  · intro b hb hown
    rcases staged_append.1 hb with hb | hb
    · exact hlack.new b hb hown
    · have hno := hheld b hb
      rw [h.flight_noted hS hpc hfill rfl hown, Bool.or_true] at hno
      cases hno
  · intro q hq u hu
    rcases List.mem_append.1 hq with hq | hq
    · exact hbefore q hq u (List.mem_cons_of_mem r hu)
    · exact (hends q hq).2.2 u.1 (hranged.start u (List.mem_cons_of_mem r hu)) (hfirst u hu)

theorem cut_keeps (hS : S.Valid) (h : AheadOk S w) {absent : List (Nat × Nat)}
    (hpc : w.job s = .scanning j cand [] absent) :
    AheadOk S (w.setJob s (if absent = [] then .idle
      else .sending j cand
        (elemParts (prefetchElems (S.pageSize j.entry) S.bridge absent.length absent)) 0)) := by
  obtain ⟨hfill, hcand, hlack, -, -⟩ := h.stands hpc
  obtain ⟨hlo, hhi, -⟩ := MetaFile.validPageSize_iff.1 (hS.page j.entry)
  have hkeeps := @prefetchElems_keeps (S.pageSize j.entry) (S.fileSize j.entry) (by omega)
    (by unfold kMaxReadvElem; omega) S.bridge _ _ hlack.laid hlack.inside (le_refl _)
  refine h.walked hpc hfill rfl rfl rfl ?_ ?_
  · split <;> rfl
  · split
    · exact trivial
    · refine ⟨hfill, hcand, ?_⟩
      rw [elemParts_flatten]
      refine ⟨hkeeps.laid, ?_, fun b hb => hlack.new b ((hkeeps.exact b).1 hb)⟩
      apply hkeeps.laid.ends
      intro b hb
      obtain ⟨r, hr, h1, h2⟩ := staged_iff.1 ((hkeeps.exact b).1 hb)
      have := hlack.inside r hr
      omega

/-! ### The steps of a request -/

variable {parts : List (List Elem)}

/-- A total over the requests, when one of them changes. -/
theorem total_setWire {f : WireHandler → Nat} {n : Nat}
    (h : Total (fun k => (w.wires k).elim 0 f) n) (k : Nat) (x : Option WireHandler) :
    Total (fun k' => ((Function.update w.wires k x) k').elim 0 f)
      (n - (w.wires k).elim 0 f + x.elim 0 f) := by
  refine (h.update k (x.elim 0 f)).congr fun k' => ?_
  by_cases hk : k' = k
  · subst hk
    rw [Function.update_self, Function.update_self]
  · rw [Function.update_of_ne hk, Function.update_of_ne hk]

/-- One that weighs as before changes nothing of it. -/
theorem total_sameWire {f : WireHandler → Nat} {n : Nat}
    (h : Total (fun k => (w.wires k).elim 0 f) n) {x' : WireHandler} (hx : w.wires k = some x)
    (hf : f x' = f x) :
    Total (fun k' => ((Function.update w.wires k (some x')) k').elim 0 f) n := by
  have htotal := total_setWire h k (some x')
  have hle := h.le k
  rw [hx, Option.elim_some] at hle
  rw [hx, Option.elim_some, Option.elim_some, hf, Nat.sub_add_cancel hle] at htotal
  exact htotal

/-- What is on its way stays so when a request keeps its elements. -/
theorem ownFlight_same {x' : WireHandler} (hx : w.wires k = some x) (hself : w'.wires k = some x')
    (hothers : ∀ k', k' ≠ k → w'.wires k' = w.wires k') (hhandle : x'.handle = x.handle)
    (helems : x'.elems = x.elems) {h b : Nat} (hown : OwnFlight w' h b) : OwnFlight w h b := by
  obtain ⟨k', y, hy, hmine, hb⟩ := hown
  by_cases hk : k' = k
  · subst hk
    obtain rfl : x' = y := Option.some.inj (hself.symm.trans hy)
    exact ⟨k', x, hx, hhandle ▸ hmine, helems ▸ hb⟩
  · exact ⟨k', y, hothers k' hk ▸ hy, hmine, hb⟩

/-- The requests change, and what a thread makes of it, and no handle. -/
structure RequestMoves (S : AheadSetup) (w w' : AheadWorld) (s k : Nat) : Prop where
  handles : w'.handles = w.handles
  owed : w'.owed = w.owed
  confirmed : w'.confirmed = w.confirmed
  made : w.made ≤ w'.made
  job : ∀ s', s' ≠ s → w'.job s' = w.job s'
  asks : ∀ k', k' ≠ k → (w.job s).askOf = some k' → (w'.job s).askOf = some k'
  quiet : (w.job s).candOf = none → (w'.job s).candOf = none ∧ w'.made = w.made
  dropping : ∀ h e, w.job s = .dropping h e → w'.job s = .dropping h e
  others : ∀ k', k' ≠ k → w'.wires k' = w.wires k'
  own : ∀ x, w.wires k = some x ∨ w'.wires k = some x → S.shard x.handle = s

/-- What the step of a request leaves to be shown. -/
theorem AheadOk.requested (h : AheadOk S w) (hm : RequestMoves S w w' s k)
    (hcounted : Total (fun k => (w'.wires k).elim 0 WireHandler.load) w'.inflight)
    (hnoted : ∀ e r, Total (fun k => (w'.wires k).elim 0 fun x =>
      if x.entry = e then x.announced.count r else 0) ((w'.noted e).count r))
    (hwire : ∀ x, w'.wires k = some x → AheadWireOk S w' k x ∧
      ∀ b, Staged (stagesOf x.elems) b → ∀ k' x', k' ≠ k → w.wires k' = some x' →
        x'.handle = x.handle → ¬ Staged (stagesOf x'.elems) b)
    (hjob : AheadJobOk S w' s (w'.job s)) : AheadOk S w' where
  counted := hcounted
  noted := hnoted
  quiet := by
    intro hno
    rw [hm.confirmed] at hno
    obtain ⟨hmade, hcand⟩ := h.quiet hno
    obtain ⟨hs, hsame⟩ := hm.quiet (hcand s)
    refine ⟨hsame.trans hmade, fun s' => ?_⟩
    by_cases hss : s' = s
    · subst hss
      exact hs
    · rw [hm.job s' hss]
      exact hcand s'
  wires := by
    intro k' x hx
    by_cases hk : k' = k
    · subst hk
      exact (hwire x hx).1
    · rw [hm.others k' hk] at hx
      refine (h.wires k' x hx).kept hm.made ?_
      by_cases hs : S.shard x.handle = s
      · rw [hs]
        exact hm.asks k' hk
      · rw [hm.job _ hs]
        exact id
  apart := by
    intro k₁ k₂ x₁ x₂ h1 h2 hne hhandle b hb
    by_cases hk : k₁ = k
    · subst hk
      rw [hm.others k₂ hne.symm] at h2
      exact (hwire x₁ h1).2 b hb k₂ x₂ hne.symm h2 hhandle.symm
    · rw [hm.others k₁ hk] at h1
      by_cases hk' : k₂ = k
      · subst hk'
        exact fun hb' => (hwire x₂ h2).2 b hb' k₁ x₁ hk h1 hhandle hb
      · rw [hm.others k₂ hk'] at h2
        exact h.apart k₁ k₂ x₁ x₂ h1 h2 hne hhandle b hb
  jobs := by
    intro s'
    by_cases hs : s' = s
    · subst hs
      exact hjob
    · rw [hm.job s' hs]
      refine (h.jobs s').kept fun h' hshard => ⟨congrFun hm.handles h', ?_, ?_⟩
      · rintro b ⟨k', x, hx, hown, hb⟩
        have hk : k' ≠ k := by
          rintro rfl
          exact hs (hshard.symm.trans ((congrArg S.shard hown).symm.trans (hm.own x (.inr hx))))
        exact ⟨k', x, hm.others k' hk ▸ hx, hown, hb⟩
      · intro k' x left hx hown hphase
        have hk : k' ≠ k := by
          rintro rfl
          exact hs (hshard.symm.trans ((congrArg S.shard hown).symm.trans (hm.own x (.inl hx))))
        exact ⟨x, left, (hm.others k' hk).trans hx, hown, hphase⟩
  handles := by
    intro h' p hp
    rw [hm.handles] at hp
    refine (h.handles h' p hp).kept ?_ (congrFun hm.owed h')
    intro e he
    by_cases hs : S.shard h' = s
    · rw [hs] at he ⊢
      exact hm.dropping h' e he
    · rw [hm.job _ hs]
      exact he
  unknown := by
    intro h' hnone g
    rw [hm.handles] at hnone
    rw [hm.owed]
    exact h.unknown h' hnone g

/-- In a request's step that leaves its elements as they were. -/
theorem AheadOk.alone (h : AheadOk S w) (hx : w.wires k = some x) {b : Nat}
    (hb : Staged (stagesOf x.elems) b) (k' : Nat) (x' : WireHandler) (hne : k' ≠ k)
    (hx' : w.wires k' = some x') (hhandle : x'.handle = x.handle) :
    ¬ Staged (stagesOf x'.elems) b :=
  h.apart k k' x x' hx hx' hne.symm hhandle.symm b hb

/-- No request has a number that is yet to be given. -/
theorem AheadOk.unmade (h : AheadOk S w) : w.wires w.made = none := by
  cases hx : w.wires w.made with
  | none => rfl
  | some x => exact absurd (h.wires _ x hx).made (Nat.lt_irrefl _)

theorem takeInner_keeps (h : AheadOk S w) {part : List Elem} {sent : Nat}
    (hpc : w.job s = .sending j cand (part :: parts) sent) :
    let x : WireHandler := ⟨j.handle, j.entry, part, [], .announcing (stagesOf part)⟩
    AheadOk S ({ w.setWire w.made (some x) with
      made := w.made + 1
      inflight := w.inflight + x.bytes }.setJob s (.asking j cand parts sent w.made)) := by
  intro x
  obtain ⟨hfill, hcand, hlack⟩ := h.stands hpc
  have hnone := h.unmade
  have hload : x.load = x.bytes := if_neg WirePhase.noConfusion
  have hsplit : stagesOf (part :: parts).flatten = stagesOf part ++ stagesOf parts.flatten := by
    rw [List.flatten_cons]
    exact List.flatMap_append
  have hlaid := hlack.laid
  rw [hsplit] at hlaid
  have hpart : ∀ b, Staged (stagesOf part) b → ¬ OwnFlight w j.handle b := by
    intro b hb
    apply hlack.new b
    rw [hsplit]
    exact staged_append.2 (.inl hb)
  set w' := ({ w.setWire w.made (some x) with
      made := w.made + 1
      inflight := w.inflight + x.bytes }.setJob s (.asking j cand parts sent w.made)) with hw'
  have hself : w'.wires w.made = some x := Function.update_self ..
  have hjobs : w'.job s = .asking j cand parts sent w.made := Function.update_self ..
  have hm : RequestMoves S w w' s w.made := by
    refine ⟨rfl, rfl, rfl, Nat.le_succ _, fun s' hs => Function.update_of_ne hs _ _, ?_, ?_, ?_,
      fun k hk => Function.update_of_ne hk _ _, ?_⟩
    · exact fun k hk hask => by rw [hpc] at hask; cases hask
    · exact fun hno => by rw [hpc] at hno; cases hno
    · exact fun h' e he => absurd (hpc.symm.trans he) AheadPc.noConfusion
    · rintro y (hy | hy)
      · rw [hnone] at hy
        cases hy
      · rw [hself, Option.some.injEq] at hy
        exact hy ▸ hfill.shard
  refine h.requested hm ?_ ?_ ?_ ?_
  · have htotal := total_setWire h.counted w.made (some x)
    rw [hnone, Option.elim_none, Option.elim_some, Nat.sub_zero, hload] at htotal
    exact htotal
  · intro e r
    have htotal := total_setWire (h.noted e r) w.made (some x)
    have hzero : (if x.entry = e then x.announced.count r else 0) = 0 := by
      split <;> rfl
    rw [hnone, Option.elim_none, Option.elim_some, Nat.sub_zero, hzero, Nat.add_zero] at htotal
    exact htotal
  · intro y hy
    rw [hself, Option.some.injEq] at hy
    subst hy
    refine ⟨⟨Nat.lt_succ_self _, hfill.entry, (Laid.split hlaid).1, ?_, ?_⟩, ?_⟩
    · intro r hr
      apply hlack.inside r
      rw [hsplit]
      exact List.mem_append_left _ hr
    · refine ⟨rfl, ?_⟩
      show (w'.job (S.shard j.handle)).askOf = _
      rw [hfill.shard, hjobs]
      rfl
    · exact fun b hb k' x' _ hx' hhandle hb' => hpart b hb ⟨k', x', hx', hhandle, hb'⟩
  · rw [hjobs]
    refine ⟨hfill.kept rfl, hcand.kept rfl, ⟨(Laid.split hlaid).2, ?_, ?_⟩, x, stagesOf part, hself,
      rfl, rfl⟩
    · intro r hr
      apply hlack.inside r
      rw [hsplit]
      exact List.mem_append_right _ hr
    · rintro b hb ⟨k', y, hy, hown, hb'⟩
      by_cases hk : k' = w.made
      · subst hk
        rw [hself, Option.some.injEq] at hy
        subst hy
        -- the parts of one prediction share no byte
        obtain ⟨q, hq, h1, h2⟩ := staged_iff.1 hb'
        obtain ⟨r, hr, h3, h4⟩ := staged_iff.1 hb
        have := (List.pairwise_append.1 hlaid.apart).2.2 q hq r hr
        omega
      · rw [hm.others k' hk] at hy
        apply hlack.new b _ ⟨k', y, hy, hown, hb'⟩
        rw [hsplit]
        exact staged_append.2 (.inr hb)

/-- The thread that announces a request, and the request. -/
theorem AheadOk.asking (h : AheadOk S w) {sent : Nat} (hpc : w.job s = .asking j cand parts sent k)
    (hx : w.wires k = some x) :
    AheadFillOk S w s j ∧ CandOk S w j cand ∧ Lacked S w j (stagesOf parts.flatten) ∧
      x.handle = j.handle ∧ x.entry = j.entry := by
  obtain ⟨hfill, hcand, hlack, y, left, hy, hhandle, -⟩ := h.stands hpc
  rw [hx, Option.some.injEq] at hy
  subst hy
  refine ⟨hfill, hcand, hlack, hhandle, ?_⟩
  rw [(h.wires k x hx).entry, hhandle, hfill.entry]

/-- The moves of a request that stays what it was. -/
theorem requestMoves_same {x' : WireHandler} (hx : w.wires k = some x)
    (hhandle : x'.handle = x.handle) (hshard : S.shard x.handle = s)
    {noted : Nat → List (Nat × Nat)} {inflight : Nat}
    (hasks : ∀ k', k' ≠ k → (w.job s).askOf = some k' → pc.askOf = some k')
    (hquiet : (w.job s).candOf = none → pc.candOf = none)
    (hdropping : ∀ h e, w.job s = .dropping h e → pc = .dropping h e) :
    RequestMoves S w ({ w.setWire k (some x') with noted := noted, inflight := inflight }.setJob s
      pc) s k := by
  have hjob : (({ w.setWire k (some x') with noted := noted, inflight := inflight }.setJob s
      pc).job s) = pc := Function.update_self ..
  refine ⟨rfl, rfl, rfl, le_refl _, fun s' hs => Function.update_of_ne hs _ _, ?_, ?_, ?_,
    fun k' hk => Function.update_of_ne hk _ _, ?_⟩
  · rw [hjob]
    exact hasks
  · rw [hjob]
    exact fun hno => ⟨hquiet hno, rfl⟩
  · rw [hjob]
    exact hdropping
  · rintro y (hy | hy)
    · rw [hx, Option.some.injEq] at hy
      exact hy ▸ hshard
    · have hself : y = x' := by
        rw [← Option.some.injEq, ← hy]
        exact Function.update_self ..
      rw [hself, hhandle, hshard]

theorem announce_keeps (h : AheadOk S w) {sent : Nat} (hpc : w.job s = .asking j cand parts sent k)
    (hx : w.wires k = some x) {r : Nat × Nat} {left : List (Nat × Nat)}
    (hphase : x.phase = .announcing (r :: left)) :
    AheadOk S { w.setWire k (some { x with
        announced := x.announced ++ [r]
        phase := .announcing left }) with
      noted := Function.update w.noted j.entry (w.noted j.entry ++ [r]) } := by
  obtain ⟨hfill, hcand, hlack, hhandle, hentry⟩ := h.asking hpc hx
  have hw := h.wires k x hx
  have hann := hw.announced
  unfold Announced at hann
  rw [hphase] at hann
  set x' : WireHandler := { x with announced := x.announced ++ [r], phase := .announcing left }
  have hshard : S.shard x.handle = s := by rw [hhandle, hfill.shard]
  have hm : RequestMoves S w ({ w.setWire k (some x') with
      noted := Function.update w.noted j.entry (w.noted j.entry ++ [r])
      inflight := w.inflight }.setJob s (w.job s)) s k :=
    requestMoves_same hx (show x'.handle = x.handle from rfl) hshard (fun _ _ => id) id
      fun _ _ => id
  have hsame : ({ w.setWire k (some x') with
      noted := Function.update w.noted j.entry (w.noted j.entry ++ [r])
      inflight := w.inflight }.setJob s (w.job s)) = { w.setWire k (some x') with
        noted := Function.update w.noted j.entry (w.noted j.entry ++ [r]) } := by
    unfold AheadWorld.setJob
    congr 1
    exact Function.update_eq_self ..
  rw [hsame] at hm
  have hload : x'.load = x.load := by
    have h1 : x'.load = x'.bytes := if_neg WirePhase.noConfusion
    have h2 : x.load = x.bytes := if_neg (by rw [hphase]; exact WirePhase.noConfusion)
    rw [h1, h2]
    rfl
  refine h.requested hm ?_ ?_ ?_ ?_
  · exact total_sameWire h.counted hx hload
  · intro e q
    have htotal := total_setWire (h.noted e q) k (some x')
    have hle := (h.noted e q).le k
    rw [hx, Option.elim_some] at hle
    rw [hx, Option.elim_some, Option.elim_some] at htotal
    have hcount : (w.noted e).count q - (if x.entry = e then x.announced.count q else 0) +
        (if x'.entry = e then x'.announced.count q else 0) =
          ((Function.update w.noted j.entry (w.noted j.entry ++ [r])) e).count q := by
      have hentry' : x'.entry = j.entry := hentry
      have hmore : x'.announced.count q = x.announced.count q + [r].count q := List.count_append
      by_cases he : e = j.entry
      · subst he
        rw [if_pos hentry] at hle ⊢
        rw [Function.update_self, if_pos hentry', hmore, List.count_append]
        omega
      · rw [Function.update_of_ne he, if_neg (hentry ▸ Ne.symm he), if_neg (hentry' ▸ Ne.symm he)]
        rfl
    rw [hcount] at htotal
    exact htotal
  · intro y hy
    have hself : y = x' := by
      rw [← Option.some.injEq, ← hy]
      exact Function.update_self ..
    subst hself
    refine ⟨⟨hw.made, hw.entry, hw.laid, hw.inside, ?_⟩, fun b hb => h.alone hx hb⟩
    refine ⟨?_, hann.2⟩
    rw [← hann.1, List.append_assoc]
    rfl
  · show AheadJobOk S _ s (w.job s)
    rw [hpc]
    refine ⟨hfill.kept rfl, hcand.kept rfl, hlack.kept ?_, x', left, Function.update_self ..,
      hhandle, rfl⟩
    have hsame : x'.handle = x.handle := rfl
    exact fun b => ownFlight_same hx (Function.update_self ..) hm.others hsame rfl

/-- A request whose ranges are announced moves on; its bytes stay counted, or are given back. -/
theorem AheadOk.phased (h : AheadOk S w) (hx : w.wires k = some x) (hshard : S.shard x.handle = s)
    {phase : WirePhase} {inflight : Nat}
    (hinflight : inflight = w.inflight - x.load + WireHandler.load { x with phase := phase })
    (hann : x.announced = stagesOf x.elems) (hphase : ∀ left, phase ≠ .announcing left)
    (hasks : ∀ k', k' ≠ k → (w.job s).askOf = some k' → pc.askOf = some k')
    (hquiet : (w.job s).candOf = none → pc.candOf = none)
    (hdropping : ∀ h e, w.job s = .dropping h e → pc = .dropping h e)
    (hjob : ∀ w', RequestMoves S w w' s k →
      (∀ h b, OwnFlight w' h b → OwnFlight w h b) → w'.job s = pc →
      w'.wires k = some { x with phase := phase } → AheadJobOk S w' s pc) :
    AheadOk S ({ w.setWire k (some { x with phase := phase }) with
      inflight := inflight }.setJob s pc) := by
  have hw := h.wires k x hx
  set x' : WireHandler := { x with phase := phase } with hx'
  set w' := ({ w.setWire k (some x') with inflight := inflight }.setJob s pc)
  have hself : w'.wires k = some x' := Function.update_self ..
  have hpc : w'.job s = pc := Function.update_self ..
  have hm : RequestMoves S w w' s k :=
    requestMoves_same hx (show x'.handle = x.handle from rfl) hshard hasks hquiet hdropping
  have hflight : ∀ h b, OwnFlight w' h b → OwnFlight w h b :=
    fun _ _ => ownFlight_same hx hself hm.others rfl rfl
  refine h.requested hm ?_ ?_ ?_ ?_
  · have htotal := total_setWire h.counted k (some x')
    rw [hx, Option.elim_some, Option.elim_some, ← hinflight] at htotal
    exact htotal
  · exact fun e q => total_sameWire (h.noted e q) hx rfl
  · intro y hy
    rw [hself, Option.some.injEq] at hy
    subst hy
    refine ⟨⟨hw.made, hw.entry, hw.laid, hw.inside, ?_⟩, fun b hb => h.alone hx hb⟩
    unfold Announced
    split
    · rename_i left heq
      exact absurd heq (hphase left)
    · exact hann
  · rw [hpc]
    exact hjob w' hm hflight hpc hself

theorem send_keeps (h : AheadOk S w) {sent : Nat} (hpc : w.job s = .asking j cand parts sent k)
    (hx : w.wires k = some x) (hphase : x.phase = .announcing []) :
    (∀ sent', AheadOk S ((w.setWire k (some { x with phase := .flying })).setJob s
      (.sending j cand parts sent'))) ∧
      AheadOk S ((w.setWire k (some { x with phase := .ending })).setJob s
        (.refused j cand sent k)) := by
  obtain ⟨hfill, hcand, hlack, hhandle, -⟩ := h.asking hpc hx
  have hann := (h.wires k x hx).announced
  unfold Announced at hann
  rw [hphase] at hann
  have htold : x.announced = stagesOf x.elems := by
    rw [← hann.1, List.append_nil]
  have hshard : S.shard x.handle = s := by rw [hhandle, hfill.shard]
  have hload : x.load = x.bytes := if_neg (by rw [hphase]; exact WirePhase.noConfusion)
  have hle := h.counted.le k
  rw [hx, Option.elim_some, hload] at hle
  have hasks : ∀ k', k' ≠ k → (w.job s).askOf = some k' → False := by
    intro k' hne hask
    rw [hpc] at hask
    exact hne (Option.some.inj hask).symm
  constructor
  · intro sent'
    show AheadOk S ({ w.setWire k (some { x with phase := .flying }) with
      inflight := w.inflight }.setJob s (.sending j cand parts sent'))
    refine h.phased hx hshard ?_ htold (fun _ => WirePhase.noConfusion)
      (fun k' hne hask => (hasks k' hne hask).elim) (fun hno => ?_) (fun h' e he => ?_) ?_
    · rw [hload]
      exact (Nat.sub_add_cancel hle).symm
    · rw [hpc] at hno
      cases hno
    · exact absurd (hpc.symm.trans he) AheadPc.noConfusion
    · exact fun w' hm hflight _ _ => ⟨hfill.kept (congrFun hm.handles _),
        hcand.kept (congrFun hm.handles _), hlack.kept (hflight _)⟩
  · show AheadOk S ({ w.setWire k (some { x with phase := .ending }) with
      inflight := w.inflight }.setJob s (.refused j cand sent k))
    refine h.phased hx hshard ?_ htold (fun _ => WirePhase.noConfusion)
      (fun k' hne hask => (hasks k' hne hask).elim) (fun hno => ?_) (fun h' e he => ?_) ?_
    · rw [hload]
      exact (Nat.sub_add_cancel hle).symm
    · rw [hpc] at hno
      cases hno
    · rw [hpc] at he
      cases he
    · intro w' hm _ _ _
      exact ⟨hfill.kept (congrFun hm.handles _), hcand.kept (congrFun hm.handles _)⟩

/-- A request that is no longer announced moves on by itself. -/
theorem AheadOk.flown (h : AheadOk S w) (hx : w.wires k = some x)
    (hold : ∀ left, x.phase ≠ .announcing left) {phase : WirePhase} {inflight : Nat}
    (hinflight : inflight = w.inflight - x.load + WireHandler.load { x with phase := phase })
    (hphase : ∀ left, phase ≠ .announcing left) :
    AheadOk S { w.setWire k (some { x with phase := phase }) with inflight := inflight } := by
  have hann := (h.wires k x hx).announced
  unfold Announced at hann
  have htold : x.announced = stagesOf x.elems := by
    split at hann
    · rename_i left heq
      exact absurd heq (hold left)
    · exact hann
  have hjob := h.jobs (S.shard x.handle)
  have hok : AheadOk S ({ w.setWire k (some { x with phase := phase }) with
      inflight := inflight }.setJob (S.shard x.handle) (w.job (S.shard x.handle))) := by
    refine h.phased hx rfl hinflight htold hphase (fun _ _ => id) id (fun _ _ => id) ?_
    intro w' hm hflight _ hself
    refine hjob.kept fun h' hshard => ⟨congrFun hm.handles h', hflight h', ?_⟩
    intro k' y left hy hown hann
    have hk : k' ≠ k := by
      rintro rfl
      obtain rfl : x = y := Option.some.inj (hx.symm.trans hy)
      exact hold left hann
    exact ⟨y, left, (hm.others k' hk).trans hy, hown, hann⟩
  · have hsame : ({ w.setWire k (some { x with phase := phase }) with
        inflight := inflight }.setJob (S.shard x.handle) (w.job (S.shard x.handle))) =
          { w.setWire k (some { x with phase := phase }) with inflight := inflight } := by
      unfold AheadWorld.setJob
      congr 1
      exact Function.update_eq_self ..
    rw [hsame] at hok
    exact hok

/-- Its bytes are on their way, or were, and are counted. -/
def WirePhase.aloft : WirePhase → Bool
  | .announcing _ => false
  | .counted => false
  | _ => true

/-- A request that is aloft stays so. -/
theorem AheadOk.flies (h : AheadOk S w) (hx : w.wires k = some x) {old phase : WirePhase}
    (hphase : x.phase = old) (hold : old.aloft = true) (hnew : phase.aloft = true) :
    AheadOk S (w.setWire k (some { x with phase := phase })) := by
  have hload : ∀ q, WirePhase.aloft q = true → WireHandler.load { x with phase := q } = x.bytes :=
    fun q hq => if_neg (by rintro rfl; cases hq)
  have hbytes : x.load = x.bytes := by
    rw [← hload old hold, ← hphase]
  have hle := h.counted.le k
  rw [hx, Option.elim_some, hbytes] at hle
  refine h.flown hx (fun left hno => ?_) ?_ fun left hno => ?_
  · rw [← hphase, hno] at hold
    cases hold
  · rw [hbytes, hload phase hnew, Nat.sub_add_cancel hle]
  · rw [hno] at hnew
    cases hnew

theorem withdraw_keeps (h : AheadOk S w) (hx : w.wires k = some x) (hphase : x.phase = .counted) :
    AheadOk S { w.setWire k none with
      noted := Function.update w.noted x.entry ((w.noted x.entry).diff (stagesOf x.elems)) } := by
  have hann := (h.wires k x hx).announced
  unfold Announced at hann
  rw [hphase] at hann
  have hload : x.load = 0 := if_pos hphase
  set w' := ({ w.setWire k none with
    noted := Function.update w.noted x.entry ((w.noted x.entry).diff (stagesOf x.elems)) })
  have hself : w'.wires k = none := Function.update_self ..
  have hm : RequestMoves S w w' (S.shard x.handle) k := by
    refine ⟨rfl, rfl, rfl, le_refl _, fun _ _ => rfl, fun _ _ => id, fun hno => ⟨hno, rfl⟩,
      fun _ _ => id, fun k' hk => Function.update_of_ne hk _ _, ?_⟩
    rintro y (hy | hy)
    · rw [hx, Option.some.injEq] at hy
      rw [hy]
    · rw [hself] at hy
      cases hy
  refine h.requested hm ?_ ?_ ?_ ?_
  · have htotal := total_setWire h.counted k none
    rw [hx, Option.elim_some, Option.elim_none, hload] at htotal
    exact htotal
  · intro e q
    have htotal := total_setWire (h.noted e q) k none
    rw [hx, Option.elim_some, Option.elim_none, Nat.add_zero] at htotal
    have hcount : (w.noted e).count q - (if x.entry = e then x.announced.count q else 0) =
        (w'.noted e).count q := by
      show _ = ((Function.update w.noted x.entry _) e).count q
      by_cases he : e = x.entry
      · subst he
        rw [Function.update_self, List.count_diff, if_pos rfl, hann]
      · rw [Function.update_of_ne he, if_neg (Ne.symm he)]
        rfl
    rw [hcount] at htotal
    exact htotal
  · intro y hy
    rw [hself] at hy
    cases hy
  · refine (h.jobs (S.shard x.handle)).kept fun h' hshard => ⟨rfl, ?_, ?_⟩
    · rintro b ⟨k', y, hy, hown, hb⟩
      by_cases hk : k' = k
      · subst hk
        rw [hself] at hy
        cases hy
      · rw [hm.others k' hk] at hy
        exact ⟨k', y, hy, hown, hb⟩
    · intro k' y left hy hown hleft
      have hk : k' ≠ k := by
        rintro rfl
        rw [hx, Option.some.injEq] at hy
        subst hy
        rw [hphase] at hleft
        cases hleft
      exact ⟨y, left, (hm.others k' hk).trans hy, hown, hleft⟩

/-! ### The end of a fill, and of a handle -/

theorem record_keeps (h : AheadOk S w) {sent : Nat} (hpc : w.job s = .recording j cand sent)
    (hp : w.handles j.handle = some p) :
    AheadOk S (w.setJob s .idle) ∧
      AheadOk S ({ (w.owe j.handle (cand.map Next.g)).setHandle j.handle
        { p with issued := recordIssued p.issued cand } with
          issued := w.issued + sent }.setJob s .idle) := by
  obtain ⟨hfill, hcand⟩ := h.stands hpc
  obtain ⟨hok, hopen⟩ := h.inHand hfill hp
  constructor
  · exact h.walked hpc hfill rfl rfl rfl rfl trivial
  · obtain ⟨honce, hmem⟩ := recordIssued_spec p.issued cand
    refine h.learned hfill (p := { p with issued := recordIssued p.issued cand }) hopen
      (threadMoves_learn hpc hfill rfl rfl rfl (fun hno => absurd rfl hno) _
        fun h' hne => Function.update_of_ne hne _ _)
      (fun _ => trivial) honce (hfill.entry ▸ hok.table) fun g => ?_
    rw [hmem, ← hok.owed]
    simp [AheadWorld.owe, AheadWorld.setHandle, AheadWorld.setJob]

theorem close_keeps (h : AheadOk S w) {hd : Nat} (hidle : w.job s = .idle) (hshard : S.shard hd = s)
    (hp : w.handles hd = some p) {hasEntry : Bool} (hlegal : hasEntry = true ∨ p.closed = true) :
    AheadOk S ((w.setHandle hd { p with closed := true }).setJob s (.dropping hd hasEntry)) := by
  have hok := h.handles hd p hp
  have hm : ThreadMoves S w ((w.setHandle hd { p with closed := true }).setJob s
      (.dropping hd hasEntry)) s hd { p with closed := true } (.dropping hd hasEntry) :=
    ⟨rfl, rfl, rfl, rfl, rfl, rfl, hshard, fun _ _ => rfl, id, by rw [hidle]; rfl, rfl,
      fun hno => absurd rfl hno, fun h' e he => absurd (hidle.symm.trans he) AheadPc.noConfusion⟩
  refine h.moved hm ⟨hshard, _, Function.update_self .., rfl, ?_⟩
    ⟨hok.once, hok.table, ?_, hok.owed⟩
  · refine hlegal.imp_right fun hclosed => ?_
    rcases hok.closed hclosed with ⟨e, he⟩ | ⟨hnone, -⟩
    · rw [hshard, hidle] at he
      cases he
    · exact hnone
  · intro _
    left
    refine ⟨hasEntry, ?_⟩
    rw [hshard]
    exact Function.update_self ..

theorem drop_keeps (h : AheadOk S w) {hd : Nat} {hasEntry : Bool}
    (hpc : w.job s = .dropping hd hasEntry) (hp : w.handles hd = some p) :
    AheadOk S (((if hasEntry then w.dropAll hd p.issued else w).setHandle hd { p with
      issued := []
      shadow := []
      frontier := []
      share := []
      table := none }).setJob s .idle) := by
  obtain ⟨hshard, q, hq, -, hrest⟩ := h.stands hpc
  rw [hp, Option.some.injEq] at hq
  subst hq
  have hok := h.handles hd p hp
  have howed : ∀ g, (if hasEntry then w.dropAll hd p.issued else w).owed hd g = true ↔
      g ∈ ([] : List Issued).map Issued.g := by
    intro g
    refine ⟨fun hyes => absurd hyes ?_, fun hno => absurd hno List.not_mem_nil⟩
    split
    · rw [dropAll_owed, hok.owed]
      exact fun hno => hno.2 hno.1
    · rename_i hwithout
      rw [hok.owed, hrest.resolve_left hwithout]
      exact List.not_mem_nil
  set p' : PrefetchHandle := { p with
      issued := []
      shadow := []
      frontier := []
      share := []
      table := none }
  have hm : ThreadMoves S w (((if hasEntry then w.dropAll hd p.issued else w).setHandle hd
      p').setJob s .idle) s hd p' .idle := by
    have hasked : (w.job s).askOf = none := by
      rw [hpc]
      rfl
    have hdropped : ∀ h' e, w.job s = .dropping h' e → h' = hd := by
      intro h' e he
      rw [hpc] at he
      cases he
      rfl
    cases hasEntry with
    | true => exact ⟨rfl, rfl, rfl, rfl, rfl, rfl, hshard, fun h' hne => dropAll_other hne _, id,
        hasked, rfl, fun hno => absurd rfl hno, hdropped⟩
    | false => exact ⟨rfl, rfl, rfl, rfl, rfl, rfl, hshard, fun _ _ => rfl, id, hasked, rfl,
        fun hno => absurd rfl hno, hdropped⟩
  exact h.moved hm trivial ⟨List.Pairwise.nil, fun t ht => (by cases ht),
    fun _ => .inr ⟨rfl, rfl⟩, howed⟩

theorem sweep_keeps (h : AheadOk S w) {hd : Nat} (hidle : w.job s = .idle) (hshard : S.shard hd = s)
    (hp : w.handles hd = some p) :
    AheadOk S { (w.dropAll hd p.issued).setHandle hd { p with issued := [], shadow := [] } with
      swept := Function.update w.swept hd true } := by
  have hok := h.handles hd p hp
  have hm : ThreadMoves S w { (w.dropAll hd p.issued).setHandle hd
      { p with issued := [], shadow := [] } with swept := Function.update w.swept hd true } s hd
        { p with issued := [], shadow := [] } .idle := by
    refine ⟨rfl, rfl, rfl, rfl, ?_, rfl, hshard, fun h' hne => dropAll_other hne _, id,
      by rw [hidle]; rfl, rfl, fun hno => absurd rfl hno,
      fun h' e he => absurd (hidle.symm.trans he) AheadPc.noConfusion⟩
    rw [← hidle, Function.update_eq_self]
    rfl
  refine h.moved hm trivial ⟨List.Pairwise.nil, hok.table, fun _ => .inr ⟨rfl, rfl⟩, fun g => ?_⟩
  have hnone : (w.dropAll hd p.issued).owed hd g ≠ true := by
    rw [Ne, dropAll_owed, hok.owed]
    exact fun hno => hno.2 hno.1
  exact ⟨fun hyes => absurd hyes hnone, fun hno => absurd hno List.not_mem_nil⟩

/-! ### Every step -/

variable {act : AheadAct}

theorem fillStep_keeps (h : AheadOk S w) (hlegal : AheadLegal S w act)
    (hstep : w.fillStep S act = some w') : AheadOk S w' := by
  cases act with
  | fill s j =>
      simp only [AheadWorld.fillStep] at hstep
      split at hstep
      · rename_i hfree
        obtain ⟨hidle, hshard, -⟩ := hfree
        split at hstep
        · cases hstep
          exact h
        · obtain ⟨hclosed, hopen⟩ := fill_keeps h hidle hshard hlegal rfl
          split at hstep
          · rename_i hyes
            cases hstep
            exact hclosed hyes
          · rename_i hno
            cases hstep
            exact hopen (Bool.eq_false_iff.2 hno)
      · cases hstep
  | parse s hasHeader parsed =>
      simp only [AheadWorld.fillStep] at hstep
      split at hstep
      · rename_i j hpc
        obtain ⟨p, hp, rfl⟩ := Option.map_eq_some_iff.1 hstep
        obtain ⟨hnone, hsome⟩ := parse_keeps h hpc hp (fun t ht => hlegal j t hpc ht) hasHeader
        split
        · rename_i htable
          exact hnone htable
        · rename_i t htable
          obtain ⟨hbarren, hfill⟩ := hsome t htable
          split
          · exact hbarren
          · exact hfill _ _ _ _
      · cases hstep
  | noteShare s =>
      simp only [AheadWorld.fillStep] at hstep
      split at hstep
      · rename_i j gs prev n left hpc
        cases hstep
        exact noteShare_keeps h hpc _
      · cases hstep
  | judge s =>
      simp only [AheadWorld.fillStep] at hstep
      split at hstep
      · rename_i j gs prev hpc
        obtain ⟨p, -, hstep⟩ := Option.bind_eq_some_iff.1 hstep
        obtain ⟨t, -, rfl⟩ := Option.map_eq_some_iff.1 hstep
        exact judge_keeps h hpc _
      · cases hstep
  | passOver s never =>
      simp only [AheadWorld.fillStep] at hstep
      split at hstep
      · rename_i j prev hpc
        obtain ⟨p, hp, hstep⟩ := Option.bind_eq_some_iff.1 hstep
        obtain ⟨t, ht, rfl⟩ := Option.map_eq_some_iff.1 hstep
        obtain ⟨hoff, hon⟩ := passOver_keeps h hpc hp ht
        split
        · exact hoff
        · exact hon
      · cases hstep
  | _ => cases hstep

theorem issueStep_keeps (hS : S.Valid) (h : AheadOk S w) (hstep : w.issueStep S act = some w') :
    AheadOk S w' := by
  cases act with
  | predict s shares staged =>
      simp only [AheadWorld.issueStep] at hstep
      split at hstep
      · rename_i j hpc
        obtain ⟨p, hp, hstep⟩ := Option.bind_eq_some_iff.1 hstep
        obtain ⟨t, ht, hstep⟩ := Option.bind_eq_some_iff.1 hstep
        split at hstep
        · cases hstep
          exact predict_keeps hS h hpc hp ht shares staged
        · cases hstep
      · cases hstep
  | scan s here =>
      simp only [AheadWorld.issueStep] at hstep
      split at hstep
      · rename_i j cand r runs absent hpc
        cases hstep
        exact scan_keeps hS h hpc here
      · cases hstep
  | cut s =>
      simp only [AheadWorld.issueStep] at hstep
      split at hstep
      · rename_i j cand absent hpc
        cases hstep
        exact cut_keeps hS h hpc
      · cases hstep
  | acquire s opened =>
      have hstop : ∀ {j cand parts sent}, w.job s = .sending j cand parts sent →
          AheadOk S (w.setJob s (.recording j cand sent)) := by
        intro j cand parts sent hpc
        obtain ⟨hfill, hcand, -⟩ := h.stands hpc
        exact h.walked hpc hfill rfl rfl rfl rfl ⟨hfill, hcand⟩
      simp only [AheadWorld.issueStep] at hstep
      split at hstep
      · rename_i j cand sent hpc
        cases hstep
        exact hstop hpc
      · rename_i j cand part parts sent hpc
        split at hstep
        · cases hstep
          exact takeInner_keeps h hpc
        · cases hstep
          exact hstop hpc
      · cases hstep
  | announce s =>
      simp only [AheadWorld.issueStep] at hstep
      split at hstep
      · rename_i j cand parts sent k hpc
        obtain ⟨x, hx, hstep⟩ := Option.bind_eq_some_iff.1 hstep
        split at hstep
        · rename_i r left hphase
          cases hstep
          exact announce_keeps h hpc hx hphase
        · cases hstep
      · cases hstep
  | send s taken =>
      simp only [AheadWorld.issueStep] at hstep
      split at hstep
      · rename_i j cand parts sent k hpc
        obtain ⟨x, hx, hstep⟩ := Option.bind_eq_some_iff.1 hstep
        split at hstep
        · rename_i hphase
          cases hstep
          obtain ⟨htaken, hrefused⟩ := send_keeps h hpc hx hphase
          split
          · exact htaken _
          · exact hrefused
        · cases hstep
      · cases hstep
  | giveUp s =>
      simp only [AheadWorld.issueStep] at hstep
      split at hstep
      · rename_i j cand sent k hpc
        split at hstep
        · cases hstep
          obtain ⟨hfill, hcand⟩ := h.stands hpc
          exact h.walked hpc hfill rfl rfl rfl rfl ⟨hfill, hcand⟩
        · cases hstep
      · cases hstep
  | record s =>
      simp only [AheadWorld.issueStep] at hstep
      split at hstep
      · rename_i j cand sent hpc
        obtain ⟨p, hp, rfl⟩ := Option.map_eq_some_iff.1 hstep
        obtain ⟨hnone, hsome⟩ := record_keeps h hpc hp
        split
        · exact hnone
        · exact hsome
      · cases hstep
  | _ => cases hstep

theorem wireStep_keeps (h : AheadOk S w) (hstep : w.wireStep act = some w') : AheadOk S w' := by
  cases act with
  | land k ok =>
      simp only [AheadWorld.wireStep] at hstep
      obtain ⟨x, hx, hstep⟩ := Option.bind_eq_some_iff.1 hstep
      split at hstep
      · rename_i hphase
        cases hstep
        cases ok <;> exact h.flies hx hphase rfl rfl
      · cases hstep
  | look k =>
      simp only [AheadWorld.wireStep] at hstep
      obtain ⟨x, hx, hstep⟩ := Option.bind_eq_some_iff.1 hstep
      split at hstep
      · rename_i r left hphase
        obtain ⟨p, -, rfl⟩ := Option.map_eq_some_iff.1 hstep
        split <;> exact h.flies hx hphase rfl rfl
      · rename_i hphase
        cases hstep
        exact h.flies hx hphase rfl rfl
      · cases hstep
  | stage k =>
      simp only [AheadWorld.wireStep] at hstep
      obtain ⟨x, hx, hstep⟩ := Option.bind_eq_some_iff.1 hstep
      split at hstep
      · rename_i r left hphase
        cases hstep
        exact h.flies hx hphase rfl rfl
      · cases hstep
  | uncount k =>
      simp only [AheadWorld.wireStep] at hstep
      obtain ⟨x, hx, hstep⟩ := Option.bind_eq_some_iff.1 hstep
      split at hstep
      · rename_i hphase
        cases hstep
        refine h.flown hx (by rw [hphase]; exact fun _ => WirePhase.noConfusion) ?_
          fun _ => WirePhase.noConfusion
        have hload : WireHandler.load { x with phase := .counted } = 0 := if_pos rfl
        have hload' : x.load = x.bytes := if_neg (by rw [hphase]; exact WirePhase.noConfusion)
        rw [hload, hload', Nat.add_zero]
      · cases hstep
  | withdraw k =>
      simp only [AheadWorld.wireStep] at hstep
      obtain ⟨x, hx, hstep⟩ := Option.bind_eq_some_iff.1 hstep
      split at hstep
      · rename_i hphase
        cases hstep
        exact withdraw_keeps h hx hphase
      · cases hstep
  | _ => cases hstep

theorem closeStep_keeps (h : AheadOk S w) (hlegal : AheadLegal S w act)
    (hstep : w.closeStep S act = some w') : AheadOk S w' := by
  cases act with
  | close s hd hasEntry =>
      simp only [AheadWorld.closeStep] at hstep
      split at hstep
      · rename_i hfree
        split at hstep
        · cases hstep
          exact h
        · rename_i p hp
          cases hstep
          exact close_keeps h hfree.1 hfree.2.1 hp (hlegal.imp_right fun hclosed => hclosed p hp)
      · cases hstep
  | drop s =>
      simp only [AheadWorld.closeStep] at hstep
      split at hstep
      · rename_i hd hasEntry hpc
        obtain ⟨p, hp, rfl⟩ := Option.map_eq_some_iff.1 hstep
        exact drop_keeps h hpc hp
      · cases hstep
  | sweep s hd =>
      simp only [AheadWorld.closeStep] at hstep
      split at hstep
      · rename_i hfree
        obtain ⟨p, hp, rfl⟩ := Option.map_eq_some_iff.1 hstep
        exact sweep_keeps h hfree.1 hfree.2 hp
      · cases hstep
  | _ => cases hstep

theorem aheadOk_step (hS : S.Valid) (h : AheadOk S w) (hlegal : AheadLegal S w act)
    (hstep : w.step S act = some w') : AheadOk S w' := by
  simp only [AheadWorld.step, Option.orElse_eq_some] at hstep
  rcases hstep with hfill | ⟨-, hissue | ⟨-, hwire | ⟨-, hclose⟩⟩⟩
  · exact fillStep_keeps h hlegal hfill
  · exact issueStep_keeps hS h hissue
  · exact wireStep_keeps h hwire
  · exact closeStep_keeps h hlegal hclose

theorem aheadOk_start : AheadOk S {} where
  counted := Total.zero
  noted := fun _ _ => Total.zero
  quiet := fun _ => ⟨rfl, fun _ => rfl⟩
  wires := fun _ _ hno => by cases hno
  apart := fun _ _ _ _ hno => by cases hno
  jobs := fun _ => trivial
  handles := fun _ _ hno => by cases hno
  unknown := fun _ _ _ => rfl

theorem AheadOk.safe (h : AheadOk S w) : AheadSafe S w where
  counted := h.counted
  noted := h.noted
  unconfirmed := by
    intro hno
    obtain ⟨hmade, -⟩ := h.quiet hno
    refine ⟨hmade, fun k => ?_⟩
    cases hx : w.wires k with
    | none => rfl
    | some x =>
        have hlt := (h.wires k x hx).made
        omega
  apart := h.apart
  owed := fun hd p hp => (h.handles hd p hp).owed
  once := fun hd p hp => (h.handles hd p hp).once
  closed := by
    intro hd p hp hclosed
    refine ⟨?_, (h.handles hd p hp).closed hclosed⟩
    intro s j hfill heq
    have hok : AheadFillOk S w s j := by
      have hjob := h.jobs s
      cases hpc : w.job s with
      | idle | dropping _ _ =>
          rw [hpc] at hfill
          cases hfill
      | looking j' =>
          rw [hpc] at hfill hjob
          cases hfill
          exact hjob
      | _ =>
          rw [hpc] at hfill hjob
          cases hfill
          exact hjob.1
    obtain ⟨q, hq, hopen⟩ := hok.here
    rw [heq, hp, Option.some.injEq] at hq
    subst hq
    rw [hclosed] at hopen
    cases hopen
  ahead := by
    intro s cand hcand
    have hconf : w.confirmed = true := h.confirmed rfl hcand
    have hjob := h.jobs s
    have hfound : ∃ j, (w.job s).fillOf = some j ∧ CandOk S w j cand := by
      cases hpc : w.job s with
      | scanning j' _ _ _ | sending j' _ _ _ | asking j' _ _ _ _ =>
          rw [hpc] at hcand hjob
          cases hcand
          exact ⟨j', rfl, hjob.2.1⟩
      | refused j' _ _ _ | recording j' _ _ =>
          rw [hpc] at hcand hjob
          cases hcand
          exact ⟨j', rfl, hjob.2⟩
      | _ =>
          rw [hpc] at hcand
          cases hcand
    obtain ⟨j, hfill, hok⟩ := hfound
    obtain ⟨p, t, hp, ht, hahead⟩ := hok.ahead
    exact ⟨hconf, hok.window, j, p, t, hfill, hp, ht, hahead⟩

/-- [SRC Prefetch.cc:261-923] Read-ahead in any run of its prediction threads, the completions of
its requests and the closes of handles: what is on its way is counted and announced until it is
given back, nothing is asked for before a prediction came true, no byte is on its way twice for a
handle, what was read ahead is remembered until it is dropped, and a handle that was closed is let
go. -/
theorem read_ahead_accounted (hS : S.Valid) {acts : List AheadAct}
    (hlegal : Along (AheadWorld.step S) (AheadLegal S) {} acts)
    (hrun : exec (AheadWorld.step S) {} acts = some w) : AheadSafe S w :=
  (exec_invariant_along (AheadOk S) (fun _ _ _ hs hcond hstep => aheadOk_step hS hs hcond hstep)
    aheadOk_start hlegal hrun).safe

/-! ### A reader that goes on where it left off -/

/-- One branch of three baskets, a page each. -/
def threeBaskets : BasketTable :=
  BasketTable.build { branches := [{ basketSeek := [4096, 8192, 12288],
                                     basketBytes := [4096, 4096, 4096],
                                     basketEntry := [0, 10, 20] }] } 20000

theorem threeBaskets_proper : threeBaskets.Proper 20000 := by
  have hover : ∀ g, ¬ g < 3 → threeBaskets.seekOf g = 0 ∧ threeBaskets.sizeOf g = 0 := by
    intro g hg
    have hseek : threeBaskets.seek.length = 3 := by decide
    have hsize : threeBaskets.size.length = 3 := by decide
    unfold BasketTable.seekOf BasketTable.sizeOf
    rw [List.getD_eq_default _ _ (by omega), List.getD_eq_default _ _ (by omega)]
    exact ⟨rfl, rfl⟩
  have heach : ∀ g, g < 3 → 0 ≤ threeBaskets.seekOf g ∧ 0 ≤ threeBaskets.sizeOf g ∧
      threeBaskets.sizeOf g < 2 ^ 31 ∧ threeBaskets.seekOf g < 20000 ∧
        threeBaskets.seekOf g + threeBaskets.sizeOf g ≤ 20000 := by
    decide
  constructor
  · intro b i hi
    have hb : b = 0 := by
      by_contra hne
      have hlen : threeBaskets.nb.length = 1 := by decide
      rw [List.getD_eq_default _ _ (by omega)] at hi
      omega
    subst hb
    have hall : ∀ i, i < 3 → threeBaskets.boff.getD 0 0 + i < 2 ^ 32 ∧
        threeBaskets.branchOf (threeBaskets.boff.getD 0 0 + i) = 0 ∧
          threeBaskets.indexOf (threeBaskets.boff.getD 0 0 + i) = i := by
      decide
    exact hall i hi
  · intro g
    by_cases hg : g < 3
    · obtain ⟨h1, h2, h3, -⟩ := heach g hg
      exact ⟨h1, h2, h3⟩
    · rw [(hover g hg).1, (hover g hg).2]
      decide
  · intro g
    by_cases hg : g < 3
    · exact (heach g hg).2.2.2
    · rw [(hover g hg).1, (hover g hg).2]
      decide

/-- One prediction thread, with the comparisons in whole numbers. -/
def oneThread : AheadSetup where
  prefetch := true
  buffered := true
  depth := 1
  window := 2 ^ 25
  ramCap := 2 ^ 30
  bridge := 0
  shard := fun _ => 0
  entryOf := fun _ => 0
  pageSize := fun _ => 4096
  fileSize := fun _ => 20000
  covers := fun hit fill => decide (9 * fill ≤ 10 * hit)
  wasteful := fun never issued => decide (issued < 4 * never)

theorem oneThread_valid : oneThread.Valid where
  page := by
    intro e
    show Config.validPageSize 4096 = true
    decide
  size := by
    intro e
    show 20000 < 2 ^ 63
    decide
  memory := by decide

/-- Three fills: the second brings the map, the third was predicted, and the last basket is asked
for.  It is on its way when the handle closes, and is let go when it comes back. -/
def threeFills : List AheadAct :=
  [.fill 0 ⟨0, 0, [(0, 512)]⟩, .parse 0 true none,
   .fill 0 ⟨0, 0, [(4096, 4096)]⟩, .parse 0 true (some threeBaskets), .noteShare 0, .judge 0,
   .passOver 0 0, .predict 0 (fun _ => 4096) 0,
   .fill 0 ⟨0, 0, [(8192, 4096)]⟩, .parse 0 true none, .noteShare 0, .judge 0, .passOver 0 0,
   .predict 0 (fun _ => 0) 0, .scan 0 (fun _ => false), .cut 0, .acquire 0 true, .announce 0,
   .send 0 true, .acquire 0 true, .record 0,
   .close 0 0 true, .land 0 true, .drop 0, .look 0, .look 0, .uncount 0]

def threeFillsCheck (_ : AheadWorld) : AheadAct → Bool
  | .fill _ j => decide (j.entry = 0)
  | .parse _ _ parsed => decide (parsed = none ∨ parsed = some threeBaskets)
  | .close _ _ hasEntry => hasEntry
  | _ => true

theorem threeFillsCheck_sound {a : AheadAct} (h : threeFillsCheck w a = true) :
    AheadLegal oneThread w a := by
  cases a with
  | fill s j =>
      simp only [threeFillsCheck, decide_eq_true_eq] at h
      exact h
  | parse s hasHeader parsed =>
      simp only [threeFillsCheck, decide_eq_true_eq] at h
      rintro j t - rfl
      rcases h with h | h
      · cases h
      · cases h
        exact threeBaskets_proper
  | close s hd hasEntry => exact .inl h
  | _ => exact trivial

/-- Three fills with one page to predict ahead. -/
theorem three_fills_accounted : ∃ w, exec (AheadWorld.step oneThread) {} threeFills = some w ∧
    AheadSafe oneThread w ∧ w.made = 1 ∧ w.inflight = 0 ∧ w.noted 0 = [(12288, 4096)] ∧
      w.issued = 4096 ∧ w.owed 0 2 = false ∧ (w.wires 0).map WireHandler.phase = some .counted := by
  have hends : (exec (AheadWorld.step oneThread) {} threeFills).any (fun w => decide (w.made = 1 ∧
      w.inflight = 0 ∧ w.noted 0 = [(12288, 4096)] ∧ w.issued = 4096 ∧ w.owed 0 2 = false ∧
        (w.wires 0).map WireHandler.phase = some .counted)) = true := by
    decide +kernel
  obtain ⟨w, hrun, hend⟩ := (Option.any_eq_true _ _).1 hends
  rw [decide_eq_true_eq] at hend
  have hlegal : Along (AheadWorld.step oneThread) (AheadLegal oneThread) {} threeFills :=
    along_of_check (fun _ => True) (fun _ => True) (fun _ _ _ _ _ _ => trivial)
      (fun _ _ _ _ => threeFillsCheck_sound) trivial (fun _ _ => trivial) (by decide +kernel)
  exact ⟨w, hrun, read_ahead_accounted oneThread_valid hlegal hrun, hend⟩

end UCache
