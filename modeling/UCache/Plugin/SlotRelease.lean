/-
Module: UCache.Plugin.SlotRelease
Purpose: What a commit of slot records gives back of the byte cache: the pages whose bytes the
  converted records stand for.  The commit runs beside stagings, forgettings and the commits of
  other processes.
Trusted boundary: none
Main exports: ReleaseCx, pageDeadLocked, commit_releases_redundant
-/
import UCache.Core.FileEntry
import UCache.Lib.Run
import UCache.Lib.Search
import UCache.Plugin.ColdFill
import UCache.Plugin.VectorReads

namespace UCache

open Lib

/-! ### What is given back -/

/-- [SRC ColdRun.cc:1682] The file's first 128 KiB is never punched. -/
def kKeepHead : Nat := 128 * 1024

/-- What a commit of a file's records works with: the layout, the byte cache's entry, and the slots
in the order of their original offsets, as the sort leaves them.  The run is of the entry's file. -/
structure ReleaseCx where
  rnt : Bool
  L : FillLayout
  keepOriginals : Bool
  m : MetaData
  order : List Nat
  size_eq : m.fileSize = L.originSize

namespace ReleaseCx

def slot (cx : ReleaseCx) (i : Nat) : FillSlot := cx.L.slots.getD i {}

/-- Where the original of a slot ends. -/
def origEnd (cx : ReleaseCx) (i : Nat) : Nat := (cx.slot i).origSeek + (cx.slot i).origLen

end ReleaseCx

/-- [SRC ColdRun.cc:1810-1819] Every byte from `covered` to `stop` is in a committed converted
basket, taken in order with no gap. -/
def coverFrom (cx : ReleaseCx) (cf : ColdFill) (stop : Nat) : List Nat → Nat → Bool
  | [], covered => decide (stop ≤ covered)
  | k :: rest, covered =>
      if stop ≤ covered then true
      -- bytes in no relocated basket: the file's own records
      else if covered < (cx.slot k).origSeek then false
      else
        match cf.info k with
        | none => false
        | some s =>
            -- not converted yet, or kept as stored: its original serves
            if !s.inStore || decide (s.kind = .original) then false
            else coverFrom cx cf stop rest (max covered (cx.origEnd k))

/-- [SRC ColdRun.cc:1793-1821] Is the page wholly inside baskets that are committed and
converted? -/
def pageDeadLocked (cx : ReleaseCx) (cf : ColdFill) (pg : Nat) : Bool :=
  let a := pg * cx.m.pageSize
  let b := min (a + cx.m.pageSize) cx.L.originSize
  if a < kKeepHead ∨ b ≤ a then false
  else
    coverFrom cx cf b (cx.order.drop (search (fun k => decide (cx.origEnd k ≤ a)) cx.order)) a

/-- [SRC ColdRun.cc:2032-2035] One entry just committed, and the range of its original when the byte
cache had it.  A kept basket's original is the only copy: never punched. -/
def notePunch (cx : ReleaseCx) (st : ColdFill × List (Nat × Nat)) (e : SlotEntry) :
    ColdFill × List (Nat × Nat) :=
  match st.1.info e.slot.toNat with
  | none => st
  | some s =>
      (st.1.noteEntry e,
        if s.fromCache && !cx.keepOriginals && decide (e.kind ≠ .kept) then
          st.2 ++ [((cx.slot e.slot.toNat).origSeek, cx.origEnd e.slot.toNat)]
        else st.2)

/-- [SRC ColdRun.cc:2053-2060] Baskets that touch are released as one range. -/
def mergePunch (punch : List (Nat × Nat)) : List (Nat × Nat) :=
  (punch.insertionSort fun a b => a.1 < b.1 ∨ a.1 = b.1 ∧ a.2 ≤ b.2).foldl addSpan []

/-- [SRC ColdRun.cc:2065-2070] A page that a range shares with baskets committed earlier goes too. -/
def widenRun (cx : ReleaseCx) (cf : ColdFill) (r : Nat × Nat) : Nat × Nat :=
  let ps := cx.m.pageSize
  (if r.1 % ps ≠ 0 ∧ pageDeadLocked cx cf (r.1 / ps) = true then r.1 - r.1 % ps else r.1,
    if r.2 % ps ≠ 0 ∧ r.2 < cx.L.originSize ∧ pageDeadLocked cx cf (r.2 / ps) = true then
      min (r.2 + (ps - r.2 % ps)) cx.L.originSize
    else r.2)

/-- [SRC ColdRun.cc:2072-2076] The ranges handed to the byte cache, as offset and length. -/
def punchRanges (runs : List (Nat × Nat)) : List (Nat × Nat) :=
  runs.filterMap fun r =>
    let a := max r.1 kKeepHead
    if a < r.2 then some (a, r.2 - a) else none

/-- [SRC FileEntry.cc:1222-1258] The pages that `releaseRanges` lets go. -/
def releasedPages (m : MetaData) (ranges : List (Nat × Nat)) : List Nat :=
  (ranges.filterMap (FileEntry.releaseSpan m)).flatMap fun span =>
    List.range' span.1 (span.2 - span.1)

/-! ### Commits beside everything else -/

/-- [SRC ColdRun.cc:1903-2086] Where the commit of this process stands.  One runs at a time. -/
inductive CommitPhase where
  | idle
  | collected (recs : List Collected)
  /-- under the store's lock, asking slot by slot which are taken -/
  | checking (todo write recs : List Collected)
  | landed (committed : List SlotEntry) (recs : List Collected)
  | noted (punch : List (Nat × Nat)) (forgotten : List SlotEntry)
  | merged (runs : List (Nat × Nat))
  | widened (ranges : List (Nat × Nat))

/-- A file's run, the entries that anyone has committed to its store so far, this process's commit,
and (a ghost) the pages that commits have released. -/
structure ReleaseWorld where
  cf : ColdFill := {}
  log : List SlotEntry := []
  commit : CommitPhase := .idle
  released : List Nat := []

inductive ReleaseAct where
  /-- another process commits -/
  | others (es : List SlotEntry)
  /-- `sync`: entries of the store that are new to this process -/
  | sync (es : List SlotEntry)
  | stage (i : Nat) (kind : BasketKind) (record : Bytes) (fromCache keepIt has : Bool)
  | forget (i : Nat)
  | keptOriginalGone (i : Nat) (has : Bool)
  | abandon (i : Nat)
  | claimOrWait (i request : Nat)
  | collect
  /-- no room, an error, or (`stale`) the store is gone -/
  | giveUp (stale : Bool)
  /-- the store is locked, and what others committed meanwhile applied -/
  | lock (es : List SlotEntry)
  | taken
  | write (storeId : UInt64) (base at_ : Nat)
  | note
  | applyForgotten
  | widen
  | release

namespace ReleaseWorld

/-- The records as the store takes them. -/
def records (write : List Collected) : List SlotRecord :=
  write.map fun r => { slot := UInt32.ofNat r.slot, kind := r.kind, bytes := r.bytes }

/-- The entries are among those of the store. -/
def knows (s : ReleaseWorld) (es : List SlotEntry) : Bool := es.all fun e => decide (e ∈ s.log)

/-- What a commit that will not happen leaves. -/
def gaveUp (s : ReleaseWorld) (stale : Bool) (recs : List Collected) : ReleaseWorld :=
  let cf := if stale then { s.cf with storeGone := true } else s.cf
  { s with cf := cf.releaseCollected recs, commit := .idle }

def step (cx : ReleaseCx) (s : ReleaseWorld) : ReleaseAct → Option ReleaseWorld
  | .others es => some { s with log := s.log ++ es }
  | .sync es =>
      if s.knows es then some { s with cf := (s.cf.apply cx.L.slots.length es).1 } else none
  | .stage i kind record fromCache keepIt has =>
      some { s with cf := (s.cf.stage cx.rnt i kind record fromCache keepIt has).1 }
  | .forget i => some { s with cf := s.cf.forget i }
  | .keptOriginalGone i has => some { s with cf := (s.cf.keptOriginalGone cx.rnt i has).1 }
  | .abandon i => some { s with cf := (s.cf.abandon i).1 }
  | .claimOrWait i request => some { s with cf := (s.cf.claimOrWait i request).1 }
  | .collect =>
      match s.commit with
      | .idle =>
          let c := s.cf.collect
          some { s with cf := c.1, commit := if c.2 = [] then .idle else .collected c.2 }
      | _ => none
  | .giveUp stale =>
      match s.commit with
      | .collected recs => some (s.gaveUp stale recs)
      | .checking _ _ recs => some (s.gaveUp stale recs)
      | _ => none
  | .lock es =>
      match s.commit with
      | .collected recs =>
          if s.knows es then
            some { s with
              cf := (s.cf.apply cx.L.slots.length es).1
              commit := .checking recs [] recs }
          else none
      | _ => none
  | .taken =>
      match s.commit with
      | .checking (r :: todo) write recs =>
          let inStore := ((s.cf.info r.slot).map SlotInfo.inStore).getD false
          some { s with commit := .checking todo (if inStore then write else write ++ [r]) recs }
      | _ => none
  | .write storeId base at_ =>
      match s.commit with
      | .checking [] write recs =>
          let committed := SlotStore.makeEntries storeId base at_ (records write)
          some { s with log := s.log ++ committed, commit := .landed committed recs }
      | _ => none
  | .note =>
      match s.commit with
      | .landed committed recs =>
          let noted := committed.foldl (notePunch cx) (s.cf, [])
          some { s with
            cf := recs.foldl ColdFill.noteSkipped noted.1
            commit := .noted noted.2
              (committed.filter fun e => (s.cf.info e.slot.toNat).isNone) }
      | _ => none
  | .applyForgotten =>
      match s.commit with
      | .noted punch forgotten =>
          some { s with
            cf := (s.cf.apply cx.L.slots.length forgotten).1
            commit := .merged (mergePunch punch) }
      | _ => none
  | .widen =>
      match s.commit with
      | .merged runs =>
          some { s with commit := .widened (punchRanges (runs.map (widenRun cx s.cf))) }
      | _ => none
  | .release =>
      match s.commit with
      | .widened ranges =>
          some { s with released := s.released ++ releasedPages cx.m ranges, commit := .idle }
      | _ => none

end ReleaseWorld

/-! ### What the file's run knows of the store -/

variable {cf : ColdFill}

namespace ColdFill

/-- A slot that counts as committed afterwards did so before, with the same kind. -/
def Keeps (cf cf' : ColdFill) : Prop :=
  ∀ i s', cf'.info i = some s' → s'.inStore = true →
    ∃ s, cf.info i = some s ∧ s.inStore = true ∧ s.kind = s'.kind

namespace Keeps

theorem of_info {cf' : ColdFill} (h : cf'.info = cf.info) : Keeps cf cf' := by
  intro i s' hi hs
  exact ⟨s', by rw [← h]; exact hi, hs, rfl⟩

theorem refl (cf : ColdFill) : Keeps cf cf := of_info rfl

theorem trans {a b c : ColdFill} (h : Keeps a b) (h' : Keeps b c) : Keeps a c := by
  intro i s' hi hs
  obtain ⟨s, hb, hsb, hk⟩ := h' i s' hi hs
  obtain ⟨s₀, ha, hsa, hk₀⟩ := h i s hb hsb
  exact ⟨s₀, ha, hsa, hk₀.trans hk⟩

/-- One slot's record is replaced by one that is not committed, or is as committed as before. -/
theorem update {cf' : ColdFill} {i : Nat} {t : Option SlotInfo}
    (h : cf'.info = Function.update cf.info i t) (ht : ∀ s', t = some s' → s'.inStore = true →
      ∃ s, cf.info i = some s ∧ s.inStore = true ∧ s.kind = s'.kind) : Keeps cf cf' := by
  intro j s' hj hs
  rw [h] at hj
  by_cases hji : j = i
  · subst hji
    rw [Function.update_self] at hj
    exact ht s' hj hs
  · rw [Function.update_of_ne hji] at hj
    exact ⟨s', hj, hs, rfl⟩

/-- One slot's record is replaced by one that is not committed. -/
theorem fresh {cf' : ColdFill} {i : Nat} {t : SlotInfo}
    (h : cf'.info = Function.update cf.info i (some t)) (ht : t.inStore = false) :
    Keeps cf cf' := by
  apply update h
  intro s' hs' hin
  cases hs'
  rw [ht] at hin
  cases hin

theorem foldl {α : Type} {f : ColdFill → α → ColdFill} (hf : ∀ cf x, Keeps cf (f cf x))
    (l : List α) (cf : ColdFill) : Keeps cf (l.foldl f cf) := by
  induction l generalizing cf with
  | nil => exact refl cf
  | cons x rest ih => exact (hf cf x).trans (ih (f cf x))

end Keeps

@[simp] theorem releaseMem_inStore (cf : ColdFill) (s : SlotInfo) :
    (cf.releaseMem s).2.inStore = s.inStore := rfl

@[simp] theorem releaseMem_kind (cf : ColdFill) (s : SlotInfo) :
    (cf.releaseMem s).2.kind = s.kind := rfl

theorem forget_keeps (cf : ColdFill) (i : Nat) : Keeps cf (cf.forget i) := by
  have hsame : (if cf.state i = .ready then
      { cf with state := Function.update cf.state i .absent } else cf).info = cf.info := by
    split <;> rfl
  unfold forget
  simp only
  split
  · exact .of_info hsame
  · apply Keeps.update (i := i) (t := none)
    · simp only [releaseMem_info, hsame]
    · simp

theorem keptOriginalGone_keeps (cf : ColdFill) (rnt : Bool) (i : Nat) (has : Bool) :
    Keeps cf (cf.keptOriginalGone rnt i has).1 := by
  unfold keptOriginalGone
  split
  · exact .refl cf
  · split
    · exact .refl cf
    · split
      · exact .refl cf
      · exact forget_keeps cf i

theorem abandon_keeps (cf : ColdFill) (i : Nat) : Keeps cf (cf.abandon i).1 := by
  refine .of_info ?_
  unfold abandon takeWaiters
  simp only
  split <;> rfl

theorem claimOrWait_keeps (cf : ColdFill) (i request : Nat) :
    Keeps cf (cf.claimOrWait i request).1 := by
  refine .of_info ?_
  unfold claimOrWait
  split <;> rfl

theorem dropTransient_keeps (i b : Nat) (l : List Nat) (cf : ColdFill) :
    Keeps cf (dropTransient i b l cf) := by
  induction l generalizing cf with
  | nil => exact .of_info rfl
  | cons j rest ih =>
      unfold dropTransient
      split
      · refine Keeps.trans ?_ (ih _)
        split
        · exact .refl cf
        · split
          · split
            · exact forget_keeps cf j
            · exact .refl cf
          · exact .refl cf
      · exact .of_info rfl

theorem stageRecord_keeps (cf : ColdFill) (rnt : Bool) (i : Nat) (kind : BasketKind)
    (record : Bytes) (fromCache keepIt has : Bool) :
    Keeps cf (cf.stageRecord rnt i kind record fromCache keepIt has).1 := by
  unfold stageRecord
  simp only
  split
  · rename_i hstore
    -- committed by someone meanwhile: theirs serves
    apply Keeps.update (i := i) (t := some ((cf.info i).getD {})) rfl
    intro s' hs' _
    cases hs'
    cases hi : cf.info i with
    | none => simp [hi] at hstore
    | some s => exact ⟨s, rfl, by simpa [hi] using hstore, rfl⟩
  · rename_i hstore
    have hnot : ((cf.info i).getD {}).inStore = false := by simpa using hstore
    split
    · exact .of_info rfl
    · generalize (!rnt && decide (kind = .original) && has) = inCache
      cases inCache with
      | true =>
          simp only [if_true]
          split
          · exact .fresh (i := i) rfl hnot
          · exact .fresh (i := i) rfl hnot
      | false =>
          simp only [Bool.false_eq_true, if_false]
          split
          · exact .fresh (i := i) rfl hnot
          · -- older records make room, then the new one is held if it fits
            have hstaged : ∀ cf₁ : ColdFill, cf₁.info = cf.info → ∀ t : SlotInfo,
                t.inStore = false → Keeps cf (dropTransient i record.length cf₁.transient
                  { cf₁ with info := Function.update cf₁.info i (some t) }) := by
              intro cf₁ hcf₁ t ht
              refine Keeps.trans ?_ (dropTransient_keeps _ _ _ _)
              exact .fresh (i := i) (by rw [hcf₁]) ht
            split
            · refine Keeps.trans ?_ (Keeps.fresh (i := i) rfl hnot)
              refine hstaged (cf.releaseMem ((cf.info i).getD {})).1 rfl _ ?_
              exact hnot
            · refine hstaged (cf.releaseMem ((cf.info i).getD {})).1 rfl _ ?_
              exact hnot

theorem stage_keeps (cf : ColdFill) (rnt : Bool) (i : Nat) (kind : BasketKind) (record : Bytes)
    (fromCache keepIt has : Bool) :
    Keeps cf (cf.stage rnt i kind record fromCache keepIt has).1 := by
  have h := stageRecord_keeps cf rnt i kind record fromCache keepIt has
  unfold stage
  simp only
  split
  · exact h.trans (.of_info rfl)
  · exact h.trans (.update (t := none) rfl (by simp))

/-- A slot whose record in memory goes, committed or not as before. -/
theorem keeps_of_releaseMem {cf' : ColdFill} {i : Nat} {s t : SlotInfo} (hi : cf.info i = some s)
    (h : cf'.info = Function.update cf.info i (some t)) (hin : t.inStore = s.inStore)
    (hkind : t.kind = s.kind) : Keeps cf cf' := by
  apply Keeps.update h
  intro s' hs' hstore
  cases hs'
  exact ⟨s, hi, hin ▸ hstore, hkind.symm⟩

theorem collectPending_keeps (st : ColdFill × List Collected) (i : Nat) :
    Keeps st.1 (collectPending st i).1 := by
  unfold collectPending
  simp only
  cases hi : st.1.info i with
  | none => exact .refl st.1
  | some s =>
      simp only
      split
      · exact keeps_of_releaseMem (i := i) hi rfl rfl rfl
      · split
        · exact .refl st.1
        · exact keeps_of_releaseMem (i := i) hi rfl rfl rfl

theorem collectTransient_keeps (st : ColdFill × List Collected) (j : Nat) :
    Keeps st.1 (collectTransient st j).1 := by
  unfold collectTransient
  simp only
  cases hj : st.1.info j with
  | none => exact .refl st.1
  | some s =>
      simp only
      split
      · exact .refl st.1
      · exact keeps_of_releaseMem (i := j) hj rfl rfl rfl

theorem foldl_fst_keeps {α β : Type} {f : ColdFill × β → α → ColdFill × β}
    (hf : ∀ st x, Keeps st.1 (f st x).1) (l : List α) (st : ColdFill × β) :
    Keeps st.1 (l.foldl f st).1 := by
  induction l generalizing st with
  | nil => exact .refl st.1
  | cons x rest ih => exact (hf st x).trans (ih (f st x))

theorem collect_keeps (cf : ColdFill) : Keeps cf cf.collect.1 := by
  have hpending := foldl_fst_keeps collectPending_keeps cf.pending (cf, [])
  unfold collect
  simp only
  split
  · exact hpending.trans (.of_info rfl)
  · refine Keeps.trans ?_ (.of_info rfl)
    refine Keeps.trans ?_ (foldl_fst_keeps collectTransient_keeps _ _)
    exact hpending.trans (.of_info rfl)

theorem releaseCollected_keeps (cf : ColdFill) (recs : List Collected) :
    Keeps cf (cf.releaseCollected recs) := by
  apply Keeps.foldl
  intro cf r
  split
  · split
    · exact forget_keeps cf r.slot
    · exact .refl cf
  · exact .refl cf

theorem noteSkipped_keeps (cf : ColdFill) (r : Collected) : Keeps cf (cf.noteSkipped r) := by
  unfold noteSkipped
  cases hi : cf.info r.slot with
  | none => exact .refl cf
  | some s =>
      simp only
      split
      · exact keeps_of_releaseMem (i := r.slot) hi rfl rfl rfl
      · exact .refl cf

/-- Every slot that counts as committed has an entry of its kind in the store. -/
def Backed (log : List SlotEntry) (cf : ColdFill) : Prop :=
  ∀ i s, cf.info i = some s → s.inStore = true →
    ∃ e ∈ log, e.slot.toNat = i ∧ basketKind e.kind = s.kind

namespace Backed

variable {log : List SlotEntry} {cf cf' : ColdFill}

theorem keep (h : Backed log cf) (hk : Keeps cf cf') : Backed log cf' := by
  intro i s' hi hs
  obtain ⟨s, hs₀, hin, hkind⟩ := hk i s' hi hs
  obtain ⟨e, he, hslot, hek⟩ := h i s hs₀ hin
  exact ⟨e, he, hslot, hek.trans hkind⟩

theorem append (h : Backed log cf) (es : List SlotEntry) : Backed (log ++ es) cf := by
  intro i s hi hs
  obtain ⟨e, he, hrest⟩ := h i s hi hs
  exact ⟨e, by simp [he], hrest⟩

/-- An entry of the store is taken over. -/
theorem entry (h : Backed log cf) {e : SlotEntry} (he : e ∈ log) {t : SlotInfo}
    (hinfo : cf'.info = Function.update cf.info e.slot.toNat (some t))
    (hkind : t.kind = basketKind e.kind) : Backed log cf' := by
  intro i s hi hs
  rw [hinfo] at hi
  by_cases hslot : i = e.slot.toNat
  · subst hslot
    rw [Function.update_self] at hi
    cases hi
    exact ⟨e, he, rfl, hkind.symm⟩
  · rw [Function.update_of_ne hslot] at hi
    exact h i s hi hs

theorem applyOne (h : Backed log cf) (n : Nat) (wakes : List Wake) {e : SlotEntry} (he : e ∈ log) :
    Backed log (ColdFill.applyOne n (cf, wakes) e).1 := by
  unfold ColdFill.applyOne
  simp only
  split
  · exact h
  · split
    · exact h.entry he rfl rfl
    · exact h.entry he rfl rfl

theorem apply (h : Backed log cf) (n : Nat) {es : List SlotEntry} (hes : ∀ e ∈ es, e ∈ log) :
    Backed log (cf.apply n es).1 := by
  unfold ColdFill.apply
  generalize ([] : List Wake) = wakes
  induction es generalizing cf wakes with
  | nil => exact h
  | cons e rest ih =>
      exact ih (h.applyOne n wakes (hes e (by simp))) (fun x hx => hes x (by simp [hx])) _

theorem noteEntry (h : Backed log cf) {e : SlotEntry} (he : e ∈ log) :
    Backed log (cf.noteEntry e) := by
  unfold ColdFill.noteEntry
  simp only
  split
  · exact h
  · exact h.entry he rfl rfl

end Backed

end ColdFill

/-! ### Bytes that the store stands for -/

/-- The byte is in the original of a slot that was committed as converted. -/
def Redundant (cx : ReleaseCx) (log : List SlotEntry) (b : Nat) : Prop :=
  ∃ e ∈ log, e.kind ≠ .kept ∧ (cx.slot e.slot.toNat).origSeek ≤ b ∧ b < cx.origEnd e.slot.toNat

/-- All of the range that is in the file is redundant. -/
def DeadRange (cx : ReleaseCx) (log : List SlotEntry) (a b : Nat) : Prop :=
  ∀ x, a ≤ x → x < b → x < cx.L.originSize → Redundant cx log x

section Dead

variable {cx : ReleaseCx} {log : List SlotEntry} {cf : ColdFill}

theorem Redundant.append {b : Nat} (h : Redundant cx log b) (es : List SlotEntry) :
    Redundant cx (log ++ es) b := by
  obtain ⟨e, he, hrest⟩ := h
  exact ⟨e, by simp [he], hrest⟩

theorem coverFrom_sound (hcf : cf.Backed log) {stop : Nat} {order : List Nat} {covered : Nat}
    (h : coverFrom cx cf stop order covered = true) :
    ∀ x, covered ≤ x → x < stop → Redundant cx log x := by
  induction order generalizing covered with
  | nil =>
      have := of_decide_eq_true h
      intro x h1 h2
      omega
  | cons k rest ih =>
      intro x h1 h2
      unfold coverFrom at h
      rw [if_neg (by omega)] at h
      split at h
      · cases h
      · rename_i hseek
        cases hk : cf.info k with
        | none => simp [hk] at h
        | some s =>
            simp only [hk] at h
            split at h
            · cases h
            · rename_i hs
              simp only [Bool.or_eq_true, Bool.not_eq_true', decide_eq_true_eq, not_or,
                Bool.not_eq_false] at hs
              -- a byte before the end of this basket is in it; the others are for the rest
              by_cases hend : x < cx.origEnd k
              · obtain ⟨e, he, hslot, hkind⟩ := hcf k s hk hs.1
                refine ⟨e, he, ?_, by rw [hslot]; omega, by rw [hslot]; exact hend⟩
                intro hkept
                rw [hkept] at hkind
                exact hs.2 hkind.symm
              · exact ih h x (by omega) h2

theorem pageDeadLocked_sound (hcf : cf.Backed log) {pg : Nat}
    (h : pageDeadLocked cx cf pg = true) : 0 < cx.m.pageSize ∧
      DeadRange cx log (pg * cx.m.pageSize) (pg * cx.m.pageSize + cx.m.pageSize) := by
  unfold pageDeadLocked at h
  simp only at h
  split at h
  · cases h
  · rename_i hsome
    refine ⟨by omega, fun x h1 h2 h3 => ?_⟩
    exact coverFrom_sound hcf h x h1 (by omega)

theorem widenRun_sound (hcf : cf.Backed log) {r : Nat × Nat} (h : DeadRange cx log r.1 r.2) :
    DeadRange cx log (widenRun cx cf r).1 (widenRun cx cf r).2 := by
  intro x h1 h2 h3
  unfold widenRun at h1 h2
  simp only at h1 h2
  by_cases hleft : x < r.1
  · -- in front of the range: its first page is dead
    have hpage := Nat.div_add_mod' r.1 cx.m.pageSize
    split at h1
    · rename_i hdead
      obtain ⟨hpos, hdead⟩ := pageDeadLocked_sound hcf hdead.2
      have hmod := Nat.mod_lt r.1 hpos
      exact hdead x (by omega) (by omega) h3
    · omega
  · by_cases hright : r.2 ≤ x
    · have hpage := Nat.div_add_mod' r.2 cx.m.pageSize
      split at h2
      · rename_i hdead
        exact (pageDeadLocked_sound hcf hdead.2.2).2 x (by omega) (by omega) h3
      · omega
    · exact h x (by omega) (by omega) h3

/-- Ranges that are dead stay dead as one. -/
theorem mergePunch_sound {punch : List (Nat × Nat)} (hproper : ∀ p ∈ punch, p.1 ≤ p.2)
    (h : ∀ p ∈ punch, DeadRange cx log p.1 p.2) :
    ∀ r ∈ mergePunch punch, DeadRange cx log r.1 r.2 := by
  obtain ⟨hperm, hsorted⟩ := sorted_spans punch
  obtain ⟨-, hwithin⟩ := foldl_addSpan ⟨by simp, .nil⟩
    (fun p hp => hproper p (hperm.mem_iff.1 hp)) hsorted (by simp)
  intro r hr x h1 h2 h3
  obtain hfalse | ⟨p, hp, hin⟩ := (hwithin x).1 ⟨r, hr, h1, h2⟩
  · exact absurd hfalse (within_nil x)
  · exact h p (hperm.mem_iff.1 hp) x hin.1 hin.2 h3

/-- A page let go is wholly inside one of the ranges, and behind the head. -/
theorem releasedPages_sound {runs : List (Nat × Nat)} (h : ∀ r ∈ runs, DeadRange cx log r.1 r.2)
    {pg : Nat} (hpg : pg ∈ releasedPages cx.m (punchRanges runs)) :
    kKeepHead ≤ pg * cx.m.pageSize ∧
      ∀ x, pg * cx.m.pageSize ≤ x → x < pg * cx.m.pageSize + cx.m.pageSize → Redundant cx log x := by
  obtain ⟨span, hspan, hpg⟩ := List.mem_flatMap.1 hpg
  obtain ⟨range, hrange, hspan⟩ := List.mem_filterMap.1 hspan
  obtain ⟨r, hr, hrange⟩ := List.mem_filterMap.1 hrange
  simp only at hrange
  split at hrange
  · rename_i hlt
    cases hrange
    unfold FileEntry.releaseSpan at hspan
    simp only at hspan
    split at hspan
    · cases hspan
    · rename_i hfits
      cases hspan
      rw [List.mem_range'_1] at hpg
      simp only at hpg
      generalize hps : cx.m.pageSize = ps at *
      simp only [not_or, not_le, not_lt] at hfits
      have hpos : 0 < ps := by
        apply Nat.pos_of_ne_zero
        rintro rfl
        simp at hfits
      have hfirst : max r.1 kKeepHead ≤ pg * ps := by
        have hdiv := @Nat.lt_div_mul_add (max r.1 kKeepHead + ps - 1) ps hpos
        have hmul := Nat.mul_le_mul_right ps hpg.1
        omega
      have hlast : pg * ps + ps ≤ r.2 := by
        have hle : pg + 1 ≤ (max r.1 kKeepHead + (r.2 - max r.1 kKeepHead)) / ps := by
          generalize (max r.1 kKeepHead + (r.2 - max r.1 kKeepHead)) / ps = stop at hpg hfits ⊢
          omega
        have hmul := Nat.mul_le_mul_right ps hle
        have hdiv := Nat.div_mul_le_self (max r.1 kKeepHead + (r.2 - max r.1 kKeepHead)) ps
        rw [Nat.add_mul] at hmul
        omega
      have hin := hfits.2.1
      rw [cx.size_eq] at hin
      refine ⟨by omega, fun x h1 h2 => h r hr x (by omega) (by omega) (by omega)⟩
  · cases hrange

/-- The ranges noted for entries of the store are dead. -/
theorem foldl_notePunch {committed : List SlotEntry} (hin : ∀ e ∈ committed, e ∈ log)
    {st : ColdFill × List (Nat × Nat)} (hcf : st.1.Backed log)
    (hpunch : ∀ p ∈ st.2, p.1 ≤ p.2 ∧ DeadRange cx log p.1 p.2) :
    (committed.foldl (notePunch cx) st).1.Backed log ∧
      ∀ p ∈ (committed.foldl (notePunch cx) st).2, p.1 ≤ p.2 ∧ DeadRange cx log p.1 p.2 := by
  induction committed generalizing st with
  | nil => exact ⟨hcf, hpunch⟩
  | cons e rest ih =>
      have he := hin e (by simp)
      apply ih fun x hx => hin x (by simp [hx])
      · unfold notePunch
        split
        · exact hcf
        · exact hcf.noteEntry he
      · unfold notePunch
        split
        · exact hpunch
        · simp only
          split
          · rename_i s hs hcond
            intro p hp
            rcases List.mem_append.1 hp with hp | hp
            · exact hpunch p hp
            · obtain rfl : p = ((cx.slot e.slot.toNat).origSeek, cx.origEnd e.slot.toNat) := by
                simpa using hp
              have hkind : e.kind ≠ .kept := by
                simp only [Bool.and_eq_true, decide_eq_true_eq] at hcond
                exact hcond.2
              exact ⟨Nat.le_add_right _ _, fun x h1 h2 _ => ⟨e, he, hkind, h1, h2⟩⟩
          · exact hpunch

theorem foldl_notePunch_fst (committed : List SlotEntry) (st : ColdFill × List (Nat × Nat)) :
    (committed.foldl (notePunch cx) st).1 = committed.foldl ColdFill.noteEntry st.1 := by
  induction committed generalizing st with
  | nil => rfl
  | cons e rest ih =>
      rw [List.foldl_cons, List.foldl_cons, ih]
      congr 1
      unfold notePunch
      split
      · rename_i hnone
        simp [ColdFill.noteEntry, hnone]
      · rfl

/-- Noting the ranges beside the entries leaves the run as the commit does. -/
theorem notePunch_noteCommitted (cf : ColdFill) (committed : List SlotEntry)
    (recs : List Collected) :
    recs.foldl ColdFill.noteSkipped (committed.foldl (notePunch cx) (cf, [])).1 =
      (cf.noteCommitted committed recs).1 := by
  rw [foldl_notePunch_fst]
  rfl

end Dead

/-! ### Runs -/

namespace ReleaseWorld

/-- What the commit has established where it stands. -/
def PhaseOk (cx : ReleaseCx) (log : List SlotEntry) : CommitPhase → Prop
  | .landed committed _ => ∀ e ∈ committed, e ∈ log
  | .noted punch forgotten =>
      (∀ e ∈ forgotten, e ∈ log) ∧ ∀ p ∈ punch, p.1 ≤ p.2 ∧ DeadRange cx log p.1 p.2
  | .merged runs => ∀ r ∈ runs, DeadRange cx log r.1 r.2
  | .widened ranges =>
      ∃ runs, ranges = punchRanges runs ∧ ∀ r ∈ runs, DeadRange cx log r.1 r.2
  | _ => True

structure Inv (cx : ReleaseCx) (s : ReleaseWorld) : Prop where
  backed : s.cf.Backed s.log
  phase : PhaseOk cx s.log s.commit
  released : ∀ pg ∈ s.released, kKeepHead ≤ pg * cx.m.pageSize ∧
    ∀ x, pg * cx.m.pageSize ≤ x → x < pg * cx.m.pageSize + cx.m.pageSize → Redundant cx s.log x

theorem DeadRange.append {cx : ReleaseCx} {log : List SlotEntry} {a b : Nat}
    (h : DeadRange cx log a b) (es : List SlotEntry) : DeadRange cx (log ++ es) a b :=
  fun x h1 h2 h3 => (h x h1 h2 h3).append es

theorem PhaseOk.append {cx : ReleaseCx} {log : List SlotEntry} {p : CommitPhase}
    (h : PhaseOk cx log p) (es : List SlotEntry) : PhaseOk cx (log ++ es) p := by
  cases p with
  | landed committed recs => exact fun e he => List.mem_append_left _ (h e he)
  | noted punch forgotten =>
      refine ⟨fun e he => List.mem_append_left _ (h.1 e he), fun p hp => ?_⟩
      exact ⟨(h.2 p hp).1, DeadRange.append (h.2 p hp).2 es⟩
  | merged runs => exact fun r hr => DeadRange.append (h r hr) es
  | widened ranges =>
      obtain ⟨runs, heq, hruns⟩ := h
      exact ⟨runs, heq, fun r hr => DeadRange.append (hruns r hr) es⟩
  | idle => trivial
  | collected recs => trivial
  | checking todo write recs => trivial

namespace Inv

variable {cx : ReleaseCx} {s : ReleaseWorld}

/-- The run changes, and what it knows of the store is still true. -/
theorem fill (h : Inv cx s) (hcf : cf.Backed s.log) : Inv cx { s with cf := cf } :=
  ⟨hcf, h.phase, h.released⟩

/-- The commit goes on. -/
theorem goes (h : Inv cx s) {cf : ColdFill} {p : CommitPhase} (hcf : cf.Backed s.log)
    (hp : PhaseOk cx s.log p) : Inv cx { s with cf := cf, commit := p } :=
  ⟨hcf, hp, h.released⟩

/-- Entries are committed. -/
theorem append (h : Inv cx s) (es : List SlotEntry) : Inv cx { s with log := s.log ++ es } where
  backed := h.backed.append es
  phase := h.phase.append es
  released pg hpg := by
    obtain ⟨hhead, hpage⟩ := h.released pg hpg
    exact ⟨hhead, fun x h1 h2 => (hpage x h1 h2).append es⟩

theorem gaveUp (h : Inv cx s) (stale : Bool) (recs : List Collected) :
    Inv cx (s.gaveUp stale recs) := by
  unfold ReleaseWorld.gaveUp
  apply h.goes
  · refine h.backed.keep (ColdFill.Keeps.trans ?_ (ColdFill.releaseCollected_keeps _ _))
    split
    · exact .of_info rfl
    · exact .refl _
  · trivial

theorem knows_mem {es : List SlotEntry} (h : s.knows es = true) : ∀ e ∈ es, e ∈ s.log := by
  simpa [knows] using h

end Inv

theorem step_inv {cx : ReleaseCx} {s s' : ReleaseWorld} {a : ReleaseAct} (h : Inv cx s)
    (hstep : s.step cx a = some s') : Inv cx s' := by
  cases a with
  | others es =>
      cases hstep
      exact h.append es
  | sync es =>
      simp only [step] at hstep
      split at hstep
      · rename_i hes
        cases hstep
        exact h.fill (h.backed.apply _ (Inv.knows_mem hes))
      · cases hstep
  | stage i kind record fromCache keepIt has =>
      cases hstep
      exact h.fill (h.backed.keep (ColdFill.stage_keeps _ _ _ _ _ _ _ _))
  | forget i =>
      cases hstep
      exact h.fill (h.backed.keep (ColdFill.forget_keeps _ _))
  | keptOriginalGone i has =>
      cases hstep
      exact h.fill (h.backed.keep (ColdFill.keptOriginalGone_keeps _ _ _ _))
  | abandon i =>
      cases hstep
      exact h.fill (h.backed.keep (ColdFill.abandon_keeps _ _))
  | claimOrWait i request =>
      cases hstep
      exact h.fill (h.backed.keep (ColdFill.claimOrWait_keeps _ _ _))
  | collect =>
      simp only [step] at hstep
      split at hstep
      · cases hstep
        apply h.goes (h.backed.keep (ColdFill.collect_keeps _))
        split <;> trivial
      · cases hstep
  | giveUp stale =>
      simp only [step] at hstep
      split at hstep
      · cases hstep
        exact h.gaveUp stale _
      · cases hstep
        exact h.gaveUp stale _
      · cases hstep
  | lock es =>
      simp only [step] at hstep
      split at hstep
      · split at hstep
        · rename_i hes
          cases hstep
          exact h.goes (h.backed.apply _ (Inv.knows_mem hes)) trivial
        · cases hstep
      · cases hstep
  | taken =>
      simp only [step] at hstep
      split at hstep
      · cases hstep
        exact h.goes h.backed trivial
      · cases hstep
  | write storeId base at_ =>
      simp only [step] at hstep
      split at hstep
      · rename_i toWrite recs hphase
        cases hstep
        have hlog := h.append (SlotStore.makeEntries storeId base at_ (records toWrite))
        exact ⟨hlog.backed, fun e he => List.mem_append_right _ he, hlog.released⟩
      · cases hstep
  | note =>
      simp only [step] at hstep
      split at hstep
      · rename_i committed recs hphase
        cases hstep
        have hin : ∀ e ∈ committed, e ∈ s.log := by
          have := h.phase
          rwa [hphase] at this
        obtain ⟨hcf, hpunch⟩ :=
          @foldl_notePunch cx s.log committed hin (s.cf, []) h.backed (by simp)
        apply h.goes
        · exact hcf.keep (ColdFill.Keeps.foldl ColdFill.noteSkipped_keeps _ _)
        · exact ⟨fun e he => hin e (List.mem_filter.1 he).1, hpunch⟩
      · cases hstep
  | applyForgotten =>
      simp only [step] at hstep
      split at hstep
      · rename_i punch forgotten hphase
        cases hstep
        obtain ⟨hin, hpunch⟩ : PhaseOk cx s.log (.noted punch forgotten) := hphase ▸ h.phase
        apply h.goes (h.backed.apply _ hin)
        exact mergePunch_sound (fun p hp => (hpunch p hp).1) fun p hp => (hpunch p hp).2
      · cases hstep
  | widen =>
      simp only [step] at hstep
      split at hstep
      · rename_i runs hphase
        cases hstep
        have hruns : PhaseOk cx s.log (.merged runs) := hphase ▸ h.phase
        apply h.goes h.backed
        refine ⟨_, rfl, fun r hr => ?_⟩
        obtain ⟨q, hq, rfl⟩ := List.mem_map.1 hr
        exact widenRun_sound h.backed (hruns q hq)
      · cases hstep
  | release =>
      simp only [step] at hstep
      split at hstep
      · rename_i ranges hphase
        cases hstep
        obtain ⟨runs, rfl, hruns⟩ : PhaseOk cx s.log (.widened ranges) := hphase ▸ h.phase
        refine ⟨h.backed, trivial, fun pg hpg => ?_⟩
        rcases List.mem_append.1 hpg with hpg | hpg
        · exact h.released pg hpg
        · exact releasedPages_sound hruns hpg
      · cases hstep

end ReleaseWorld

/-- Slots whose originals have no byte in common. -/
def ReleaseCx.Disjoint (cx : ReleaseCx) : Prop :=
  ∀ i j b, (cx.slot i).origSeek ≤ b → b < cx.origEnd i → (cx.slot j).origSeek ≤ b →
    b < cx.origEnd j → i = j

/-- Committing slots releases only redundant bytes.  In every history, every byte of a page that a
commit released is in the original of a slot with a converted record in the store, and none is in
the first 128 KiB.  So when the originals have no byte in common, no page that was released has a
byte outside every slot, or of a slot that was never committed or only as kept. -/
theorem commit_releases_redundant (cx : ReleaseCx) {acts : List ReleaseAct} {s : ReleaseWorld}
    (hrun : exec (ReleaseWorld.step cx) {} acts = some s) {pg : Nat} (hpg : pg ∈ s.released) :
    (∀ b, pg * cx.m.pageSize ≤ b → b < pg * cx.m.pageSize + cx.m.pageSize →
      kKeepHead ≤ b ∧ Redundant cx s.log b) ∧
    (cx.Disjoint → ∀ i, (∀ e ∈ s.log, e.slot.toNat = i → e.kind = .kept) →
      ∀ b, (cx.slot i).origSeek ≤ b → b < cx.origEnd i →
        ¬ (pg * cx.m.pageSize ≤ b ∧ b < pg * cx.m.pageSize + cx.m.pageSize)) := by
  have hinit : ReleaseWorld.Inv cx {} := ⟨by simp [ColdFill.Backed], trivial, by simp⟩
  have hinv : ReleaseWorld.Inv cx s := exec_invariant (ReleaseWorld.Inv cx)
    (fun _ _ _ h hstep => ReleaseWorld.step_inv h hstep) hinit hrun
  obtain ⟨hhead, hpage⟩ := hinv.released pg hpg
  refine ⟨fun b h1 h2 => ⟨by omega, hpage b h1 h2⟩, ?_⟩
  rintro hdisjoint i hkept b h1 h2 ⟨h3, h4⟩
  obtain ⟨e, he, hkind, h5, h6⟩ := hpage b h3 h4
  exact hkind (hkept e he (hdisjoint _ _ b h5 h6 h1 h2))

/-- Two baskets that meet in a page, of a file whose first 128 KiB is something else. -/
def meetingBaskets : ReleaseCx where
  rnt := false
  L :=
    { originSize := 200000
      slots := [{ origSeek := 131072, origLen := 6000 }, { origSeek := 137072, origLen := 7000 }] }
  keepOriginals := false
  m := .fresh [] 200000 4096 0
  order := [0, 1]
  size_eq := rfl

/-- Another process has committed the first basket.  This one converts the second and commits it. -/
def secondCommitted : List ReleaseAct :=
  [.others [{ slot := 0, kind := .zstd }], .sync [{ slot := 0, kind := .zstd }],
    .claimOrWait 1 0, .stage 1 .raw [1, 2, 3] true true false, .collect, .lock [], .taken,
    .write 7 0 0, .note, .applyForgotten, .widen, .release]

/-- The page that both baskets have bytes of is let go, with the one behind it, and every byte of it
has a converted record. -/
theorem commit_releases_shared_page :
    ∃ s, exec (ReleaseWorld.step meetingBaskets) {} secondCommitted = some s ∧
      s.released = [33, 34] ∧
      ∀ b, 33 * 4096 ≤ b → b < 33 * 4096 + 4096 →
        kKeepHead ≤ b ∧ Redundant meetingBaskets s.log b := by
  have hmap : (exec (ReleaseWorld.step meetingBaskets) {} secondCommitted).map
      (fun s => s.released) = some [33, 34] := by decide +kernel
  obtain ⟨s, hrun, hreleased⟩ := Option.map_eq_some_iff.1 hmap
  refine ⟨s, hrun, hreleased, ?_⟩
  have hpage : 33 ∈ s.released := by
    rw [hreleased]
    decide
  exact (commit_releases_redundant meetingBaskets hrun hpage).1

end UCache
