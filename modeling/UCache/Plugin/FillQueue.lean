/-
Module: UCache.Plugin.FillQueue
Purpose: The records of a fill that wait for a commit: with what sizes they were staged since the
  last commit collected, and that every record still waiting is among them.
Trusted boundary: none
Main exports: ColdFill.uncommitted, KeepsWaiting, Queued
-/
import UCache.Lib.Loop
import UCache.Plugin.FillAccounts

namespace UCache

open Lib

/-! ### Records that wait -/

/-- What a record in memory takes. -/
def SlotInfo.held (s : SlotInfo) : Nat := (s.mem.map List.length).getD 0

/-- What the record of slot `i` takes while it is staged and not committed. -/
def ColdFill.uncommitted (cf : ColdFill) (i : Nat) : Nat :=
  match cf.info i with
  | some s => if s.persist then s.held else 0
  | none => 0

/-- Slots other than `skip` that wait afterwards waited before, with the same record. -/
def KeepsWaiting (skip : Nat → Prop) (cf cf' : ColdFill) : Prop :=
  ∀ i s, ¬skip i → cf'.info i = some s → s.persist = true →
    cf.info i = some s ∧ (cf.state i = .ready → cf'.state i = .ready)

/-- A section after which no other record waits, and the queue is as it was. -/
structure Quiet (skip : Nat → Prop) (cf cf' : ColdFill) : Prop where
  keeps : KeepsWaiting skip cf cf'
  pending : cf'.pending = cf.pending
  bytes : cf'.pendingBytes = cf.pendingBytes

/-- No slot is skipped. -/
def nowhere : Nat → Prop := fun _ => False

namespace Quiet

variable {skip : Nat → Prop} {a b c : ColdFill}

theorem refl (a : ColdFill) : Quiet skip a a := ⟨fun _ _ _ hi _ => ⟨hi, id⟩, rfl, rfl⟩

theorem trans (h : Quiet skip a b) (h' : Quiet skip b c) : Quiet skip a c := by
  refine ⟨fun i s hskip hi hs => ?_, h'.pending.trans h.pending, h'.bytes.trans h.bytes⟩
  obtain ⟨hb, hready⟩ := h'.keeps i s hskip hi hs
  obtain ⟨ha, hready'⟩ := h.keeps i s hskip hb hs
  exact ⟨ha, fun h => hready (hready' h)⟩

theorem fold {S α : Type} {f : S → α → S} (view : S → ColdFill)
    (h : ∀ s x, Quiet skip (view s) (view (f s x))) (l : List α) (s : S) :
    Quiet skip (view s) (view (l.foldl f s)) := by
  induction l generalizing s with
  | nil => exact refl (view s)
  | cons x rest ih => exact (h s x).trans (ih (f s x))

/-- A section that sets the record of one slot, and not to one that waits. -/
theorem update {i : Nat} {t : Option SlotInfo} (hinfo : b.info = Function.update a.info i t)
    (ht : ∀ s, t = some s → s.persist = false)
    (hstate : ∀ j, j ≠ i → a.state j = .ready → b.state j = .ready)
    (hpending : b.pending = a.pending) (hbytes : b.pendingBytes = a.pendingBytes) :
    Quiet skip a b := by
  refine ⟨fun j s _ hj hs => ?_, hpending, hbytes⟩
  rw [hinfo] at hj
  by_cases hji : j = i
  · subst hji
    rw [Function.update_self] at hj
    rw [ht s hj] at hs
    cases hs
  · rw [Function.update_of_ne hji] at hj
    exact ⟨hj, hstate j hji⟩

/-- A section that leaves the records alone. -/
theorem same (hinfo : b.info = a.info)
    (hstate : ∀ j, a.state j = .ready → b.state j = .ready)
    (hpending : b.pending = a.pending) (hbytes : b.pendingBytes = a.pendingBytes) :
    Quiet skip a b := ⟨fun j _ _ hj _ => ⟨hinfo ▸ hj, hstate j⟩, hpending, hbytes⟩

end Quiet

/-! ### Sections that stage nothing -/

section Sections

variable {skip : Nat → Prop}

theorem quiet_forget (cf : ColdFill) (i : Nat) : Quiet skip cf (cf.forget i) := by
  have hstate : ∀ cf₁, cf₁ = (if cf.state i = .ready then
      { cf with state := Function.update cf.state i .absent } else cf) →
      cf₁.info = cf.info ∧ cf₁.pending = cf.pending ∧ cf₁.pendingBytes = cf.pendingBytes ∧
        ∀ j, j ≠ i → cf.state j = .ready → cf₁.state j = .ready := by
    rintro cf₁ rfl
    split
    · refine ⟨rfl, rfl, rfl, fun j hj hready => ?_⟩
      exact (Function.update_of_ne hj ..).trans hready
    · exact ⟨rfl, rfl, rfl, fun _ _ h => h⟩
  unfold ColdFill.forget
  simp only
  generalize (if cf.state i = .ready then
      { cf with state := Function.update cf.state i .absent } else cf) = cf₁ at hstate
  obtain ⟨hinfo, hpending, hbytes, hready⟩ := hstate cf₁ rfl
  cases hslot : cf₁.info i with
  | none =>
      have hnone : cf₁.info = Function.update cf.info i none := by
        rw [hinfo] at hslot ⊢
        rw [← hslot, Function.update_eq_self]
      exact .update hnone (by simp) hready hpending hbytes
  | some s =>
      refine .update (i := i) (t := none) ?_ (by simp) hready hpending hbytes
      simp only [ColdFill.releaseMem_info, hinfo]

theorem quiet_gone (cf : ColdFill) (rnt : Bool) (i : Nat) (has : Bool) :
    Quiet skip cf (cf.keptOriginalGone rnt i has).1 := by
  unfold ColdFill.keptOriginalGone
  split
  · exact .refl cf
  · split
    · exact .refl cf
    · split
      · exact .refl cf
      · exact quiet_forget cf i

theorem quiet_applyOne (nslots : Nat) (st : ColdFill × List Wake) (e : SlotEntry) :
    Quiet skip st.1 (ColdFill.applyOne nslots st e).1 := by
  unfold ColdFill.applyOne
  simp only
  split
  · exact .refl st.1
  · split
    · exact .update (t := some _) rfl (by rintro s ⟨⟩; rfl) (fun _ _ h => h) rfl rfl
    · refine .update (t := some _) rfl (by rintro s ⟨⟩; rfl) (fun j hj hready => ?_) rfl rfl
      exact (Function.update_of_ne hj ..).trans hready

theorem quiet_apply (nslots : Nat) (cf : ColdFill) (es : List SlotEntry) :
    Quiet skip cf (cf.apply nslots es).1 :=
  Quiet.fold Prod.fst (quiet_applyOne nslots) es (cf, [])

theorem quiet_abandon (cf : ColdFill) (i : Nat) : Quiet skip cf (cf.abandon i).1 := by
  unfold ColdFill.abandon ColdFill.takeWaiters
  simp only
  split
  · rename_i hfetching
    refine .same rfl (fun j hready => ?_) rfl rfl
    have hj : j ≠ i := by
      rintro rfl
      rw [hfetching] at hready
      cases hready
    exact (Function.update_of_ne hj ..).trans hready
  · exact .same rfl (fun _ h => h) rfl rfl

theorem quiet_claimOrWait (cf : ColdFill) (i request : Nat) :
    Quiet skip cf (cf.claimOrWait i request).1 := by
  unfold ColdFill.claimOrWait
  split
  · rename_i habsent
    refine .same rfl (fun j hready => ?_) rfl rfl
    have hj : j ≠ i := by
      rintro rfl
      rw [habsent] at hready
      cases hready
    exact (Function.update_of_ne hj ..).trans hready
  · exact .refl cf
  · exact .same rfl (fun _ h => h) rfl rfl

theorem quiet_drop (i b : Nat) (l : List Nat) (cf : ColdFill) :
    Quiet skip cf (ColdFill.dropTransient i b l cf) := by
  induction l generalizing cf with
  | nil => exact .same rfl (fun _ h => h) rfl rfl
  | cons j rest ih =>
      rw [dropTransient_cons]
      split
      · refine Quiet.trans ?_ (ih _)
        split
        · exact quiet_forget cf j
        · exact .refl cf
      · exact .same rfl (fun _ h => h) rfl rfl

theorem quiet_releaseCollected (cf : ColdFill) (recs : List Collected) :
    Quiet skip cf (cf.releaseCollected recs) := by
  refine Quiet.fold id (fun cf r => ?_) recs cf
  simp only [id]
  split
  · split
    · exact quiet_forget cf r.slot
    · exact .refl cf
  · exact .refl cf

theorem quiet_noteEntry (cf : ColdFill) (e : SlotEntry) : Quiet skip cf (cf.noteEntry e) := by
  unfold ColdFill.noteEntry
  simp only
  split
  · exact .refl cf
  · exact .update (t := some _) rfl (by rintro s ⟨⟩; rfl) (fun _ _ h => h) rfl rfl

theorem quiet_noteSkipped (cf : ColdFill) (r : Collected) : Quiet skip cf (cf.noteSkipped r) := by
  unfold ColdFill.noteSkipped
  split
  · exact .refl cf
  · split
    · exact .update (t := some _) rfl (by rintro s ⟨⟩; rfl) (fun _ _ h => h) rfl rfl
    · exact .refl cf

end Sections

/-! ### The queue -/

/-- A record that waits: served from here, not committed, and among those staged. -/
structure Waits (queue : List (Nat × Nat)) (cf : ColdFill) (i : Nat) (s : SlotInfo) : Prop where
  ready : cf.state i = .ready
  fresh : s.inStore = false
  apart : s.transient = false
  backed : s.mem ≠ none ∨ s.kind = .original
  staged : (i, s.held) ∈ queue

/-- The slots staged since the last collection, each with what its record then counted for. -/
structure Queued (queue : List (Nat × Nat)) (cf : ColdFill) : Prop where
  slots : queue.map Prod.fst = cf.pending
  bytes : (queue.map Prod.snd).sum = cf.pendingBytes
  waits : ∀ i s, cf.info i = some s → s.persist = true → Waits queue cf i s

namespace Queued

variable {queue : List (Nat × Nat)} {cf cf' : ColdFill}

theorem quiet (h : Queued queue cf) (hquiet : Quiet nowhere cf cf') : Queued queue cf' := by
  refine ⟨h.slots.trans hquiet.pending.symm, h.bytes.trans hquiet.bytes.symm, fun i s hi hs => ?_⟩
  obtain ⟨hbefore, hready⟩ := hquiet.keeps i s id hi hs
  have hwaits := h.waits i s hbefore hs
  exact ⟨hready hwaits.ready, hwaits.fresh, hwaits.apart, hwaits.backed, hwaits.staged⟩

/-- What the waiting records take is no more than what is counted. -/
theorem uncommitted_le (h : Queued queue cf) {m : Nat} (hm : Total cf.uncommitted m) :
    m ≤ cf.pendingBytes := by
  rw [← h.bytes]
  refine hm.le_sum queue fun i hi => ?_
  unfold ColdFill.uncommitted at hi ⊢
  cases hslot : cf.info i with
  | none => simp [hslot] at hi
  | some s =>
      rw [hslot] at hi
      simp only at hi ⊢
      split at hi
      · rename_i hs
        rw [if_pos hs]
        exact (h.waits i s hslot hs).staged
      · exact absurd rfl hi

/-- Where every staging still stands, they are the same. -/
theorem uncommitted_eq (h : Queued queue cf) (hnodup : cf.pending.Nodup)
    (hstand : ∀ i ∈ cf.pending, ∃ s, cf.info i = some s ∧ s.persist = true) :
    Total cf.uncommitted cf.pendingBytes := by
  rw [← h.slots] at hnodup hstand
  rw [← h.bytes]
  refine Total.of_parts hnodup (fun p hp => ?_) (fun i hi => ?_)
  · obtain ⟨s, hslot, hs⟩ := hstand p.1 (List.mem_map.2 ⟨p, hp, rfl⟩)
    have hstaged := (h.waits p.1 s hslot hs).staged
    have hsame : (p.1, s.held) = p :=
      List.inj_on_of_nodup_map hnodup hstaged hp rfl
    unfold ColdFill.uncommitted
    rw [hslot]
    simp only [if_pos hs]
    exact congrArg Prod.snd hsame
  · unfold ColdFill.uncommitted
    cases hslot : cf.info i with
    | none => rfl
    | some s =>
        simp only
        split
        · rename_i hs
          exact absurd (List.mem_map.2 ⟨_, (h.waits i s hslot hs).staged, rfl⟩) hi
        · rfl

end Queued

/-! ### Staging and collecting -/

variable {queue : List (Nat × Nat)}

/-- What a staging adds to the queue. -/
def queuedAs (cf : ColdFill) (rnt : Bool) (i : Nat) (kind : BasketKind) (record : Bytes)
    (keepIt has : Bool) : List (Nat × Nat) :=
  let b := stagedBytes rnt kind record has
  if ((cf.info i).getD {}).inStore then []
  else if !keepIt then []
  else if persists cf b then [(i, b)]
  else []

/-- What is left behind of a record that was staged, by what became of it. -/
theorem stage_fields {cf : ColdFill} {rnt : Bool} {i : Nat} {kind : BasketKind} {record : Bytes}
    {fromCache keepIt has : Bool} {cf₁ : ColdFill} {keep : Bool}
    (h : cf.stageRecord rnt i kind record fromCache keepIt has = (cf₁, keep)) :
    let cf' := (cf.stage rnt i kind record fromCache keepIt has).1
    cf'.info = (if keep then cf₁.info else Function.update cf₁.info i none) ∧
      cf'.state = Function.update cf₁.state i (if keep then .ready else .absent) ∧
      cf'.pending = cf₁.pending ∧ cf'.pendingBytes = cf₁.pendingBytes := by
  unfold ColdFill.stage
  rw [h]
  cases keep <;> exact ⟨rfl, rfl, rfl, rfl⟩

/-- A record that is kept, or not, and does not wait. -/
theorem quiet_stage {cf : ColdFill} {rnt : Bool} {i : Nat} {kind : BasketKind} {record : Bytes}
    {fromCache keepIt has : Bool} {cf₁ : ColdFill} {keep : Bool}
    (h : cf.stageRecord rnt i kind record fromCache keepIt has = (cf₁, keep))
    {t : Option SlotInfo} (hinfo : keep = true → cf₁.info = Function.update cf₁.info i t)
    (ht : ∀ s, t = some s → s.persist = false) :
    Quiet nowhere cf₁ (cf.stage rnt i kind record fromCache keepIt has).1 := by
  obtain ⟨h1, h2, h3, h4⟩ := stage_fields h
  have hstate : ∀ j, j ≠ i → cf₁.state j = .ready →
      (cf.stage rnt i kind record fromCache keepIt has).1.state j = .ready := by
    intro j hj hready
    rw [h2, Function.update_of_ne hj, hready]
  cases keep with
  | true => exact .update (h1.trans (hinfo rfl)) ht hstate h3 h4
  | false => exact .update (t := none) h1 (by simp) hstate h3 h4

theorem Queued.stage {cf : ColdFill} (h : Queued queue cf) (rnt : Bool) (i : Nat)
    (kind : BasketKind) (record : Bytes) (fromCache keepIt has : Bool) :
    Queued (queue ++ queuedAs cf rnt i kind record keepIt has)
      (cf.stage rnt i kind record fromCache keepIt has).1 := by
  have heq := stageRecord_eq cf rnt i kind record fromCache keepIt has
  unfold queuedAs
  simp only at heq ⊢
  by_cases hin : ((cf.info i).getD {}).inStore = true
  · rw [if_pos hin] at heq
    rw [if_pos hin, List.append_nil]
    -- What is in the store does not wait.
    have hidle : ((cf.info i).getD {}).persist = false := by
      cases hslot : cf.info i with
      | none => rfl
      | some s =>
          rw [hslot] at hin
          cases hs : s.persist with
          | false => exact hs
          | true =>
              have hfresh := (h.waits i s hslot hs).fresh
              rw [Option.getD_some, hfresh] at hin
              cases hin
    have hslot : Quiet nowhere cf { cf with
        info := Function.update cf.info i (some ((cf.info i).getD {})) } :=
      .update (t := some ((cf.info i).getD {})) rfl (by rintro s ⟨⟩; exact hidle)
        (fun _ _ h => h) rfl rfl
    refine h.quiet (hslot.trans
      (quiet_stage heq (t := some ((cf.info i).getD {})) (fun _ => ?_) ?_))
    · simp only [Function.update_idem]
    · rintro s ⟨⟩
      exact hidle
  rw [if_neg hin] at heq
  rw [if_neg hin]
  by_cases hkeep : (!keepIt) = true
  · rw [if_pos hkeep] at heq
    rw [if_pos hkeep, List.append_nil]
    have hrelease : Quiet nowhere cf (cf.releaseMem ((cf.info i).getD {})).1 :=
      .same rfl (fun _ h => h) rfl rfl
    exact h.quiet (hrelease.trans (quiet_stage heq (t := none) (by simp) (by simp)))
  rw [if_neg hkeep] at heq
  rw [if_neg hkeep]
  generalize hb : stagedBytes rnt kind record has = b at *
  generalize hp : persists cf b = p at *
  cases p with
  | true =>
      rw [if_pos rfl] at heq
      obtain ⟨hinfo, hstate, hpending, hbytes⟩ := stage_fields heq
      refine ⟨?_, ?_, fun j s hj hs => ?_⟩
      · rw [if_pos rfl, List.map_append, h.slots, hpending]
        rfl
      · rw [if_pos rfl, List.map_append, List.sum_append, h.bytes, hbytes]
        simp
      rw [if_pos rfl]
      rw [if_pos rfl] at hinfo
      rw [hinfo] at hj
      simp only at hj
      by_cases hji : j = i
      · subst hji
        rw [Function.update_self] at hj
        cases hj
        have hheld : (stagedInfo cf j kind fromCache true false
            (if inCache rnt kind has = true then none else some record)).held = b := by
          rw [← hb]
          unfold stagedInfo SlotInfo.held stagedBytes
          split <;> rfl
        refine ⟨?_, ?_, rfl, ?_, ?_⟩
        · rw [hstate, Function.update_self]
          rfl
        · exact Bool.eq_false_iff.2 hin
        · unfold stagedInfo
          by_cases hcache : inCache rnt kind has = true
          · unfold inCache at hcache
            simp only [Bool.and_eq_true, decide_eq_true_eq] at hcache
            exact .inr hcache.1.2
          · rw [if_neg hcache]
            exact .inl (by simp)
        · rw [hheld]
          exact List.mem_append_right _ (List.mem_singleton_self _)
      · rw [Function.update_of_ne hji] at hj
        have hwaits := h.waits j s hj hs
        refine ⟨?_, hwaits.fresh, hwaits.apart, hwaits.backed, List.mem_append_left _ hwaits.staged⟩
        rw [hstate, Function.update_of_ne hji]
        exact hwaits.ready
  | false =>
      rw [if_neg Bool.false_ne_true] at heq
      rw [if_neg Bool.false_ne_true, List.append_nil]
      have hidle : ∀ transient mem s, some (stagedInfo cf i kind fromCache false transient mem) =
          some s → s.persist = false := by
        rintro transient mem s ⟨⟩
        rfl
      have hrestaged : Quiet nowhere cf (restaged cf i kind fromCache false) :=
        .update rfl (hidle false none) (fun _ _ h => h) rfl rfl
      by_cases hcache : inCache rnt kind has = true
      · rw [if_pos hcache] at heq
        refine h.quiet (hrestaged.trans (quiet_stage heq (fun _ => ?_) (hidle false none)))
        rw [restaged_info, Function.update_idem]
      rw [if_neg hcache] at heq
      have hdrop := hrestaged.trans
        (quiet_drop i b cf.transient (restaged cf i kind fromCache false))
      generalize ColdFill.dropTransient i b cf.transient
        (restaged cf i kind fromCache false) = cf₂ at heq hdrop
      by_cases hroom : HasRoom cf₂ b
      · rw [if_pos hroom] at heq
        have hput : Quiet nowhere cf₂ { cf₂ with
            info := Function.update cf₂.info i
              (some (stagedInfo cf i kind fromCache false true (some record)))
            transient := cf₂.transient ++ [i]
            transientBytes := cf₂.transientBytes + b
            transientTotal := cf₂.transientTotal + b } :=
          .update rfl (hidle true (some record)) (fun _ _ h => h) rfl rfl
        refine h.quiet ((hdrop.trans hput).trans
          (quiet_stage heq (fun _ => ?_) (hidle true (some record))))
        simp only [Function.update_idem]
      · rw [if_neg hroom] at heq
        exact h.quiet (hdrop.trans (quiet_stage heq (t := none) (by simp) (by simp)))

/-- One pending slot is collected: it waits no longer, and the others wait as they did. -/
theorem collectPending_waits {st : ColdFill × List Collected}
    (h : ∀ j s, st.1.info j = some s → s.persist = true → Waits queue st.1 j s) (i : Nat) :
    (ColdFill.collectPending st i).1.state = st.1.state ∧
      ∀ j s, (ColdFill.collectPending st i).1.info j = some s → s.persist = true →
        j ≠ i ∧ st.1.info j = some s := by
  have hset : ∀ (t : SlotInfo) j s, t.persist = false →
      Function.update st.1.info i (some t) j = some s → s.persist = true →
        j ≠ i ∧ st.1.info j = some s := by
    intro t j s ht hj hs
    by_cases hji : j = i
    · subst hji
      rw [Function.update_self] at hj
      cases hj
      rw [ht] at hs
      cases hs
    · rw [Function.update_of_ne hji] at hj
      exact ⟨hji, hj⟩
  unfold ColdFill.collectPending
  simp only
  cases hslot : st.1.info i with
  | none =>
      refine ⟨rfl, fun j s hj hs => ⟨?_, hj⟩⟩
      rintro rfl
      rw [hslot] at hj
      cases hj
  | some t =>
      simp only
      split
      · exact ⟨rfl, fun j s => hset _ j s rfl⟩
      · split
        · -- A record that is passed over does not wait.
          rename_i hpassed
          refine ⟨rfl, fun j s hj hs => ⟨?_, hj⟩⟩
          rintro rfl
          rw [hslot] at hj
          cases hj
          have hwaits := h j t hslot hs
          rcases hpassed with hkept | hstate | ⟨hmem, hkind⟩
          · simp [hs] at hkept
          · exact hstate hwaits.ready
          · exact hwaits.backed.elim (fun h => h hmem) hkind
        · exact ⟨rfl, fun j s => hset _ j s rfl⟩

theorem foldl_collectPending_waits (l : List Nat) {st : ColdFill × List Collected}
    (h : ∀ j s, st.1.info j = some s → s.persist = true → Waits queue st.1 j s) :
    ∀ j s, (l.foldl ColdFill.collectPending st).1.info j = some s → s.persist = true →
      j ∉ l ∧ st.1.info j = some s := by
  induction l generalizing st with
  | nil => exact fun j s hj _ => ⟨List.not_mem_nil, hj⟩
  | cons i rest ih =>
      obtain ⟨hstate, hone⟩ := collectPending_waits h i
      have hnext : ∀ j s, (ColdFill.collectPending st i).1.info j = some s → s.persist = true →
          Waits queue (ColdFill.collectPending st i).1 j s := by
        intro j s hj hs
        have hwaits := h j s (hone j s hj hs).2 hs
        exact ⟨hstate ▸ hwaits.ready, hwaits.fresh, hwaits.apart, hwaits.backed, hwaits.staged⟩
      intro j s hj hs
      obtain ⟨hrest, hmid⟩ := ih hnext j s hj hs
      obtain ⟨hji, hbefore⟩ := hone j s hmid hs
      exact ⟨fun hmem => (List.mem_cons.1 hmem).elim hji hrest, hbefore⟩

/-- A record that goes along with a batch did not wait and does not. -/
theorem collectTransient_idle {st : ColdFill × List Collected}
    (h : ∀ j s, st.1.info j = some s → s.persist = false) (i : Nat) :
    (∀ j s, (ColdFill.collectTransient st i).1.info j = some s → s.persist = false) ∧
      (ColdFill.collectTransient st i).1.pending = st.1.pending ∧
      (ColdFill.collectTransient st i).1.pendingBytes = st.1.pendingBytes := by
  unfold ColdFill.collectTransient
  simp only
  cases hslot : st.1.info i with
  | none => exact ⟨h, rfl, rfl⟩
  | some t =>
      simp only
      split
      · exact ⟨h, rfl, rfl⟩
      · refine ⟨fun j s hj => ?_, rfl, rfl⟩
        simp only [ColdFill.releaseMem_info] at hj
        by_cases hji : j = i
        · subst hji
          rw [Function.update_self] at hj
          cases hj
          exact h j t hslot
        · rw [Function.update_of_ne hji] at hj
          exact h j s hj

theorem Queued.collect {cf : ColdFill} (h : Queued queue cf) : Queued [] cf.collect.1 := by
  have hidle : ∀ j s, (cf.pending.foldl ColdFill.collectPending (cf, [])).1.info j = some s →
      s.persist = false := by
    intro j s hj
    cases hs : s.persist with
    | false => rfl
    | true =>
        have hwaits : ∀ j s, (cf, ([] : List Collected)).1.info j = some s →
            s.persist = true → Waits queue cf j s := h.waits
        obtain ⟨hout, hbefore⟩ := foldl_collectPending_waits cf.pending hwaits j s hj hs
        have hstaged := (h.waits j s hbefore hs).staged
        refine absurd ?_ hout
        rw [← h.slots]
        exact List.mem_map.2 ⟨_, hstaged, rfl⟩
  have hdone : ∀ cf' : ColdFill, (∀ j s, cf'.info j = some s → s.persist = false) →
      cf'.pending = [] → cf'.pendingBytes = 0 → Queued [] cf' := by
    intro cf' hnone hpending hbytes
    refine ⟨hpending.symm, hbytes.symm, fun i s hi hs => ?_⟩
    rw [hnone i s hi] at hs
    cases hs
  unfold ColdFill.collect
  simp only
  generalize cf.pending.foldl ColdFill.collectPending (cf, []) = st at hidle
  split
  · exact hdone _ hidle rfl rfl
  · obtain ⟨h1, h2, h3⟩ := foldl_history (f := ColdFill.collectTransient)
      (P := fun _ st' => (∀ j s, st'.1.info j = some s → s.persist = false) ∧
        st'.1.pending = [] ∧ st'.1.pendingBytes = 0)
      (fun _ st' i hst => by
        obtain ⟨hinfo, hpending, hbytes⟩ := collectTransient_idle hst.1 i
        exact ⟨hinfo, hpending.trans hst.2.1, hbytes.trans hst.2.2⟩)
      (l := st.1.transient) (d := []) (s := (unpended st.1, st.2)) ⟨hidle, rfl, rfl⟩
    exact hdone _ h1 h2 h3

/-! ### A step -/

/-- The queue after a step. -/
def queueAfter (cx : ReleaseCx) (s : ReleaseWorld) (queue : List (Nat × Nat)) :
    ReleaseAct → List (Nat × Nat)
  | .stage i kind record _ keepIt has => queue ++ queuedAs s.cf cx.rnt i kind record keepIt has
  | .collect => []
  | _ => queue

theorem queued_step {cx : ReleaseCx} {s s' : ReleaseWorld} {a : ReleaseAct} (h : Queued queue s.cf)
    (hstep : s.step cx a = some s') : Queued (queueAfter cx s queue a) s'.cf := by
  cases a with
  | others es =>
      cases hstep
      exact h
  | sync es =>
      simp only [ReleaseWorld.step, Option.ite_none_right_eq_some, Option.some.injEq] at hstep
      obtain ⟨-, rfl⟩ := hstep
      exact h.quiet (quiet_apply cx.L.slots.length s.cf es)
  | stage i kind record fromCache keepIt has =>
      cases hstep
      exact h.stage cx.rnt i kind record fromCache keepIt has
  | forget i =>
      cases hstep
      exact h.quiet (quiet_forget s.cf i)
  | keptOriginalGone i has =>
      cases hstep
      exact h.quiet (quiet_gone s.cf cx.rnt i has)
  | abandon i =>
      cases hstep
      exact h.quiet (quiet_abandon s.cf i)
  | claimOrWait i request =>
      cases hstep
      exact h.quiet (quiet_claimOrWait s.cf i request)
  | collect =>
      cases hc : s.commit with
      | idle =>
          simp only [ReleaseWorld.step, hc, Option.some.injEq] at hstep
          cases hstep
          exact h.collect
      | _ => simp [ReleaseWorld.step, hc] at hstep
  | giveUp stale =>
      have hgave : ∀ recs, Queued queue (s.gaveUp stale recs).cf := by
        intro recs
        have hgone : Quiet nowhere s.cf
            (if stale then { s.cf with storeGone := true } else s.cf) := by
          cases stale
          · exact .refl s.cf
          · exact .same rfl (fun _ h => h) rfl rfl
        exact h.quiet (hgone.trans (quiet_releaseCollected _ recs))
      cases hc : s.commit with
      | collected recs =>
          simp only [ReleaseWorld.step, hc, Option.some.injEq] at hstep
          cases hstep
          exact hgave recs
      | checking todo write recs =>
          simp only [ReleaseWorld.step, hc, Option.some.injEq] at hstep
          cases hstep
          exact hgave recs
      | _ => simp [ReleaseWorld.step, hc] at hstep
  | lock es =>
      cases hc : s.commit with
      | collected recs =>
          simp only [ReleaseWorld.step, hc, Option.ite_none_right_eq_some,
            Option.some.injEq] at hstep
          obtain ⟨-, rfl⟩ := hstep
          exact h.quiet (quiet_apply cx.L.slots.length s.cf es)
      | _ => simp [ReleaseWorld.step, hc] at hstep
  | note =>
      cases hc : s.commit with
      | landed committed recs =>
          simp only [ReleaseWorld.step, hc, Option.some.injEq] at hstep
          cases hstep
          have hnoted : Quiet nowhere s.cf (committed.foldl (notePunch cx) (s.cf, [])).1 := by
            rw [foldl_notePunch_fst]
            exact Quiet.fold id quiet_noteEntry committed s.cf
          exact h.quiet (hnoted.trans (Quiet.fold id quiet_noteSkipped recs _))
      | _ => simp [ReleaseWorld.step, hc] at hstep
  | applyForgotten =>
      cases hc : s.commit with
      | noted punch forgotten =>
          simp only [ReleaseWorld.step, hc, Option.some.injEq] at hstep
          cases hstep
          exact h.quiet (quiet_apply cx.L.slots.length s.cf forgotten)
      | _ => simp [ReleaseWorld.step, hc] at hstep
  | taken =>
      unfold ReleaseWorld.step at hstep
      simp only at hstep
      split at hstep <;> cases hstep
      exact h
  | write storeId base at_ =>
      unfold ReleaseWorld.step at hstep
      simp only at hstep
      split at hstep <;> cases hstep
      exact h
  | widen =>
      unfold ReleaseWorld.step at hstep
      simp only at hstep
      split at hstep <;> cases hstep
      exact h
  | release =>
      unfold ReleaseWorld.step at hstep
      simp only at hstep
      split at hstep <;> cases hstep
      exact h

end UCache
