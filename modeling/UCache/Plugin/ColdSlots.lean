/-
Module: UCache.Plugin.ColdSlots
Purpose: What every section of a run keeps: each slot's record is one that a conversion made, and
  no waiter is told more often than it was registered.
Trusted boundary: none
Main exports: InfoOk, FillOk, WakeOk
-/
import UCache.Plugin.VirtualImage

namespace UCache

open Lib

/-! ### Waiters -/

/-- The registrations of a request. -/
def ColdFill.waiting (cf : ColdFill) (id : Nat) : Nat := cf.waiters.countP fun w => w.2 == id

/-- The calls to a request that are on their way. -/
def told (ws : List Wake) (id : Nat) : Nat := ws.countP fun k => k.request == id

@[simp] theorem told_nil (id : Nat) : told [] id = 0 := rfl

@[simp] theorem told_append (a b : List Wake) (id : Nat) : told (a ++ b) id = told a id + told b id :=
  List.countP_append

/-- Those to be called were registered, or were to be called before. -/
theorem takeWaiters_count (cf : ColdFill) (i : Nat) (ok : Bool) (record : Option Bytes)
    (out : List Wake) (id : Nat) :
    (cf.takeWaiters i ok record out).1.waiting id + told (cf.takeWaiters i ok record out).2 id ≤
      cf.waiting id + told out id := by
  have hsplit : (cf.waiters.filter fun w => w.1 != i).countP (fun w => w.2 == id) +
      told ((cf.waiters.filter fun w => w.1 == i).map fun w => ⟨w.2, i, ok, record⟩) id =
        cf.waiting id := by
    simp only [ColdFill.waiting, told, List.countP_map]
    induction cf.waiters with
    | nil => rfl
    | cons w ws ih =>
        by_cases hw : w.1 = i <;> by_cases hid : w.2 = id <;>
          simp [hw, hid] at ih ⊢ <;> omega
  simp only [ColdFill.takeWaiters]
  change (cf.waiters.filter fun w => w.1 != i).countP (fun w => w.2 == id) + _ ≤ _
  split <;> omega

namespace ColdFill

@[simp] theorem takeWaiters_info (cf : ColdFill) (i : Nat) (ok : Bool) (record : Option Bytes)
    (out : List Wake) : (cf.takeWaiters i ok record out).1.info = cf.info := rfl

@[simp] theorem releaseMem_waiters (cf : ColdFill) (s : SlotInfo) :
    (cf.releaseMem s).1.waiters = cf.waiters := rfl

@[simp] theorem releaseMem_slot (cf : ColdFill) (s : SlotInfo) :
    (cf.releaseMem s).2 = { s with transient := false, mem := none } := rfl

@[simp] theorem forget_waiters (cf : ColdFill) (i : Nat) : (cf.forget i).waiters = cf.waiters := by
  unfold forget
  by_cases h : cf.state i = .ready
  · simp only [if_pos h]
    split <;> rfl
  · simp only [if_neg h]
    split <;> rfl

theorem forget_info (cf : ColdFill) (i : Nat) : (cf.forget i).info = Function.update cf.info i none := by
  unfold forget
  by_cases h : cf.state i = .ready
  · simp only [if_pos h]
    split
    · rename_i hnone
      simp only at hnone ⊢
      rw [← hnone, Function.update_eq_self]
    · rfl
  · simp only [if_neg h]
    split
    · rename_i hnone
      rw [← hnone, Function.update_eq_self]
    · rfl

end ColdFill

/-! ### What is known of the slots -/

variable {cf : ColdFill} {i : Nat}

section

variable (cx : ColdCx) (origin : Bytes) (recs : Nat → Bytes)

/-- What is known of a slot is what `origin` makes of it. -/
structure InfoOk (i : Nat) (s : SlotInfo) : Prop where
  made : Made cx origin recs i s.kind
  mem : ∀ m, s.mem = some m → m = recs i

def FillOk (cf : ColdFill) : Prop := ∀ i s, cf.info i = some s → InfoOk cx origin recs i s

/-- A waiter that is handed a record is handed the slot's. -/
def WakeOk (k : Wake) : Prop :=
  ∀ m, k.record = some m → m = recs k.slot ∧ ∃ kind, Made cx origin recs k.slot kind

/-- A record on its way to the store. -/
structure CollectedOk (r : Collected) : Prop where
  made : Made cx origin recs r.slot (basketKind r.kind)

/-- An entry of the store. -/
def EntryOk (e : SlotEntry) : Prop := Made cx origin recs e.slot.toNat (basketKind e.kind)

/-- A section that leaves the slots right and tells as many waiters as it takes off. -/
structure SectionOk (cf cf' : ColdFill) (woken : List Wake) : Prop where
  infos : FillOk cx origin recs cf'
  wakes : ∀ k ∈ woken, WakeOk cx origin recs k
  count : ∀ id, cf'.waiting id + told woken id ≤ cf.waiting id

end

variable {cx : ColdCx} {origin : Bytes} {recs : Nat → Bytes}

theorem FillOk.update {cf' : ColdFill} (h : FillOk cx origin recs cf) {s : SlotInfo}
    (hinfo : cf'.info = Function.update cf.info i (some s)) (hs : InfoOk cx origin recs i s) :
    FillOk cx origin recs cf' := by
  intro j t ht
  rw [hinfo] at ht
  by_cases hj : j = i
  · subst hj
    rw [Function.update_self] at ht
    cases ht
    exact hs
  · rw [Function.update_of_ne hj] at ht
    exact h j t ht

theorem FillOk.erase {cf' : ColdFill} (h : FillOk cx origin recs cf)
    (hinfo : cf'.info = Function.update cf.info i none) : FillOk cx origin recs cf' := by
  intro j t ht
  rw [hinfo] at ht
  by_cases hj : j = i
  · subst hj
    rw [Function.update_self] at ht
    cases ht
  · rw [Function.update_of_ne hj] at ht
    exact h j t ht

/-- Info without its copy in memory. -/
theorem InfoOk.released {s t : SlotInfo} (h : InfoOk cx origin recs i s) (hkind : t.kind = s.kind)
    (hmem : t.mem = none) : InfoOk cx origin recs i t := by
  constructor
  · rw [hkind]
    exact h.made
  · intro m hm
    rw [hmem] at hm
    cases hm

theorem InfoOk.of_made {s : SlotInfo} (h : Made cx origin recs i s.kind) (hmem : s.mem = none) :
    InfoOk cx origin recs i s := by
  refine ⟨h, ?_⟩
  intro m hm
  rw [hmem] at hm
  cases hm

/-- A section that touches no waiter. -/
theorem SectionOk.quiet {cf' : ColdFill} (h : FillOk cx origin recs cf')
    (hw : cf'.waiters = cf.waiters) : SectionOk cx origin recs cf cf' [] := by
  refine ⟨h, by simp, ?_⟩
  intro id
  simp [ColdFill.waiting, hw]

theorem SectionOk.trans {cf₁ cf₂ cf₃ : ColdFill} {ws₁ ws₂ : List Wake}
    (h1 : SectionOk cx origin recs cf₁ cf₂ ws₁) (h2 : SectionOk cx origin recs cf₂ cf₃ ws₂) :
    SectionOk cx origin recs cf₁ cf₃ (ws₁ ++ ws₂) := by
  refine ⟨h2.infos, ?_, ?_⟩
  · intro k hk
    obtain hk | hk := List.mem_append.1 hk
    · exact h1.wakes k hk
    · exact h2.wakes k hk
  · intro id
    have := h1.count id
    have := h2.count id
    rw [told_append]
    omega

/-- A quiet section and then another. -/
theorem SectionOk.after {cf₁ cf₂ cf₃ : ColdFill} {ws : List Wake}
    (h1 : SectionOk cx origin recs cf₁ cf₂ []) (h2 : SectionOk cx origin recs cf₂ cf₃ ws) :
    SectionOk cx origin recs cf₁ cf₃ ws :=
  h1.trans h2

theorem SectionOk.refl (h : FillOk cx origin recs cf) : SectionOk cx origin recs cf cf [] :=
  SectionOk.quiet h rfl

/-- A fold of quiet sections. -/
theorem SectionOk.foldl {α : Type} {f : ColdFill → α → ColdFill} {l : List α}
    (hf : ∀ cf a, a ∈ l → FillOk cx origin recs cf → SectionOk cx origin recs cf (f cf a) [])
    (h : FillOk cx origin recs cf) : SectionOk cx origin recs cf (l.foldl f cf) [] := by
  induction l generalizing cf with
  | nil => exact SectionOk.refl h
  | cons a rest ih =>
      have hstep := hf cf a (by simp) h
      exact hstep.trans (ih (fun cf b hb => hf cf b (by simp [hb])) hstep.infos)

/-- A snapshot of a slot is right. -/
theorem FillOk.look (h : FillOk cx origin recs cf) {w : Where} (hw : cf.look i = some w) :
    WhereOk cx origin recs i w := by
  unfold ColdFill.look at hw
  split at hw
  · simp only [Option.map_eq_some_iff] at hw
    obtain ⟨s, hs, rfl⟩ := hw
    have hinfo := h i s hs
    exact ⟨⟨s.kind, hinfo.made⟩, hinfo.mem, fun _ => hinfo.made⟩
  · cases hw

/-! ### Sections one by one -/

/-- A section goes on and takes the waiters of a slot. -/
theorem SectionOk.takeWaiters {cf₁ : ColdFill} {out : List Wake}
    (h : SectionOk cx origin recs cf cf₁ out) {ok : Bool} {record : Option Bytes}
    (hrec : ∀ m, record = some m → m = recs i ∧ ∃ kind, Made cx origin recs i kind) :
    SectionOk cx origin recs cf (cf₁.takeWaiters i ok record out).1
      (cf₁.takeWaiters i ok record out).2 := by
  refine ⟨h.infos, ?_, fun id => (takeWaiters_count cf₁ i ok record out id).trans (h.count id)⟩
  intro k hk
  simp only [ColdFill.takeWaiters] at hk
  split at hk
  · exact h.wakes k hk
  · obtain ⟨w, -, rfl⟩ := List.mem_map.1 hk
    exact hrec

theorem forget_ok (h : FillOk cx origin recs cf) (i : Nat) :
    SectionOk cx origin recs cf (cf.forget i) [] :=
  SectionOk.quiet (h.erase (cf.forget_info i)) (cf.forget_waiters i)

theorem keptOriginalGone_ok {cf : ColdFill} (h : FillOk cx origin recs cf) (rnt : Bool) (i : Nat)
    (has : Bool) : SectionOk cx origin recs cf (cf.keptOriginalGone rnt i has).1 [] := by
  unfold ColdFill.keptOriginalGone
  split
  · exact SectionOk.refl h
  split
  · exact SectionOk.refl h
  split
  · exact SectionOk.refl h
  · exact forget_ok h i

theorem applyOne_ok {nslots : Nat} {st : ColdFill × List Wake} {e : SlotEntry}
    (h : SectionOk cx origin recs cf st.1 st.2) (he : EntryOk cx origin recs e) :
    SectionOk cx origin recs cf (ColdFill.applyOne nslots st e).1
      (ColdFill.applyOne nslots st e).2 := by
  unfold ColdFill.applyOne
  simp only
  split
  · exact h
  generalize hs : (st.1.info e.slot.toNat).getD {} = s
  have hinfo : InfoOk cx origin recs e.slot.toNat
      { s with
        inStore := true
        e := e
        kind := basketKind e.kind
        transient := false
        mem := none
        persist := false } := InfoOk.of_made he rfl
  split
  · exact ⟨h.infos.update rfl hinfo, h.wakes, h.count⟩
  · apply SectionOk.takeWaiters
    · exact ⟨h.infos.update rfl hinfo, h.wakes, h.count⟩
    · intro m hm
      cases hm

/-- [SRC ColdRun.cc:223-245] -/
theorem apply_ok (h : FillOk cx origin recs cf) (nslots : Nat) {es : List SlotEntry}
    (hes : ∀ e ∈ es, EntryOk cx origin recs e) :
    SectionOk cx origin recs cf (cf.apply nslots es).1 (cf.apply nslots es).2 := by
  suffices hfold : ∀ (st : ColdFill × List Wake), SectionOk cx origin recs cf st.1 st.2 →
      SectionOk cx origin recs cf (es.foldl (ColdFill.applyOne nslots) st).1
        (es.foldl (ColdFill.applyOne nslots) st).2 from hfold (cf, []) (SectionOk.refl h)
  induction es with
  | nil =>
      intro st hst
      exact hst
  | cons e rest ih =>
      intro st hst
      exact ih (fun e' he' => hes e' (by simp [he'])) _ (applyOne_ok hst (hes e (by simp)))

theorem dropTransient_ok {b : Nat} {l : List Nat} (h : FillOk cx origin recs cf) :
    SectionOk cx origin recs cf (ColdFill.dropTransient i b l cf) [] ∧
      (ColdFill.dropTransient i b l cf).info i = cf.info i := by
  induction l generalizing cf with
  | nil => exact ⟨SectionOk.quiet h rfl, rfl⟩
  | cons j rest ih =>
      unfold ColdFill.dropTransient
      split
      · simp only
        split
        · exact ih h
        rename_i hji
        split
        · split
          · have hf := forget_ok h j
            obtain ⟨hok, hinfo⟩ := ih hf.infos
            refine ⟨hf.after hok, ?_⟩
            rw [hinfo, ColdFill.forget_info, Function.update_of_ne (Ne.symm hji)]
          · exact ih h
        · exact ih h
      · exact ⟨SectionOk.quiet h rfl, rfl⟩

/-- [SRC ColdRun.cc:1715-1775] The record of a conversion that was just made. -/
theorem stageRecord_ok {cf : ColdFill} (h : FillOk cx origin recs cf) {rnt : Bool} {i : Nat}
    {kind : BasketKind} (hmade : Made cx origin recs i kind) (fromCache keepIt has : Bool) :
    SectionOk cx origin recs cf
      (cf.stageRecord rnt i kind (recs i) fromCache keepIt has).1 [] := by
  unfold ColdFill.stageRecord
  simp only
  split
  · rename_i hstore
    cases hs : cf.info i with
    | none =>
        rw [hs] at hstore
        cases hstore
    | some s =>
        refine SectionOk.quiet (h.update (i := i) (s := s) ?_ (h i s hs)) rfl
        rfl
  split
  · exact SectionOk.quiet h rfl
  generalize (!rnt && decide (kind = .original) && has) = inCache
  cases inCache with
  | true =>
      simp only [if_true]
      split
      · exact SectionOk.quiet (h.update rfl (InfoOk.of_made hmade rfl)) rfl
      · exact SectionOk.quiet (h.update rfl (InfoOk.of_made hmade rfl)) rfl
  | false =>
      simp only [Bool.false_eq_true, if_false]
      split
      · refine SectionOk.quiet (h.update rfl ⟨hmade, ?_⟩) rfl
        intro m hm
        cases hm
        rfl
      · generalize hcf : ColdFill.dropTransient _ _ _ _ = cf'
        have hdrop : SectionOk cx origin recs cf cf' [] := by
          rw [← hcf]
          refine SectionOk.after ?_ (dropTransient_ok ?_).1
          · exact SectionOk.quiet (h.update rfl (InfoOk.of_made hmade rfl)) rfl
          · exact h.update rfl (InfoOk.of_made hmade rfl)
        split
        · refine hdrop.after (SectionOk.quiet (hdrop.infos.update rfl ⟨hmade, ?_⟩) rfl)
          intro m hm
          cases hm
          rfl
        · exact hdrop

/-- [SRC ColdRun.cc:1709-1791] -/
theorem stage_ok {cf : ColdFill} (h : FillOk cx origin recs cf) {rnt : Bool} {i : Nat}
    {kind : BasketKind} (hmade : Made cx origin recs i kind) (fromCache keepIt has : Bool) :
    SectionOk cx origin recs cf (cf.stage rnt i kind (recs i) fromCache keepIt has).1
      (cf.stage rnt i kind (recs i) fromCache keepIt has).2 := by
  have hrec := @stageRecord_ok _ _ _ cf h rnt i kind hmade fromCache keepIt has
  unfold ColdFill.stage
  generalize cf.stageRecord rnt i kind (recs i) fromCache keepIt has = st at hrec ⊢
  obtain ⟨cf₁, keep⟩ := st
  simp only at hrec ⊢
  have htake : SectionOk cx origin recs cf (cf₁.takeWaiters i true (some (recs i)) []).1
      (cf₁.takeWaiters i true (some (recs i)) []).2 := by
    refine hrec.takeWaiters ?_
    rintro m ⟨⟩
    exact ⟨rfl, kind, hmade⟩
  cases keep with
  | true => exact ⟨htake.infos, htake.wakes, htake.count⟩
  | false => exact ⟨htake.infos.erase rfl, htake.wakes, htake.count⟩

/-- [SRC ColdRun.cc:263-273] -/
theorem abandon_ok (h : FillOk cx origin recs cf) (i : Nat) :
    SectionOk cx origin recs cf (cf.abandon i).1 (cf.abandon i).2 := by
  unfold ColdFill.abandon
  apply SectionOk.takeWaiters
  · split
    · exact SectionOk.quiet h rfl
    · exact SectionOk.refl h
  · intro m hm
    cases hm

/-! ### Committing -/

theorem collectPending_ok {st : ColdFill × List Collected} (h : FillOk cx origin recs st.1)
    (hrecs : ∀ r ∈ st.2, CollectedOk cx origin recs r) :
    SectionOk cx origin recs st.1 (ColdFill.collectPending st i).1 [] ∧
      ∀ r ∈ (ColdFill.collectPending st i).2, CollectedOk cx origin recs r := by
  unfold ColdFill.collectPending
  simp only
  split
  · exact ⟨SectionOk.refl h, hrecs⟩
  rename_i s hs
  have hinfo := h i s hs
  split
  · exact ⟨SectionOk.quiet (h.update rfl (hinfo.released rfl rfl)) rfl, hrecs⟩
  split
  · exact ⟨SectionOk.refl h, hrecs⟩
  · refine ⟨SectionOk.quiet (h.update rfl ⟨hinfo.made, hinfo.mem⟩) rfl, ?_⟩
    intro r hr
    obtain hr | hr := List.mem_append.1 hr
    · exact hrecs r hr
    · rw [List.mem_singleton] at hr
      subst hr
      refine ⟨?_⟩
      rw [basketKind_entryKind]
      exact hinfo.made

theorem collectTransient_ok {st : ColdFill × List Collected} {j : Nat}
    (h : FillOk cx origin recs st.1) (hrecs : ∀ r ∈ st.2, CollectedOk cx origin recs r) :
    SectionOk cx origin recs st.1 (ColdFill.collectTransient st j).1 [] ∧
      ∀ r ∈ (ColdFill.collectTransient st j).2, CollectedOk cx origin recs r := by
  unfold ColdFill.collectTransient
  simp only
  split
  · exact ⟨SectionOk.refl h, hrecs⟩
  rename_i s hs
  have hinfo := h j s hs
  split
  · exact ⟨SectionOk.refl h, hrecs⟩
  · refine ⟨SectionOk.quiet (h.update rfl ⟨hinfo.made, hinfo.mem⟩) rfl, ?_⟩
    intro r hr
    obtain hr | hr := List.mem_append.1 hr
    · exact hrecs r hr
    · rw [List.mem_singleton] at hr
      subst hr
      refine ⟨?_⟩
      rw [basketKind_entryKind]
      exact hinfo.made

/-- A fold of sections that collect. -/
theorem collected_foldl
    {f : ColdFill × List Collected → Nat → ColdFill × List Collected}
    (hf : ∀ st i, FillOk cx origin recs st.1 → (∀ r ∈ st.2, CollectedOk cx origin recs r) →
      SectionOk cx origin recs st.1 (f st i).1 [] ∧
        ∀ r ∈ (f st i).2, CollectedOk cx origin recs r)
    (l : List Nat) {st : ColdFill × List Collected} (h : FillOk cx origin recs st.1)
    (hrecs : ∀ r ∈ st.2, CollectedOk cx origin recs r) :
    SectionOk cx origin recs st.1 (l.foldl f st).1 [] ∧
      ∀ r ∈ (l.foldl f st).2, CollectedOk cx origin recs r := by
  induction l generalizing st with
  | nil => exact ⟨SectionOk.refl h, hrecs⟩
  | cons i rest ih =>
      obtain ⟨hstep, hstep'⟩ := hf st i h hrecs
      obtain ⟨hrest, hrest'⟩ := ih hstep.infos hstep'
      exact ⟨hstep.after hrest, hrest'⟩

/-- [SRC ColdRun.cc:1924-1971] -/
theorem collect_ok (h : FillOk cx origin recs cf) :
    SectionOk cx origin recs cf cf.collect.1 [] ∧
      ∀ r ∈ cf.collect.2, CollectedOk cx origin recs r := by
  have hp := @collected_foldl cx origin recs ColdFill.collectPending
    (fun _ _ => collectPending_ok) cf.pending (cf, []) h (by simp)
  unfold ColdFill.collect
  generalize cf.pending.foldl ColdFill.collectPending (cf, []) = st at hp ⊢
  obtain ⟨cf₁, recs₁⟩ := st
  simp only at hp ⊢
  split
  · exact ⟨⟨hp.1.infos, by simp, hp.1.count⟩, hp.2⟩
  · have ht := @collected_foldl cx origin recs ColdFill.collectTransient
      (fun _ _ => collectTransient_ok) cf₁.transient
        ({ cf₁ with
            pending := []
            pendingTotal := cf₁.pendingTotal - cf₁.pendingBytes
            pendingBytes := 0 }, recs₁) hp.1.infos hp.2
    refine ⟨?_, ht.2⟩
    refine ⟨ht.1.infos, by simp, ?_⟩
    intro id
    exact (ht.1.count id).trans (hp.1.count id)

/-- [SRC ColdRun.cc:1886-1898] -/
theorem releaseCollected_ok (h : FillOk cx origin recs cf) (l : List Collected) :
    SectionOk cx origin recs cf (cf.releaseCollected l) [] := by
  apply SectionOk.foldl _ h
  intro cf r _ h
  split
  · split
    · exact forget_ok h _
    · exact SectionOk.refl h
  · exact SectionOk.refl h

/-- [SRC ColdRun.cc:2018-2049] -/
theorem noteCommitted_ok (h : FillOk cx origin recs cf) {committed : List SlotEntry}
    (hes : ∀ e ∈ committed, EntryOk cx origin recs e) (l : List Collected) :
    SectionOk cx origin recs cf (cf.noteCommitted committed l).1 [] := by
  unfold ColdFill.noteCommitted
  have hnote : SectionOk cx origin recs cf (committed.foldl ColdFill.noteEntry cf) [] := by
    apply SectionOk.foldl _ h
    intro cf e he h
    unfold ColdFill.noteEntry
    simp only
    split
    · exact SectionOk.refl h
    · exact SectionOk.quiet (h.update rfl (InfoOk.of_made (hes e he) rfl)) rfl
  refine hnote.after ?_
  apply SectionOk.foldl _ hnote.infos
  intro cf r _ h
  unfold ColdFill.noteSkipped
  split
  · exact SectionOk.refl h
  rename_i s hs
  split
  · exact SectionOk.quiet (h.update rfl ((h r.slot s hs).released rfl rfl)) rfl
  · exact SectionOk.refl h

end UCache
