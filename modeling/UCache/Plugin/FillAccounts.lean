/-
Module: UCache.Plugin.FillAccounts
Purpose: The memory a file's slot records are charged for: every section of the file's run keeps the
  transient counter at the total of the records it is charged for, within its limits, and takes no
  more from a counter than is there.
Trusted boundary: none
Main exports: Counters, CountOp, SlotInfo.charge
-/
import UCache.Lib.Totals
import UCache.Plugin.SlotRelease

namespace UCache

open Lib

/-! ### Counters -/

/-- [SRC ColdRun.cc:155, 160, 1671, 1677] A fill's two counters, and the two of the process. -/
structure Counters where
  transientBytes : Nat
  transientTotal : Nat
  pendingBytes : Nat
  pendingTotal : Nat
deriving DecidableEq, Repr

/-- An addition to a fill's counter and the process's, or a subtraction from both. -/
inductive CountOp where
  | addTransient (n : Nat)
  | subTransient (n : Nat)
  | addPending (n : Nat)
  | subPending (n : Nat)
deriving DecidableEq, Repr

/-- `none` when more would be taken than a counter has. -/
def CountOp.run (c : Counters) : CountOp → Option Counters
  | .addTransient n => some { c with
      transientBytes := c.transientBytes + n, transientTotal := c.transientTotal + n }
  | .subTransient n =>
      if n ≤ c.transientBytes ∧ n ≤ c.transientTotal then some { c with
        transientBytes := c.transientBytes - n, transientTotal := c.transientTotal - n }
      else none
  | .addPending n => some { c with
      pendingBytes := c.pendingBytes + n, pendingTotal := c.pendingTotal + n }
  | .subPending n =>
      if n ≤ c.pendingBytes ∧ n ≤ c.pendingTotal then some { c with
        pendingBytes := c.pendingBytes - n, pendingTotal := c.pendingTotal - n }
      else none

/-- What the process counts changes by what the fill counts. -/
structure SameBalance (c c' : Counters) : Prop where
  transient : c'.transientTotal + c.transientBytes = c.transientTotal + c'.transientBytes
  pending : c'.pendingTotal + c.pendingBytes = c.pendingTotal + c'.pendingBytes

theorem CountOp.balanced {op : CountOp} {c c' : Counters} (h : op.run c = some c') :
    SameBalance c c' := by
  cases op with
  | addTransient n =>
      cases h
      exact ⟨by simp only; omega, rfl⟩
  | subTransient n =>
      simp only [CountOp.run, Option.ite_none_right_eq_some, Option.some.injEq] at h
      obtain ⟨hfits, rfl⟩ := h
      exact ⟨by simp only; omega, rfl⟩
  | addPending n =>
      cases h
      exact ⟨rfl, by simp only; omega⟩
  | subPending n =>
      simp only [CountOp.run, Option.ite_none_right_eq_some, Option.some.injEq] at h
      obtain ⟨hfits, rfl⟩ := h
      exact ⟨rfl, by simp only; omega⟩

theorem balanced_exec {ops : List CountOp} {c c' : Counters}
    (h : exec CountOp.run c ops = some c') : SameBalance c c' := by
  induction ops generalizing c with
  | nil =>
      cases h
      exact ⟨rfl, rfl⟩
  | cons op ops ih =>
      obtain ⟨mid, hop, hrest⟩ := exec_cons_inv h
      have hone := CountOp.balanced hop
      have hall := ih hrest
      have ht := hone.transient
      have ht' := hall.transient
      have hp := hone.pending
      have hp' := hall.pending
      constructor <;> omega

def ColdFill.counters (cf : ColdFill) : Counters where
  transientBytes := cf.transientBytes
  transientTotal := cf.transientTotal
  pendingBytes := cf.pendingBytes
  pendingTotal := cf.pendingTotal

/-! ### Charges -/

variable {i : Nat} {s : SlotInfo}

/-- What a slot's record is charged for: its size, when it is held beside the commits. -/
def SlotInfo.charge (s : SlotInfo) : Nat :=
  match s.transient, s.mem with
  | true, some m => m.length
  | _, _ => 0

def chargeOf : Option SlotInfo → Nat
  | none => 0
  | some s => s.charge

/-- What slot `i` is charged for. -/
def ColdFill.charge (cf : ColdFill) (i : Nat) : Nat := chargeOf (cf.info i)

theorem charge_of_not_transient (h : s.transient = false) : s.charge = 0 := by
  unfold SlotInfo.charge
  rw [h]

theorem chargeOf_of_not_transient (h : s.transient = false) :
    chargeOf (some s) = 0 := charge_of_not_transient h

@[simp] theorem chargeOf_none : chargeOf none = 0 := rfl

@[simp] theorem chargeOf_some (s : SlotInfo) : chargeOf (some s) = s.charge := rfl

theorem charge_getD (o : Option SlotInfo) : (o.getD {}).charge = chargeOf o := by
  cases o <;> rfl

/-- The books of a fill are right. -/
structure Ledger (cf : ColdFill) : Prop where
  transient : Total cf.charge cf.transientBytes
  limit : cf.transientBytes ≤ kTransientBytes
  transientOwn : cf.transientBytes ≤ cf.transientTotal
  pendingOwn : cf.pendingBytes ≤ cf.pendingTotal
  transientCap : cf.transientTotal ≤ kTransientCap
  pendingCap : cf.pendingTotal ≤ kPendingCap

/-- The books stay right, and the counters are what the accesses make of them, none of which takes
more than is there. -/
def Accounted (ops : List CountOp) (cf cf' : ColdFill) : Prop :=
  Ledger cf → Ledger cf' ∧ exec CountOp.run cf.counters ops = some cf'.counters

namespace Accounted

variable {ops ops' : List CountOp} {a b c : ColdFill}

theorem trans (h : Accounted ops a b) (h' : Accounted ops' b c) : Accounted (ops ++ ops') a c := by
  intro ha
  obtain ⟨hb, hops⟩ := h ha
  obtain ⟨hc, hops'⟩ := h' hb
  exact ⟨hc, exec_append hops hops'⟩

/-- Neither the counters nor what a slot is charged for changes. -/
theorem same (hcount : b.counters = a.counters) (hcharge : ∀ i, b.charge i = a.charge i) :
    Accounted [] a b := by
  intro ha
  obtain ⟨h1, h2, h3, h4⟩ := Counters.mk.inj hcount
  refine ⟨⟨?_, ?_, ?_, ?_, ?_, ?_⟩, by rw [hcount]; rfl⟩
  · rw [h1]
    exact ha.transient.congr hcharge
  · exact h1 ▸ ha.limit
  · rw [h1, h2]
    exact ha.transientOwn
  · rw [h3, h4]
    exact ha.pendingOwn
  · exact h2 ▸ ha.transientCap
  · exact h4 ▸ ha.pendingCap

theorem refl (a : ColdFill) : Accounted [] a a := same rfl fun _ => rfl

/-- The same accesses, where only what neither counts nor charges differs. -/
theorem withSame (h : Accounted ops a b) (hcount : c.counters = b.counters)
    (hcharge : ∀ i, c.charge i = b.charge i) : Accounted ops a c := by
  have hall := h.trans (same hcount hcharge)
  rwa [List.append_nil] at hall

/-- One record's charge becomes nothing, and what it was is given back. -/
theorem release {n : Nat} (hn : n = a.charge i) (hcount : b.counters = { a.counters with
      transientBytes := a.transientBytes - n, transientTotal := a.transientTotal - n })
    (hcharge : ∀ j, b.charge j = Function.update a.charge i 0 j) :
    Accounted [.subTransient n] a b := by
  intro ha
  obtain ⟨h1, h2, h3, h4⟩ := Counters.mk.inj hcount
  simp only [ColdFill.counters] at h3 h4
  have hle : n ≤ a.transientBytes := hn ▸ ha.transient.le i
  have hown := ha.transientOwn
  have hlimit := ha.limit
  have hcap := ha.transientCap
  refine ⟨⟨?_, by omega, by omega, ?_, by omega, ?_⟩, ?_⟩
  · have htotal := ha.transient.update i 0
    rw [Nat.add_zero, ← hn] at htotal
    rw [h1]
    exact htotal.congr hcharge
  · rw [h3, h4]
    exact ha.pendingOwn
  · exact h4 ▸ ha.pendingCap
  · have hfits : n ≤ a.counters.transientBytes ∧ n ≤ a.counters.transientTotal :=
      ⟨hle, Nat.le_trans hle hown⟩
    simp only [exec, CountOp.run, if_pos hfits, Option.bind_some, hcount]
    rfl

end Accounted

/-! ### The accesses of a section -/

variable {cf : ColdFill}

/-- [SRC ColdRun.cc:1700-1708] -/
def releaseCounts (s : SlotInfo) : List CountOp :=
  if s.transient && s.mem.isSome then [.subTransient s.charge] else []

/-- A loop over the elements of a list, each with its own accesses. -/
def foldCounts {S α : Type} (f : S → α → S) (counts : S → α → List CountOp) :
    S → List α → List CountOp
  | _, [] => []
  | s, x :: rest => counts s x ++ foldCounts f counts (f s x) rest

theorem Accounted.fold {S α : Type} {f : S → α → S} {counts : S → α → List CountOp}
    (view : S → ColdFill) (h : ∀ s x, Accounted (counts s x) (view s) (view (f s x)))
    (l : List α) (s : S) :
    Accounted (foldCounts f counts s l) (view s) (view (l.foldl f s)) := by
  induction l generalizing s with
  | nil => exact .refl (view s)
  | cons x rest ih => exact (h s x).trans (ih (f s x))

/-- While the books are right, all of a record's charge is given back. -/
theorem releaseMem_counters (hcf : Ledger cf) (hs : s.charge = cf.charge i) :
    (cf.releaseMem s).1.counters = { cf.counters with
      transientBytes := cf.transientBytes - s.charge
      transientTotal := cf.transientTotal - s.charge } := by
  have hle : s.charge ≤ cf.transientBytes := hs ▸ hcf.transient.le i
  have hown := hcf.transientOwn
  cases htrans : s.transient with
  | false => simp [ColdFill.releaseMem, ColdFill.counters, SlotInfo.charge, htrans]
  | true =>
      cases hmem : s.mem with
      | none => simp [ColdFill.releaseMem, ColdFill.counters, SlotInfo.charge, htrans, hmem]
      | some m =>
          have hm : s.charge = m.length := by simp [SlotInfo.charge, htrans, hmem]
          rw [hm] at hle
          have hmin : min m.length cf.transientTotal = m.length := Nat.min_eq_left (by omega)
          simp [ColdFill.releaseMem, ColdFill.counters, hm, htrans, hmem, Nat.min_eq_right hle,
            hmin]

/-- A slot's record is released, and what stands for the slot then is charged for nothing. -/
theorem accounted_release {cf' : ColdFill} {t : Option SlotInfo} (hs : s.charge = cf.charge i)
    (hcount : cf'.counters = (cf.releaseMem s).1.counters)
    (hinfo : cf'.info = Function.update cf.info i t) (ht : chargeOf t = 0) :
    Accounted (releaseCounts s) cf cf' := by
  have hcharge : ∀ j, cf'.charge j = Function.update cf.charge i 0 j := by
    intro j
    unfold ColdFill.charge
    rw [hinfo]
    by_cases hj : j = i
    · subst hj
      rw [Function.update_self, Function.update_self, ht]
    · rw [Function.update_of_ne hj, Function.update_of_ne hj]
  intro hcf
  rw [releaseMem_counters hcf hs] at hcount
  unfold releaseCounts
  split
  · exact Accounted.release hs hcount hcharge hcf
  · rename_i hkept
    have hzero : s.charge = 0 := by
      unfold SlotInfo.charge
      split
      · rename_i htrans hmem
        simp [htrans, hmem] at hkept
      · rfl
    refine Accounted.same ?_ (fun j => ?_) hcf
    · rw [hcount, hzero]
      rfl
    · rw [hcharge]
      by_cases hj : j = i
      · subst hj
        rw [Function.update_self, ← hs, hzero]
      · rw [Function.update_of_ne hj]

/-- [SRC ColdRun.cc:305-312] -/
def forgetCounts (cf : ColdFill) (i : Nat) : List CountOp :=
  match cf.info i with
  | none => []
  | some s => releaseCounts s

theorem accounted_forget (cf : ColdFill) (i : Nat) :
    Accounted (forgetCounts cf i) cf (cf.forget i) := by
  -- The state of the slot counts nothing.
  have hstate : ∀ cf₁, cf₁ = (if cf.state i = .ready then
      { cf with state := Function.update cf.state i .absent } else cf) →
      cf₁.info = cf.info ∧ cf₁.counters = cf.counters ∧
        ∀ s, (cf₁.releaseMem s).1.counters = (cf.releaseMem s).1.counters := by
    rintro cf₁ rfl
    split <;> exact ⟨rfl, rfl, fun _ => rfl⟩
  unfold ColdFill.forget forgetCounts
  simp only
  generalize hcf₁ : (if cf.state i = .ready then
      { cf with state := Function.update cf.state i .absent } else cf) = cf₁
  obtain ⟨hinfo, hcount, hrelease⟩ := hstate cf₁ hcf₁.symm
  rw [hinfo]
  cases hslot : cf.info i with
  | none =>
      refine .same hcount fun j => ?_
      unfold ColdFill.charge
      rw [hinfo]
  | some s =>
      refine accounted_release (i := i) (t := none) ?_ (hrelease s) ?_ rfl
      · unfold ColdFill.charge
        rw [hslot]
        rfl
      · simp only [ColdFill.releaseMem_info, hinfo]

/-- [SRC ColdRun.cc:202-213] -/
def goneCounts (cf : ColdFill) (rnt : Bool) (i : Nat) (has : Bool) : List CountOp :=
  if (cf.keptOriginalGone rnt i has).2 then forgetCounts cf i else []

theorem accounted_gone (cf : ColdFill) (rnt : Bool) (i : Nat) (has : Bool) :
    Accounted (goneCounts cf rnt i has) cf (cf.keptOriginalGone rnt i has).1 := by
  unfold goneCounts ColdFill.keptOriginalGone
  split
  · exact .refl cf
  · split
    · exact .refl cf
    · split
      · exact .refl cf
      · exact accounted_forget cf i

/-- [SRC ColdRun.cc:230-240] -/
def applyOneCounts (nslots : Nat) (st : ColdFill × List Wake) (e : SlotEntry) : List CountOp :=
  if nslots ≤ e.slot.toNat then [] else releaseCounts ((st.1.info e.slot.toNat).getD {})

def applyCounts (nslots : Nat) (cf : ColdFill) (es : List SlotEntry) : List CountOp :=
  foldCounts (ColdFill.applyOne nslots) (applyOneCounts nslots) (cf, []) es

theorem accounted_apply (nslots : Nat) (cf : ColdFill) (es : List SlotEntry) :
    Accounted (applyCounts nslots cf es) cf (cf.apply nslots es).1 := by
  refine Accounted.fold (S := ColdFill × List Wake) Prod.fst (fun st e => ?_) es (cf, [])
  unfold applyOneCounts ColdFill.applyOne
  simp only
  split
  · exact .refl st.1
  · -- The entry's record takes the place of what was held.
    have hrelease : ∀ cf', cf'.counters = (st.1.releaseMem
        ((st.1.info e.slot.toNat).getD {})).1.counters →
        ∀ s', s'.transient = false →
        cf'.info = Function.update st.1.info e.slot.toNat (some s') →
        Accounted (releaseCounts ((st.1.info e.slot.toNat).getD {})) st.1 cf' := by
      intro cf' hcount s' hs' hinfo
      exact accounted_release (charge_getD _) hcount hinfo (charge_of_not_transient hs')
    split
    · exact hrelease _ rfl _ rfl rfl
    · exact hrelease _ rfl _ rfl rfl

/-! ### Staging -/

/-- [SRC ColdRun.cc:1756-1760] The record of slot `j` goes to make room for that of slot `i`. -/
def dropped (cf : ColdFill) (i j : Nat) : Bool :=
  match cf.info j with
  | some s => decide (j ≠ i) && s.transient && !s.inStore
  | none => false

/-- [SRC ColdRun.cc:1749-1761] -/
def dropCounts (i b : Nat) : List Nat → ColdFill → List CountOp
  | [], _ => []
  | j :: rest, cf =>
      if kTransientBytes < cf.transientBytes + b ∨ kTransientCap < cf.transientTotal + b then
        (if dropped cf i j then forgetCounts cf j else []) ++
          dropCounts i b rest (if dropped cf i j then cf.forget j else cf)
      else []

/-- A turn forgets the record, or leaves everything. -/
theorem dropTransient_cons (i b j : Nat) (rest : List Nat) (cf : ColdFill) :
    ColdFill.dropTransient i b (j :: rest) cf =
      if kTransientBytes < cf.transientBytes + b ∨ kTransientCap < cf.transientTotal + b then
        ColdFill.dropTransient i b rest (if dropped cf i j then cf.forget j else cf)
      else { cf with transient := j :: rest } := by
  rw [ColdFill.dropTransient]
  congr 2
  unfold dropped
  by_cases hji : j = i
  · subst hji
    cases cf.info j <;> simp
  · cases cf.info j <;> simp [hji]

/-- Dropping never touches the record that is being staged. -/
theorem forget_info_ne (cf : ColdFill) {j : Nat} (hne : i ≠ j) :
    (cf.forget j).info i = cf.info i := by
  have hsame : (if cf.state j = .ready then
      { cf with state := Function.update cf.state j .absent } else cf).info = cf.info := by
    split <;> rfl
  unfold ColdFill.forget
  simp only [hsame]
  cases hslot : cf.info j with
  | none =>
      simp only
      rw [hsame]
  | some s =>
      simp only [ColdFill.releaseMem_info, hsame]
      rw [Function.update_of_ne hne]

theorem dropTransient_info (i b : Nat) (l : List Nat) (cf : ColdFill) :
    (ColdFill.dropTransient i b l cf).info i = cf.info i := by
  induction l generalizing cf with
  | nil => rfl
  | cons j rest ih =>
      rw [dropTransient_cons]
      split
      · rw [ih]
        split
        · rename_i hdrop
          refine forget_info_ne cf ?_
          rintro rfl
          unfold dropped at hdrop
          split at hdrop <;> simp at hdrop
        · rfl
      · rfl

theorem accounted_drop (i b : Nat) (l : List Nat) (cf : ColdFill) :
    Accounted (dropCounts i b l cf) cf (ColdFill.dropTransient i b l cf) := by
  induction l generalizing cf with
  | nil => exact .same rfl fun _ => rfl
  | cons j rest ih =>
      rw [dropTransient_cons, dropCounts]
      split
      · refine Accounted.trans ?_ (ih _)
        split
        · exact accounted_forget cf j
        · exact .refl cf
      · exact .same rfl fun _ => rfl

/-- A slot that was charged for nothing is charged for a record that both budgets have room for. -/
theorem accounted_add {cf' : ColdFill} {n : Nat} (hzero : cf.charge i = 0)
    (hroom : cf.transientBytes + n ≤ kTransientBytes) (hcap : cf.transientTotal + n ≤ kTransientCap)
    (hcount : cf'.counters = { cf.counters with
      transientBytes := cf.transientBytes + n, transientTotal := cf.transientTotal + n })
    (hcharge : ∀ j, cf'.charge j = Function.update cf.charge i n j) :
    Accounted [.addTransient n] cf cf' := by
  intro hcf
  obtain ⟨h1, h2, h3, h4⟩ := Counters.mk.inj hcount
  simp only [ColdFill.counters] at h3 h4
  have hown := hcf.transientOwn
  refine ⟨⟨?_, by omega, by omega, ?_, by omega, ?_⟩, ?_⟩
  · have htotal := hcf.transient.update i n
    rw [hzero, Nat.sub_zero] at htotal
    rw [h1]
    exact htotal.congr hcharge
  · rw [h3, h4]
    exact hcf.pendingOwn
  · exact h4 ▸ hcf.pendingCap
  · simp only [exec, CountOp.run, Option.bind_some, hcount]
    rfl

/-- A record more waits for a commit, where the process has room for it. -/
theorem accounted_pend {cf' : ColdFill} {n : Nat} (hcap : cf.pendingTotal + n ≤ kPendingCap)
    (hcount : cf'.counters = { cf.counters with
      pendingBytes := cf.pendingBytes + n, pendingTotal := cf.pendingTotal + n })
    (hcharge : ∀ j, cf'.charge j = cf.charge j) : Accounted [.addPending n] cf cf' := by
  intro hcf
  obtain ⟨h1, h2, h3, h4⟩ := Counters.mk.inj hcount
  simp only [ColdFill.counters] at h1 h2
  have hown := hcf.pendingOwn
  refine ⟨⟨?_, ?_, ?_, by omega, ?_, by omega⟩, ?_⟩
  · rw [h1]
    exact hcf.transient.congr hcharge
  · exact h1 ▸ hcf.limit
  · rw [h1, h2]
    exact hcf.transientOwn
  · exact h2 ▸ hcf.transientCap
  · simp only [exec, CountOp.run, Option.bind_some, hcount]
    rfl

/-- [SRC ColdRun.cc:1727-1728] A basket kept as stored whose original the byte cache has. -/
def inCache (rnt : Bool) (kind : BasketKind) (has : Bool) : Bool :=
  !rnt && decide (kind = .original) && has

/-- [SRC ColdRun.cc:1729] What a record counts for. -/
def stagedBytes (rnt : Bool) (kind : BasketKind) (record : Bytes) (has : Bool) : Nat :=
  if inCache rnt kind has then 0 else record.length

/-- [SRC ColdRun.cc:1736-1737] Whether a record of `b` bytes is to be committed. -/
def persists (cf : ColdFill) (b : Nat) : Bool :=
  !cf.storeGone && decide (cf.pendingTotal + b ≤ kPendingCap)

/-- What is known of a slot once it is staged anew. -/
def stagedInfo (cf : ColdFill) (i : Nat) (kind : BasketKind) (fromCache persist transient : Bool)
    (mem : Option Bytes) : SlotInfo :=
  { (cf.info i).getD {} with
    kind := kind
    fromCache := fromCache
    persist := persist
    transient := transient
    mem := mem }

/-- [SRC ColdRun.cc:1722-1737] The slot as it is once the older record is gone. -/
def restaged (cf : ColdFill) (i : Nat) (kind : BasketKind) (fromCache persist : Bool) : ColdFill :=
  { (cf.releaseMem ((cf.info i).getD {})).1 with
    info := Function.update cf.info i (some (stagedInfo cf i kind fromCache persist false none)) }

/-- [SRC ColdRun.cc:1762-1763] Both budgets have room. -/
def HasRoom (cf : ColdFill) (b : Nat) : Prop :=
  cf.transientBytes + b ≤ kTransientBytes ∧ cf.transientTotal + b ≤ kTransientCap

instance (cf : ColdFill) (b : Nat) : Decidable (HasRoom cf b) := instDecidableAnd

/-- [SRC ColdRun.cc:1715-1775] -/
def stageCounts (cf : ColdFill) (rnt : Bool) (i : Nat) (kind : BasketKind) (record : Bytes)
    (fromCache keepIt has : Bool) : List CountOp :=
  let s := (cf.info i).getD {}
  let b := stagedBytes rnt kind record has
  if s.inStore then []
  else if !keepIt then releaseCounts s
  else if persists cf b then releaseCounts s ++ [.addPending b]
  else if inCache rnt kind has then releaseCounts s
  else
    let cf₁ := restaged cf i kind fromCache (persists cf b)
    let cf₂ := ColdFill.dropTransient i b cf.transient cf₁
    releaseCounts s ++
      (dropCounts i b cf.transient cf₁ ++ if HasRoom cf₂ b then [.addTransient b] else [])

theorem accounted_restaged (cf : ColdFill) (i : Nat) (kind : BasketKind)
    (fromCache persist : Bool) :
    Accounted (releaseCounts ((cf.info i).getD {})) cf (restaged cf i kind fromCache persist) :=
  accounted_release (charge_getD _) rfl rfl
    (charge_of_not_transient (s := stagedInfo cf i kind fromCache persist false none) rfl)

/-- The branches of a staging, by what decides them. -/
theorem stageRecord_eq (cf : ColdFill) (rnt : Bool) (i : Nat) (kind : BasketKind) (record : Bytes)
    (fromCache keepIt has : Bool) :
    cf.stageRecord rnt i kind record fromCache keepIt has =
      let b := stagedBytes rnt kind record has
      let p := persists cf b
      let cf₁ := restaged cf i kind fromCache p
      let cf₂ := ColdFill.dropTransient i b cf.transient cf₁
      let mem := if inCache rnt kind has then none else some record
      if ((cf.info i).getD {}).inStore then
        ({ cf with info := Function.update cf.info i (some ((cf.info i).getD {})) }, true)
      else if !keepIt then ((cf.releaseMem ((cf.info i).getD {})).1, false)
      else if p then
        ({ cf₁ with
            info := Function.update cf.info i (some (stagedInfo cf i kind fromCache p false mem))
            pending := cf.pending ++ [i]
            pendingBytes := cf.pendingBytes + b
            pendingTotal := cf.pendingTotal + b },
          true)
      else if inCache rnt kind has then (cf₁, true)
      else if HasRoom cf₂ b then
        ({ cf₂ with
            info := Function.update cf₂.info i
              (some (stagedInfo cf i kind fromCache p true (some record)))
            transient := cf₂.transient ++ [i]
            transientBytes := cf₂.transientBytes + b
            transientTotal := cf₂.transientTotal + b },
          true)
      else (cf₂, false) := rfl

theorem stagedInfo_charge (cf : ColdFill) (i : Nat) (kind : BasketKind) (fromCache persist : Bool)
    (mem : Option Bytes) : (stagedInfo cf i kind fromCache persist false mem).charge = 0 :=
  charge_of_not_transient rfl

theorem restaged_info (cf : ColdFill) (i : Nat) (kind : BasketKind) (fromCache persist : Bool) :
    (restaged cf i kind fromCache persist).info = Function.update cf.info i
      (some (stagedInfo cf i kind fromCache persist false none)) := rfl

theorem restaged_charge (cf : ColdFill) (i : Nat) (kind : BasketKind)
    (fromCache persist : Bool) : (restaged cf i kind fromCache persist).charge i = 0 := by
  unfold ColdFill.charge
  rw [restaged_info, Function.update_self, chargeOf_some, stagedInfo_charge]

/-- A slot's record is put in the place of one that is charged for as much. -/
theorem charge_update {info : Nat → Option SlotInfo} {t : Option SlotInfo}
    (hinfo : info = Function.update cf.info i t) (j : Nat) :
    chargeOf (info j) = Function.update cf.charge i (chargeOf t) j := by
  rw [hinfo]
  by_cases hj : j = i
  · subst hj
    rw [Function.update_self, Function.update_self]
  · rw [Function.update_of_ne hj, Function.update_of_ne hj]
    rfl

theorem charge_update_same {cf cf' : ColdFill} {i : Nat} {t : Option SlotInfo}
    (hinfo : cf'.info = Function.update cf.info i t) (ht : chargeOf t = cf.charge i) (j : Nat) :
    cf'.charge j = cf.charge j := by
  refine (charge_update hinfo j).trans ?_
  rw [ht, Function.update_eq_self]

/-- The slot of a record that is not kept is left empty. -/
def settled (r : ColdFill × Bool) (i : Nat) : ColdFill :=
  if r.2 then r.1 else { r.1 with info := Function.update r.1.info i none }

theorem stage_settled (cf : ColdFill) (rnt : Bool) (i : Nat) (kind : BasketKind) (record : Bytes)
    (fromCache keepIt has : Bool) :
    let r := cf.stageRecord rnt i kind record fromCache keepIt has
    (cf.stage rnt i kind record fromCache keepIt has).1.counters = (settled r i).counters ∧
      (cf.stage rnt i kind record fromCache keepIt has).1.info = (settled r i).info := by
  intro r
  unfold ColdFill.stage ColdFill.takeWaiters settled
  simp only
  change (if r.2 = true then _ else _ : ColdFill × List Wake).1.counters = _ ∧
    (if r.2 = true then _ else _ : ColdFill × List Wake).1.info = _
  cases r.2 <;> exact ⟨rfl, rfl⟩

theorem accounted_stageRecord (cf : ColdFill) (rnt : Bool) (i : Nat) (kind : BasketKind)
    (record : Bytes) (fromCache keepIt has : Bool) :
    Accounted (stageCounts cf rnt i kind record fromCache keepIt has) cf
      (settled (cf.stageRecord rnt i kind record fromCache keepIt has) i) := by
  rw [stageRecord_eq]
  unfold stageCounts
  simp only
  have hrestaged := accounted_restaged cf i kind fromCache
    (persists cf (stagedBytes rnt kind record has))
  by_cases hin : ((cf.info i).getD {}).inStore = true
  · -- Someone committed it meanwhile.
    rw [if_pos hin, if_pos hin]
    exact .same rfl (charge_update_same rfl (charge_getD _))
  rw [if_neg hin, if_neg hin]
  by_cases hkeep : (!keepIt) = true
  · rw [if_pos hkeep, if_pos hkeep]
    exact accounted_release (charge_getD _) rfl rfl rfl
  rw [if_neg hkeep, if_neg hkeep]
  generalize hb : stagedBytes rnt kind record has = b at *
  generalize hp : persists cf b = p at *
  cases p with
  | true =>
      rw [if_pos rfl, if_pos rfl]
      unfold persists at hp
      simp only [Bool.and_eq_true, decide_eq_true_eq] at hp
      refine hrestaged.trans (accounted_pend hp.2 rfl fun j => ?_)
      refine @charge_update_same (restaged cf i kind fromCache true) _ i
        (some (stagedInfo cf i kind fromCache true false
          (if inCache rnt kind has then none else some record)))
        (Function.update_idem ..).symm ?_ j
      rw [restaged_charge, chargeOf_some, stagedInfo_charge]
  | false =>
      rw [if_neg Bool.false_ne_true, if_neg Bool.false_ne_true]
      by_cases hcache : inCache rnt kind has = true
      · rw [if_pos hcache, if_pos hcache]
        exact hrestaged
      · rw [if_neg hcache, if_neg hcache]
        refine hrestaged.trans (Accounted.trans (accounted_drop i b cf.transient _) ?_)
        have hslot : (ColdFill.dropTransient i b cf.transient
            (restaged cf i kind fromCache false)).charge i = 0 := by
          unfold ColdFill.charge
          rw [dropTransient_info]
          exact restaged_charge cf i kind fromCache false
        have hbytes : b = record.length := by
          rw [← hb]
          exact if_neg hcache
        generalize ColdFill.dropTransient i b cf.transient
          (restaged cf i kind fromCache false) = cf₂ at hslot ⊢
        by_cases hroom : HasRoom cf₂ b
        · rw [if_pos hroom, if_pos hroom]
          refine accounted_add hslot hroom.1 hroom.2 rfl fun j => ?_
          rw [hbytes]
          exact charge_update rfl j
        · rw [if_neg hroom, if_neg hroom]
          exact .same rfl (charge_update_same rfl hslot.symm)

theorem accounted_stage (cf : ColdFill) (rnt : Bool) (i : Nat) (kind : BasketKind)
    (record : Bytes) (fromCache keepIt has : Bool) :
    Accounted (stageCounts cf rnt i kind record fromCache keepIt has) cf
      (cf.stage rnt i kind record fromCache keepIt has).1 := by
  obtain ⟨hcount, hinfo⟩ := stage_settled cf rnt i kind record fromCache keepIt has
  refine (accounted_stageRecord cf rnt i kind record fromCache keepIt has).withSame hcount
    fun j => ?_
  unfold ColdFill.charge
  rw [hinfo]

/-! ### Committing -/

/-- [SRC ColdRun.cc:1927-1950] -/
def pendingCounts (st : ColdFill × List Collected) (i : Nat) : List CountOp :=
  match st.1.info i with
  | none => []
  | some s => if s.inStore then releaseCounts s else []

/-- [SRC ColdRun.cc:1954-1970] -/
def transientCounts (st : ColdFill × List Collected) (j : Nat) : List CountOp :=
  match st.1.info j with
  | none => []
  | some s => if !s.transient ∨ s.mem = none ∨ s.inStore then [] else releaseCounts s

/-- The fill once no record waits for a commit. -/
def unpended (cf : ColdFill) : ColdFill :=
  { cf with
    pending := []
    pendingTotal := cf.pendingTotal - cf.pendingBytes
    pendingBytes := 0 }

/-- [SRC ColdRun.cc:1924-1971] -/
def collectCounts (cf : ColdFill) : List CountOp :=
  let st := cf.pending.foldl ColdFill.collectPending (cf, [])
  foldCounts ColdFill.collectPending pendingCounts (cf, []) cf.pending ++
    ([.subPending st.1.pendingBytes] ++
      if st.1.storeGone then []
      else foldCounts ColdFill.collectTransient transientCounts (unpended st.1, st.2)
        st.1.transient)

theorem charge_of_info (h : cf.info i = some s) : s.charge = cf.charge i := by
  unfold ColdFill.charge
  rw [h]
  rfl

theorem accounted_collectPending (st : ColdFill × List Collected) (i : Nat) :
    Accounted (pendingCounts st i) st.1 (ColdFill.collectPending st i).1 := by
  unfold pendingCounts ColdFill.collectPending
  simp only
  cases hslot : st.1.info i with
  | none => exact .refl st.1
  | some s =>
      have hs := charge_of_info hslot
      simp only
      split
      · exact accounted_release (s := s) hs rfl rfl (chargeOf_of_not_transient rfl)
      · split
        · exact .refl st.1
        · exact .same rfl (charge_update_same rfl hs)

theorem accounted_collectTransient (st : ColdFill × List Collected) (j : Nat) :
    Accounted (transientCounts st j) st.1 (ColdFill.collectTransient st j).1 := by
  unfold transientCounts ColdFill.collectTransient
  simp only
  cases hslot : st.1.info j with
  | none => exact .refl st.1
  | some s =>
      simp only
      split
      · exact .refl st.1
      · -- Out of the budget, and held all the same.
        exact accounted_release (charge_of_info hslot) rfl rfl (chargeOf_of_not_transient rfl)

theorem accounted_unpended (cf : ColdFill) :
    Accounted [.subPending cf.pendingBytes] cf (unpended cf) := by
  intro hcf
  have hown := hcf.pendingOwn
  have hcap := hcf.pendingCap
  refine ⟨⟨hcf.transient, hcf.limit, hcf.transientOwn, Nat.zero_le _, hcf.transientCap, ?_⟩, ?_⟩
  · simp only [unpended]
    omega
  · have hfits : cf.pendingBytes ≤ cf.counters.pendingBytes ∧
        cf.pendingBytes ≤ cf.counters.pendingTotal := ⟨Nat.le_refl _, hown⟩
    simp only [exec, CountOp.run, if_pos hfits, Option.bind_some]
    simp [ColdFill.counters, unpended]

theorem accounted_collect (cf : ColdFill) : Accounted (collectCounts cf) cf cf.collect.1 := by
  unfold collectCounts ColdFill.collect
  simp only
  refine (Accounted.fold Prod.fst accounted_collectPending cf.pending (cf, [])).trans ?_
  generalize cf.pending.foldl ColdFill.collectPending (cf, []) = st
  refine (accounted_unpended st.1).trans ?_
  by_cases hgone : st.1.storeGone = true
  · rw [if_pos hgone, if_pos hgone]
    exact .refl (unpended st.1)
  · rw [if_neg hgone, if_neg hgone]
    exact (Accounted.fold Prod.fst accounted_collectTransient st.1.transient
      (unpended st.1, st.2)).withSame rfl fun _ => rfl

/-- [SRC ColdRun.cc:1889-1895] -/
def releaseCollectedCounts (cf : ColdFill) (r : Collected) : List CountOp :=
  match cf.info r.slot with
  | some s => if !s.inStore && !s.persist then forgetCounts cf r.slot else []
  | none => []

theorem accounted_releaseCollected (cf : ColdFill) (recs : List Collected) :
    Accounted (foldCounts (fun cf r => cf.releaseCollected [r]) releaseCollectedCounts cf recs) cf
      (cf.releaseCollected recs) := by
  have hone : ∀ (cf : ColdFill) (r : Collected),
      Accounted (releaseCollectedCounts cf r) cf (cf.releaseCollected [r]) := by
    intro cf r
    unfold releaseCollectedCounts
    change Accounted _ cf (match cf.info r.slot with
      | some s => if !s.inStore && !s.persist then cf.forget r.slot else cf
      | none => cf)
    cases cf.info r.slot with
    | none => exact .refl cf
    | some s =>
        simp only
        split
        · exact accounted_forget cf r.slot
        · exact .refl cf
  exact Accounted.fold id hone recs cf

/-- [SRC ColdRun.cc:2022-2039] -/
def noteEntryCounts (cf : ColdFill) (e : SlotEntry) : List CountOp :=
  match cf.info e.slot.toNat with
  | none => []
  | some s => releaseCounts s

/-- [SRC ColdRun.cc:2040-2046] -/
def noteSkippedCounts (cf : ColdFill) (r : Collected) : List CountOp :=
  match cf.info r.slot with
  | none => []
  | some s => if s.inStore then releaseCounts s else []

theorem accounted_noteEntry (cf : ColdFill) (e : SlotEntry) :
    Accounted (noteEntryCounts cf e) cf (cf.noteEntry e) := by
  unfold noteEntryCounts ColdFill.noteEntry
  simp only
  cases hslot : cf.info e.slot.toNat with
  | none => exact .refl cf
  | some s =>
      simp only
      exact accounted_release (s := s) (charge_of_info hslot) rfl rfl
        (chargeOf_of_not_transient rfl)

theorem accounted_notePunch (cx : ReleaseCx) (st : ColdFill × List (Nat × Nat)) (e : SlotEntry) :
    Accounted (noteEntryCounts st.1 e) st.1 (notePunch cx st e).1 := by
  have hfst : (notePunch cx st e).1 = st.1.noteEntry e := by
    unfold notePunch ColdFill.noteEntry
    simp only
    cases st.1.info e.slot.toNat <;> rfl
  rw [hfst]
  exact accounted_noteEntry st.1 e

theorem accounted_noteSkipped (cf : ColdFill) (r : Collected) :
    Accounted (noteSkippedCounts cf r) cf (cf.noteSkipped r) := by
  unfold noteSkippedCounts ColdFill.noteSkipped
  cases hslot : cf.info r.slot with
  | none => exact .refl cf
  | some s =>
      simp only
      split
      · exact accounted_release (s := s) (charge_of_info hslot) rfl rfl
          (chargeOf_of_not_transient rfl)
      · exact .refl cf

/-! ### A step -/

/-- The records that a commit which gives up had collected. -/
def CommitPhase.recs : CommitPhase → List Collected
  | .collected recs => recs
  | .checking _ _ recs => recs
  | .landed _ recs => recs
  | _ => []

/-- The accesses of a step to the counters, in the order of the source. -/
def ReleaseAct.countOps (cx : ReleaseCx) (s : ReleaseWorld) : ReleaseAct → List CountOp
  | .others _ => []
  | .sync es => applyCounts cx.L.slots.length s.cf es
  | .stage i kind record fromCache keepIt has =>
      stageCounts s.cf cx.rnt i kind record fromCache keepIt has
  | .forget i => forgetCounts s.cf i
  | .keptOriginalGone i has => goneCounts s.cf cx.rnt i has
  | .abandon _ => []
  | .claimOrWait _ _ => []
  | .collect => collectCounts s.cf
  | .giveUp stale =>
      foldCounts (fun cf r => cf.releaseCollected [r]) releaseCollectedCounts
        (if stale then { s.cf with storeGone := true } else s.cf) s.commit.recs
  | .lock es => applyCounts cx.L.slots.length s.cf es
  | .taken => []
  | .write _ _ _ => []
  | .note =>
      match s.commit with
      | .landed committed recs =>
          foldCounts (notePunch cx) (fun st => noteEntryCounts st.1) (s.cf, []) committed ++
            foldCounts ColdFill.noteSkipped noteSkippedCounts
              (committed.foldl (notePunch cx) (s.cf, [])).1 recs
      | _ => []
  | .applyForgotten =>
      match s.commit with
      | .noted _ forgotten => applyCounts cx.L.slots.length s.cf forgotten
      | _ => []
  | .widen => []
  | .release => []

theorem accounted_gaveUp (s : ReleaseWorld) (stale : Bool) (recs : List Collected) :
    Accounted (foldCounts (fun cf r => cf.releaseCollected [r]) releaseCollectedCounts
        (if stale then { s.cf with storeGone := true } else s.cf) recs)
      s.cf (s.gaveUp stale recs).cf := by
  have hgone : Accounted [] s.cf (if stale then { s.cf with storeGone := true } else s.cf) := by
    cases stale
    · exact .refl s.cf
    · exact .same rfl fun _ => rfl
  exact hgone.trans (accounted_releaseCollected _ recs)

/-- Every step keeps the books, and takes no more from a counter than is there. -/
theorem step_accounted {cx : ReleaseCx} {s s' : ReleaseWorld} {a : ReleaseAct}
    (h : s.step cx a = some s') : Accounted (a.countOps cx s) s.cf s'.cf := by
  cases a with
  | others es =>
      cases h
      exact .refl s.cf
  | sync es =>
      simp only [ReleaseWorld.step, Option.ite_none_right_eq_some, Option.some.injEq] at h
      obtain ⟨-, rfl⟩ := h
      exact accounted_apply cx.L.slots.length s.cf es
  | stage i kind record fromCache keepIt has =>
      cases h
      exact accounted_stage s.cf cx.rnt i kind record fromCache keepIt has
  | forget i =>
      cases h
      exact accounted_forget s.cf i
  | keptOriginalGone i has =>
      cases h
      exact accounted_gone s.cf cx.rnt i has
  | abandon i =>
      cases h
      refine .same ?_ fun j => ?_
      · unfold ColdFill.abandon ColdFill.takeWaiters
        simp only
        split <;> rfl
      · unfold ColdFill.abandon ColdFill.takeWaiters
        simp only
        split <;> rfl
  | claimOrWait i request =>
      cases h
      refine .same ?_ fun j => ?_
      · unfold ColdFill.claimOrWait
        split <;> rfl
      · unfold ColdFill.claimOrWait
        split <;> rfl
  | collect =>
      cases hc : s.commit with
      | idle =>
          simp only [ReleaseWorld.step, hc, Option.some.injEq] at h
          cases h
          exact accounted_collect s.cf
      | _ => simp [ReleaseWorld.step, hc] at h
  | giveUp stale =>
      cases hc : s.commit with
      | collected recs =>
          simp only [ReleaseWorld.step, hc, Option.some.injEq] at h
          cases h
          simpa only [ReleaseAct.countOps, hc, CommitPhase.recs] using accounted_gaveUp s stale recs
      | checking todo write recs =>
          simp only [ReleaseWorld.step, hc, Option.some.injEq] at h
          cases h
          simpa only [ReleaseAct.countOps, hc, CommitPhase.recs] using accounted_gaveUp s stale recs
      | _ => simp [ReleaseWorld.step, hc] at h
  | lock es =>
      cases hc : s.commit with
      | collected recs =>
          simp only [ReleaseWorld.step, hc, Option.ite_none_right_eq_some, Option.some.injEq] at h
          obtain ⟨-, rfl⟩ := h
          exact accounted_apply cx.L.slots.length s.cf es
      | _ => simp [ReleaseWorld.step, hc] at h
  | taken =>
      refine .same ?_ fun j => ?_ <;>
        (unfold ReleaseWorld.step at h; simp only at h; split at h <;> cases h; rfl)
  | write storeId base at_ =>
      refine .same ?_ fun j => ?_ <;>
        (unfold ReleaseWorld.step at h; simp only at h; split at h <;> cases h; rfl)
  | note =>
      cases hc : s.commit with
      | landed committed recs =>
          simp only [ReleaseWorld.step, hc, Option.some.injEq] at h
          cases h
          simp only [ReleaseAct.countOps, hc]
          exact (Accounted.fold Prod.fst (accounted_notePunch cx) committed (s.cf, [])).trans
            (Accounted.fold id accounted_noteSkipped recs _)
      | _ => simp [ReleaseWorld.step, hc] at h
  | applyForgotten =>
      cases hc : s.commit with
      | noted punch forgotten =>
          simp only [ReleaseWorld.step, hc, Option.some.injEq] at h
          cases h
          simp only [ReleaseAct.countOps, hc]
          exact accounted_apply cx.L.slots.length s.cf forgotten
      | _ => simp [ReleaseWorld.step, hc] at h
  | widen =>
      refine .same ?_ fun j => ?_ <;>
        (unfold ReleaseWorld.step at h; simp only at h; split at h <;> cases h; rfl)
  | release =>
      refine .same ?_ fun j => ?_ <;>
        (unfold ReleaseWorld.step at h; simp only at h; split at h <;> cases h; rfl)

end UCache
