/-
Module: UCache.Plugin.FillProcess
Purpose: The fills of one process and the two totals they share: whatever the order of their
  sections, the counters are what the records take, and the totals are the sums over the fills.
Trusted boundary: none
Main exports: Fill, FillProcess, slot_memory_accounted
-/
import UCache.Plugin.FillQueue

namespace UCache

open Lib

/-! ### The process -/

/-- A file's run, what its commits work with, and (a ghost) the sizes of the records staged since
the last commit collected. -/
structure Fill where
  cx : ReleaseCx
  run : ReleaseWorld := {}
  queue : List (Nat × Nat) := []

/-- [SRC ColdRun.cc:1671, 1677] The fills that are alive and the totals of the process. -/
structure FillProcess where
  fills : Nat → Option Fill := fun _ => none
  pendingTotal : Nat := 0
  transientTotal : Nat := 0

inductive FillAct where
  | attach (k : Nat) (cx : ReleaseCx)
  /-- a section of one fill -/
  | act (k : Nat) (a : ReleaseAct)
  | destroy (k : Nat)

namespace FillProcess

/-- A fill's run as a section finds it: the totals are those of the process. -/
def load (p : FillProcess) (f : Fill) : ReleaseWorld :=
  { f.run with
    cf := { f.run.cf with
      pendingTotal := p.pendingTotal
      transientTotal := p.transientTotal } }

/-- One section.  A fill goes when nothing runs in it any more. -/
def step (p : FillProcess) : FillAct → Option FillProcess
  | .attach k cx =>
      match p.fills k with
      | none => some { p with fills := Function.update p.fills k (some { cx := cx }) }
      | some _ => none
  | .act k a =>
      match p.fills k with
      | none => none
      | some f =>
          ((p.load f).step f.cx a).map fun run =>
            { fills := Function.update p.fills k
                (some { f with run := run, queue := queueAfter f.cx (p.load f) f.queue a })
              pendingTotal := run.cf.pendingTotal
              transientTotal := run.cf.transientTotal }
  -- [SRC ColdRun.cc:1686-1689]
  | .destroy k =>
      match p.fills k with
      | none => none
      | some f =>
          match f.run.commit with
          | .idle => some
              { fills := Function.update p.fills k none
                pendingTotal := p.pendingTotal - min f.run.cf.pendingBytes p.pendingTotal
                transientTotal := p.transientTotal - min f.run.cf.transientBytes p.transientTotal }
          | _ => none

/-- What fill `k` counts, by one of its counters. -/
def own (p : FillProcess) (count : ColdFill → Nat) (k : Nat) : Nat :=
  match p.fills k with
  | some f => count f.run.cf
  | none => 0

end FillProcess

/-! ### The books of the process -/

/-- The books of every fill are right, and the totals are the sums over the fills. -/
structure Books (p : FillProcess) : Prop where
  charged : ∀ k f, p.fills k = some f → Total f.run.cf.charge f.run.cf.transientBytes
  limit : ∀ k f, p.fills k = some f → f.run.cf.transientBytes ≤ kTransientBytes
  queued : ∀ k f, p.fills k = some f → Queued f.queue f.run.cf
  transient : Total (p.own ColdFill.transientBytes) p.transientTotal
  pending : Total (p.own ColdFill.pendingBytes) p.pendingTotal
  transientCap : p.transientTotal ≤ kTransientCap
  pendingCap : p.pendingTotal ≤ kPendingCap

namespace Books

variable {p p' : FillProcess} {f : Fill} {k : Nat}

theorem start : Books {} where
  charged := fun k f h => by cases h
  limit := fun k f h => by cases h
  queued := fun k f h => by cases h
  transient := .zero
  pending := .zero
  transientCap := Nat.zero_le _
  pendingCap := Nat.zero_le _

theorem own_le (h : Books p) (hf : p.fills k = some f) :
    f.run.cf.transientBytes ≤ p.transientTotal ∧ f.run.cf.pendingBytes ≤ p.pendingTotal := by
  have ht := h.transient.le k
  have hp := h.pending.le k
  unfold FillProcess.own at ht hp
  rw [hf] at ht hp
  exact ⟨ht, hp⟩

theorem ledger (h : Books p) (hf : p.fills k = some f) : Ledger (p.load f).cf where
  transient := h.charged k f hf
  limit := h.limit k f hf
  transientOwn := (h.own_le hf).1
  pendingOwn := (h.own_le hf).2
  transientCap := h.transientCap
  pendingCap := h.pendingCap

theorem load_queued (h : Books p) (hf : p.fills k = some f) : Queued f.queue (p.load f).cf := by
  have hq := h.queued k f hf
  refine ⟨hq.slots, hq.bytes, fun i s hi hs => ?_⟩
  have hwaits := hq.waits i s hi hs
  exact ⟨hwaits.ready, hwaits.fresh, hwaits.apart, hwaits.backed, hwaits.staged⟩

/-- What holds of every fill still does when one is changed. -/
theorem of_update {P : Fill → Prop} {fills : Nat → Option Fill} {f' : Option Fill}
    (h : ∀ k f, fills k = some f → P f) (hnew : ∀ f, f' = some f → P f) :
    ∀ j f, Function.update fills k f' j = some f → P f := by
  intro j f hj
  by_cases hjk : j = k
  · subst hjk
    rw [Function.update_self] at hj
    exact hnew f hj
  · rw [Function.update_of_ne hjk] at hj
    exact h j f hj

/-- The sum when one fill is changed. -/
theorem own_update {count : ColdFill → Nat} {n : Nat} {f' : Option Fill} (h : Total (p.own count) n)
    (hfills : p'.fills = Function.update p.fills k f') :
    Total (p'.own count) (n - p.own count k + (f'.map fun f => count f.run.cf).getD 0) := by
  refine (h.update k _).congr fun j => ?_
  unfold FillProcess.own
  rw [hfills]
  by_cases hjk : j = k
  · subst hjk
    rw [Function.update_self, Function.update_self]
    cases f' <;> rfl
  · rw [Function.update_of_ne hjk, Function.update_of_ne hjk]

theorem own_some {count : ColdFill → Nat} (hf : p.fills k = some f) :
    p.own count k = count f.run.cf := by
  unfold FillProcess.own
  rw [hf]

/-- A total that grew by what the fill's counter grew by. -/
theorem own_set {count : ColdFill → Nat} {n n' : Nat} {f' : Option Fill} (h : Total (p.own count) n)
    (hfills : p'.fills = Function.update p.fills k f')
    (hn : n' + p.own count k = n + (f'.map fun f => count f.run.cf).getD 0) :
    Total (p'.own count) n' := by
  have hle := h.le k
  have htotal := own_update h hfills
  have heq : n - p.own count k + (f'.map fun f => count f.run.cf).getD 0 = n' := by omega
  rwa [heq] at htotal

theorem own_none {count : ColdFill → Nat} (hf : p.fills k = none) : p.own count k = 0 := by
  unfold FillProcess.own
  rw [hf]

theorem attached (h : Books p) (hnone : p.fills k = none) (cx : ReleaseCx) :
    Books { p with fills := Function.update p.fills k (some { cx := cx }) } := by
  refine ⟨of_update h.charged ?_, of_update h.limit ?_, of_update h.queued ?_,
    own_set h.transient rfl ?_, own_set h.pending rfl ?_, h.transientCap, h.pendingCap⟩
  · rintro f ⟨⟩
    exact .zero
  · rintro f ⟨⟩
    exact Nat.zero_le _
  · rintro f ⟨⟩
    exact ⟨rfl, rfl, fun i s hi => by cases hi⟩
  · rw [own_none hnone]
    rfl
  · rw [own_none hnone]
    rfl

/-- A section of one fill moves the totals by as much as the fill's own counters. -/
theorem acted (h : Books p) (hf : p.fills k = some f) {a : ReleaseAct} {run : ReleaseWorld}
    (hrun : (p.load f).step f.cx a = some run) :
    Books
      { fills := Function.update p.fills k
          (some { f with run := run, queue := queueAfter f.cx (p.load f) f.queue a })
        pendingTotal := run.cf.pendingTotal
        transientTotal := run.cf.transientTotal } := by
  obtain ⟨hledger, hops⟩ := step_accounted hrun (h.ledger hf)
  have hbalance := balanced_exec hops
  refine ⟨of_update h.charged ?_, of_update h.limit ?_, of_update h.queued ?_,
    own_set h.transient rfl ?_, own_set h.pending rfl ?_, hledger.transientCap,
    hledger.pendingCap⟩
  · rintro f' ⟨⟩
    exact hledger.transient
  · rintro f' ⟨⟩
    exact hledger.limit
  · rintro f' ⟨⟩
    exact queued_step (h.load_queued hf) hrun
  · rw [own_some hf]
    exact hbalance.transient
  · rw [own_some hf]
    exact hbalance.pending

/-- A fill that goes takes with it what it counts. -/
theorem destroyed (h : Books p) (hf : p.fills k = some f) :
    Books
      { fills := Function.update p.fills k none
        pendingTotal := p.pendingTotal - min f.run.cf.pendingBytes p.pendingTotal
        transientTotal := p.transientTotal - min f.run.cf.transientBytes p.transientTotal } := by
  obtain ⟨htransient, hpending⟩ := h.own_le hf
  have hcap := h.transientCap
  have hcap' := h.pendingCap
  refine ⟨of_update h.charged (by simp), of_update h.limit (by simp), of_update h.queued (by simp),
    own_set h.transient rfl ?_, own_set h.pending rfl ?_, ?_, ?_⟩
  · rw [own_some hf, Nat.min_eq_left htransient]
    simp only [Option.map_none, Option.getD_none]
    omega
  · rw [own_some hf, Nat.min_eq_left hpending]
    simp only [Option.map_none, Option.getD_none]
    omega
  · simp only
    omega
  · simp only
    omega

/-- Every section keeps the books. -/
theorem step (h : Books p) {a : FillAct} (hstep : p.step a = some p') : Books p' := by
  cases a with
  | attach k cx =>
      cases hf : p.fills k with
      | none =>
          simp only [FillProcess.step, hf, Option.some.injEq] at hstep
          exact hstep ▸ h.attached hf cx
      | some f => simp [FillProcess.step, hf] at hstep
  | act k a =>
      cases hf : p.fills k with
      | none => simp [FillProcess.step, hf] at hstep
      | some f =>
          simp only [FillProcess.step, hf, Option.map_eq_some_iff] at hstep
          obtain ⟨run, hrun, rfl⟩ := hstep
          exact h.acted hf hrun
  | destroy k =>
      cases hf : p.fills k with
      | none => simp [FillProcess.step, hf] at hstep
      | some f =>
          cases hc : f.run.commit with
          | idle =>
              simp only [FillProcess.step, hf, hc, Option.some.injEq] at hstep
              exact hstep ▸ h.destroyed hf
          | _ => simp [FillProcess.step, hf, hc] at hstep

/-- In every run. -/
theorem of_run {acts : List FillAct} (hrun : exec FillProcess.step {} acts = some p) : Books p :=
  exec_invariant Books (fun _ _ _ h hstep => h.step hstep) Books.start hrun

end Books

/-! ### What the counters are -/

/-- The counters of a fill, in a process. -/
structure FillCounted (p : FillProcess) (f : Fill) : Prop where
  /-- The transient records, all of them and with their sizes. -/
  transient : Total f.run.cf.charge f.run.cf.transientBytes
  limit : f.run.cf.transientBytes ≤ kTransientBytes
  /-- The sizes with which records were staged since the last commit collected. -/
  slots : f.queue.map Prod.fst = f.run.cf.pending
  staged : (f.queue.map Prod.snd).sum = f.run.cf.pendingBytes
  /-- Never less than what is staged and not committed, and no more while every staging stands. -/
  enough : ∀ m, Total f.run.cf.uncommitted m → m ≤ f.run.cf.pendingBytes
  exact_ : f.run.cf.pending.Nodup →
    (∀ i ∈ f.run.cf.pending, ∃ s, f.run.cf.info i = some s ∧ s.persist = true) →
      Total f.run.cf.uncommitted f.run.cf.pendingBytes
  /-- No section takes more from a counter than is there, and neither does the end of the fill. -/
  sections : ∀ a run, (p.load f).step f.cx a = some run →
    exec CountOp.run (p.load f).cf.counters (a.countOps f.cx (p.load f)) = some run.cf.counters
  atEnd : f.run.cf.transientBytes ≤ p.transientTotal ∧ f.run.cf.pendingBytes ≤ p.pendingTotal

/-- [SRC ColdRun.cc:1686-1791, 1886-1971] In every run over any fills of a process the counters are
what the records take, and the totals are the sums over the fills alive. -/
theorem slot_memory_accounted {acts : List FillAct} {p : FillProcess}
    (hrun : exec FillProcess.step {} acts = some p) :
    (∀ k f, p.fills k = some f → FillCounted p f) ∧
      Total (p.own ColdFill.transientBytes) p.transientTotal ∧
      Total (p.own ColdFill.pendingBytes) p.pendingTotal := by
  have hbooks := Books.of_run hrun
  refine ⟨fun k f hf => ?_, hbooks.transient, hbooks.pending⟩
  have hqueued := hbooks.queued k f hf
  exact {
    transient := hbooks.charged k f hf
    limit := hbooks.limit k f hf
    slots := hqueued.slots
    staged := hqueued.bytes
    enough := fun m hm => hqueued.uncommitted_le hm
    exact_ := hqueued.uncommitted_eq
    sections := fun a run hstep => (step_accounted hstep (hbooks.ledger hf)).2
    atEnd := hbooks.own_le hf }

/-- One fill stages a record of three bytes for slot 0. -/
def stagedOnce : List FillAct :=
  [.attach 0 meetingBaskets, .act 0 (.claimOrWait 0 0),
    .act 0 (.stage 0 .raw [1, 2, 3] false true false)]

/-- What a run leaves of the fill 0. -/
def fillZero (acts : List FillAct) : Option (List Nat × Nat × Nat × Bool) :=
  (exec FillProcess.step {} acts).bind fun p => (p.fills 0).map fun f =>
    (f.run.cf.pending, f.run.cf.pendingBytes, p.pendingTotal, (f.run.cf.info 0).isNone)

theorem fillZero_eq {acts : List FillAct} {pending : List Nat} {bytes total : Nat} {none_ : Bool}
    (h : fillZero acts = some (pending, bytes, total, none_)) :
    ∃ p f, exec FillProcess.step {} acts = some p ∧ p.fills 0 = some f ∧
      f.run.cf.pending = pending ∧ f.run.cf.pendingBytes = bytes ∧ p.pendingTotal = total ∧
      (f.run.cf.info 0).isNone = none_ := by
  obtain ⟨p, hrun, hp⟩ := Option.bind_eq_some_iff.1 h
  obtain ⟨f, hf, hfields⟩ := Option.map_eq_some_iff.1 hp
  cases hfields
  exact ⟨p, f, hrun, hf, rfl, rfl, rfl, rfl⟩

/-- The record counts for its three bytes, in the fill and in the process. -/
theorem staged_record_counted :
    ∃ p f, exec FillProcess.step {} stagedOnce = some p ∧ p.fills 0 = some f ∧
      f.run.cf.pendingBytes = 3 ∧ FillCounted p f ∧ Total (p.own ColdFill.pendingBytes) 3 := by
  have hzero : fillZero stagedOnce = some ([0], 3, 3, false) := by decide +kernel
  obtain ⟨p, f, hrun, hf, -, hbytes, htotal, -⟩ := fillZero_eq hzero
  have hcounted := slot_memory_accounted hrun
  exact ⟨p, f, hrun, hf, hbytes, hcounted.1 0 f hf, htotal ▸ hcounted.2.2⟩

/-- The slot is forgotten before a commit collects: the three bytes are counted, and no record is
left. -/
theorem forgotten_record_counted :
    ¬∀ acts p, exec FillProcess.step {} acts = some p → ∀ k f, p.fills k = some f →
      Total f.run.cf.uncommitted f.run.cf.pendingBytes := by
  intro hclaim
  have hzero : fillZero (stagedOnce ++ [.act 0 (.forget 0)]) = some ([0], 3, 3, true) := by
    decide +kernel
  obtain ⟨p, f, hrun, hf, hpending, hbytes, -, hnone⟩ := fillZero_eq hzero
  have htotal := hclaim _ p hrun 0 f hf
  have hqueued := (Books.of_run hrun).queued 0 f hf
  -- A record that waits is of a slot in the queue, and the only one there has no record.
  have hempty : ∀ i, f.run.cf.uncommitted i = 0 := by
    intro i
    unfold ColdFill.uncommitted
    cases hslot : f.run.cf.info i with
    | none => rfl
    | some s =>
        simp only
        split
        · rename_i hs
          have hstaged := List.mem_map_of_mem (f := Prod.fst) (hqueued.waits i s hslot hs).staged
          rw [hqueued.slots, hpending, List.mem_singleton] at hstaged
          subst hstaged
          rw [hslot] at hnone
          cases hnone
        · rfl
  rw [hbytes] at htotal
  have hthree := htotal.unique (Total.zero.congr hempty)
  cases hthree

end UCache
