/-
Module: UCache.Plugin.ColdFill
Purpose: What one process knows of a file's slots: which are ready and where their records are,
  who waits for them, and what is to be committed.  Each function is one section under the
  file's mutex.
Trusted boundary: none
Main exports: SlotInfo, Where, ColdFill
-/
import UCache.Core.SlotStore
import UCache.Transpose.RNTupleLayout

namespace UCache

open Lib

/-! ### The record of a slot -/

/-- [SRC ColdRun.cc:109] -/
inductive SlotState where
  | absent
  | fetching
  | ready
deriving DecidableEq, Repr

/-- [SRC ColdRun.cc:94-98] The store's kind for a converted basket. -/
def entryKind : BasketKind → SlotKind
  | .zstd => .zstd
  | .raw => .raw
  | .original => .kept

/-- [SRC ColdRun.cc:99-103] And back. -/
def basketKind : SlotKind → BasketKind
  | .zstd => .zstd
  | .raw => .raw
  | .kept => .original

@[simp] theorem basketKind_entryKind (k : BasketKind) : basketKind (entryKind k) = k := by
  cases k <;> rfl

/-- [SRC ColdRun.cc:111-119] What is known of a slot someone has touched. -/
structure SlotInfo where
  kind : BasketKind := .zstd
  inStore : Bool := false
  persist : Bool := false
  fromCache : Bool := false
  transient : Bool := false
  e : SlotEntry := { slot := 0, kind := .zstd }
  mem : Option Bytes := none
deriving DecidableEq, Repr

/-- [SRC ColdRun.cc:179-184] Where a slot's bytes are. -/
structure Where where
  kind : BasketKind := .zstd
  inStore : Bool := false
  e : SlotEntry := { slot := 0, kind := .zstd }
  mem : Option Bytes := none
deriving DecidableEq, Repr

/-- A record on its way to the store. -/
structure Collected where
  slot : Nat
  kind : SlotKind
  bytes : Bytes
deriving DecidableEq, Repr

/-- A waiter told: the request, the slot it waited on, whether it is ready, and its record when
the one who converted it has it in hand. -/
structure Wake where
  request : Nat
  slot : Nat
  ok : Bool
  record : Option Bytes
deriving DecidableEq, Repr

/-- [SRC ColdRun.cc:107-326] The part of a file's run that changes.  The two totals are those of
the whole process. -/
structure ColdFill where
  state : Nat → SlotState := fun _ => .absent
  info : Nat → Option SlotInfo := fun _ => none
  /-- Registered waiters, as (slot, request) in order. -/
  waiters : List (Nat × Nat) := []
  pending : List Nat := []
  pendingBytes : Nat := 0
  transient : List Nat := []
  transientBytes : Nat := 0
  handles : Nat := 0
  storeGone : Bool := false
  pendingTotal : Nat := 0
  transientTotal : Nat := 0

def kPendingCap : Nat := 512 * 2 ^ 20

def kTransientBytes : Nat := 16 * 2 ^ 20

def kTransientCap : Nat := 256 * 2 ^ 20

namespace ColdFill

/-! ### Sections -/

/-- [SRC ColdRun.cc:185-197] `where`: a snapshot of where a slot's bytes are, if it is ready. -/
def look (cf : ColdFill) (i : Nat) : Option Where :=
  if cf.state i = .ready then
    (cf.info i).map fun s => { kind := s.kind, inStore := s.inStore, e := s.e, mem := s.mem }
  else none

/-- [SRC ColdRun.cc:1699-1707] Drop this process's copy of a record, and its share of the
transient budget. -/
def releaseMem (cf : ColdFill) (s : SlotInfo) : ColdFill × SlotInfo :=
  let b := match s.transient, s.mem with
    | true, some m => min cf.transientBytes m.length
    | _, _ => 0
  ({ cf with
      transientBytes := cf.transientBytes - b
      transientTotal := cf.transientTotal - min b cf.transientTotal },
    { s with transient := false, mem := none })

@[simp] theorem releaseMem_info (cf : ColdFill) (s : SlotInfo) :
    (cf.releaseMem s).1.info = cf.info := rfl

/-- [SRC ColdRun.cc:304-312] `forgetLocked`: absent again. -/
def forget (cf : ColdFill) (i : Nat) : ColdFill :=
  let cf₁ := if cf.state i = .ready then
    { cf with state := Function.update cf.state i .absent } else cf
  match cf₁.info i with
  | none => cf₁
  | some s =>
      let cf₂ := (cf₁.releaseMem s).1
      { cf₂ with info := Function.update cf₂.info i none }

/-- [SRC ColdRun.cc:201-213] A committed kept-as-stored slot whose original the byte cache no
longer has (`has` is its answer) must be fetched. -/
def keptOriginalGone (cf : ColdFill) (rnt : Bool) (i : Nat) (has : Bool) : ColdFill × Bool :=
  if rnt ∨ cf.state i ≠ .ready then (cf, false)
  else
    match cf.info i with
    | none => (cf, false)
    | some s =>
        if s.kind ≠ .original ∨ s.mem.isSome ∨ has then (cf, false) else (cf.forget i, true)

/-- [SRC ColdRun.cc:315-321] A slot's waiters, if it has any, take the place of what `out` holds,
which is gone with the slot's list.  What each is told comes with it. -/
def takeWaiters (cf : ColdFill) (i : Nat) (ok : Bool) (record : Option Bytes) (out : List Wake) :
    ColdFill × List Wake :=
  let mine := (cf.waiters.filter fun w => w.1 == i).map fun w => ⟨w.2, i, ok, record⟩
  ({ cf with waiters := cf.waiters.filter fun w => w.1 != i }, if mine = [] then out else mine)

/-- One entry of `apply`. -/
def applyOne (nslots : Nat) (st : ColdFill × List Wake) (e : SlotEntry) : ColdFill × List Wake :=
  let cf := st.1
  let i := e.slot.toNat
  if nslots ≤ i then st
  else
    let s₀ := (cf.info i).getD {}
    let (cf₁, s₁) := cf.releaseMem { s₀ with inStore := true, e := e, kind := basketKind e.kind }
    let cf₂ := { cf₁ with info := Function.update cf₁.info i (some { s₁ with persist := false }) }
    if cf₂.state i = .ready then (cf₂, st.2)
    else { cf₂ with state := Function.update cf₂.state i .ready }.takeWaiters i true none st.2

/-- [SRC ColdRun.cc:223-245] Entries committed by anyone: their slots are ready from the store. -/
def apply (cf : ColdFill) (nslots : Nat) (es : List SlotEntry) : ColdFill × List Wake :=
  es.foldl (applyOne nslots) (cf, [])

/-- [SRC ColdRun.cc:1749-1761] Oldest first, never the record being staged, until both budgets
have room for `b` bytes. -/
def dropTransient (i b : Nat) : List Nat → ColdFill → ColdFill
  | [], cf => { cf with transient := [] }
  | j :: rest, cf =>
      if kTransientBytes < cf.transientBytes + b ∨ kTransientCap < cf.transientTotal + b then
        let cf' :=
          if j = i then cf
          else
            match cf.info j with
            | some s => if s.transient && !s.inStore then cf.forget j else cf
            | none => cf
        dropTransient i b rest cf'
      else { cf with transient := j :: rest }

/-- [SRC ColdRun.cc:1715-1775] What becomes of a record just converted; the flag says that it is
kept here. -/
def stageRecord (cf : ColdFill) (rnt : Bool) (i : Nat) (kind : BasketKind) (record : Bytes)
    (fromCache keepIt has : Bool) : ColdFill × Bool :=
  let s := (cf.info i).getD {}
  if s.inStore then ({ cf with info := Function.update cf.info i (some s) }, true)
  else if !keepIt then (cf.releaseMem s |>.1, false)
  else
    let (cf₁, s₁) := cf.releaseMem s
    -- A basket kept as stored is served from the byte cache, unless the write did not land.
    let inCache := !rnt && decide (kind = .original) && has
    let b := if inCache then 0 else record.length
    let s₂ : SlotInfo :=
      { s₁ with
        kind := kind
        fromCache := fromCache
        persist := !cf₁.storeGone && decide (cf₁.pendingTotal + b ≤ kPendingCap) }
    if s₂.persist then
      ({ cf₁ with
          info := Function.update cf₁.info i
            (some { s₂ with mem := if inCache then none else some record })
          pending := cf₁.pending ++ [i]
          pendingBytes := cf₁.pendingBytes + b
          pendingTotal := cf₁.pendingTotal + b },
        true)
    else if inCache then ({ cf₁ with info := Function.update cf₁.info i (some s₂) }, true)
    else
      let cf₂ := dropTransient i b cf₁.transient
        { cf₁ with info := Function.update cf₁.info i (some s₂) }
      if cf₂.transientBytes + b ≤ kTransientBytes ∧ cf₂.transientTotal + b ≤ kTransientCap then
        ({ cf₂ with
            info := Function.update cf₂.info i (some { s₂ with mem := some record, transient := true })
            transient := cf₂.transient ++ [i]
            transientBytes := cf₂.transientBytes + b
            transientTotal := cf₂.transientTotal + b },
          true)
      else (cf₂, false)

/-- [SRC ColdRun.cc:1709-1791] A converted record: served from memory until it is committed. -/
def stage (cf : ColdFill) (rnt : Bool) (i : Nat) (kind : BasketKind) (record : Bytes)
    (fromCache keepIt has : Bool) : ColdFill × List Wake :=
  let (cf₁, keep) := cf.stageRecord rnt i kind record fromCache keepIt has
  let (cf₂, woken) := cf₁.takeWaiters i true (some record) []
  if keep then ({ cf₂ with state := Function.update cf₂.state i .ready }, woken)
  else
    ({ cf₂ with
        info := Function.update cf₂.info i none
        state := Function.update cf₂.state i .absent },
      woken)

/-- [SRC ColdRun.cc:263-273] A fetch that claimed a slot failed: the claim is given back. -/
def abandon (cf : ColdFill) (i : Nat) : ColdFill × List Wake :=
  let cf₁ := if cf.state i = .fetching then
    { cf with state := Function.update cf.state i .absent } else cf
  cf₁.takeWaiters i false none []

inductive Claim where
  | claimed
  | ready
  | waiting
deriving DecidableEq, Repr

/-- [SRC ColdRun.cc:279-294] Claim a slot, or register to hear when whoever holds it is done. -/
def claimOrWait (cf : ColdFill) (i request : Nat) : ColdFill × Claim :=
  match cf.state i with
  | .absent => ({ cf with state := Function.update cf.state i .fetching }, .claimed)
  | .ready => (cf, .ready)
  | .fetching => ({ cf with waiters := cf.waiters ++ [(i, request)] }, .waiting)

/-! ### Committing -/

/-- One pending slot of `commit`. -/
def collectPending (st : ColdFill × List Collected) (i : Nat) : ColdFill × List Collected :=
  let cf := st.1
  match cf.info i with
  | none => st
  | some s =>
      if s.inStore then
        let (cf₁, s₁) := cf.releaseMem { s with persist := false }
        ({ cf₁ with info := Function.update cf₁.info i (some s₁) }, st.2)
      else if !s.persist ∨ cf.state i ≠ .ready ∨ (s.mem = none ∧ s.kind ≠ .original) then st
      else
        ({ cf with info := Function.update cf.info i (some { s with persist := false }) },
          st.2 ++ [{ slot := i
                     kind := entryKind s.kind
                     bytes := if s.kind = .original then [] else s.mem.getD [] }])

/-- One slot of the transient records that go with the batch: out of the budget, still served
until the commit lands. -/
def collectTransient (st : ColdFill × List Collected) (j : Nat) : ColdFill × List Collected :=
  let cf := st.1
  match cf.info j with
  | none => st
  | some s =>
      if !s.transient ∨ s.mem = none ∨ s.inStore then st
      else
        let (cf₁, s₁) := cf.releaseMem s
        ({ cf₁ with info := Function.update cf₁.info j (some { s₁ with mem := s.mem }) },
          st.2 ++ [{ slot := j, kind := entryKind s.kind, bytes := s.mem.getD [] }])

/-- [SRC ColdRun.cc:1924-1971] Collect what waits in memory. -/
def collect (cf : ColdFill) : ColdFill × List Collected :=
  let (cf₁, recs) := cf.pending.foldl collectPending (cf, [])
  let cf₂ :=
    { cf₁ with
      pending := []
      pendingTotal := cf₁.pendingTotal - cf₁.pendingBytes
      pendingBytes := 0 }
  if cf₂.storeGone then (cf₂, recs)
  else
    let (cf₃, recs₃) := cf₂.transient.foldl collectTransient (cf₂, recs)
    ({ cf₃ with transient := [] }, recs₃)

/-- [SRC ColdRun.cc:1886-1898] Records collected for a commit that will not happen. -/
def releaseCollected (cf : ColdFill) (recs : List Collected) : ColdFill :=
  recs.foldl (fun cf r =>
    match cf.info r.slot with
    | some s => if !s.inStore && !s.persist then cf.forget r.slot else cf
    | none => cf) cf

/-- One entry just committed. -/
def noteEntry (cf : ColdFill) (e : SlotEntry) : ColdFill :=
  let i := e.slot.toNat
  match cf.info i with
  | none => cf
  | some s =>
      let (cf₁, s₁) := cf.releaseMem
        { s with
          inStore := true
          e := e
          kind := basketKind e.kind
          fromCache := false
          persist := false }
      { cf₁ with info := Function.update cf₁.info i (some s₁) }

/-- One record that was collected: when it is in the store, ours is not kept. -/
def noteSkipped (cf : ColdFill) (r : Collected) : ColdFill :=
  match cf.info r.slot with
  | none => cf
  | some s =>
      if s.inStore then
        let (cf₁, s₁) := cf.releaseMem { s with persist := false }
        { cf₁ with info := Function.update cf₁.info r.slot (some s₁) }
      else cf

/-- [SRC ColdRun.cc:2018-2049] A commit that landed: its entries and the records others had
committed; with it the entries of slots forgotten meanwhile, to be applied anew. -/
def noteCommitted (cf : ColdFill) (committed : List SlotEntry) (recs : List Collected) :
    ColdFill × List SlotEntry :=
  (recs.foldl noteSkipped (committed.foldl noteEntry cf),
    committed.filter fun e => (cf.info e.slot.toNat).isNone)

end ColdFill

end UCache
