/-
Module: UCache.Plugin.ShardQueue
Purpose: The queue of a read-ahead thread: one job a handle, closes ahead of fills, and the closers
  that wait until the worker, or whoever took their job out of the queue, has destroyed it.
Trusted boundary: none
Main exports: ShardJob, Shard, shard_answers_closes
-/
import UCache.Lib.Run
import Mathlib.Data.List.Basic
import Mathlib.Logic.Function.Basic
import Mathlib.Tactic.Common

namespace UCache

open Lib

/-! ### The queue -/

/-- [SRC Prefetch.cc:261-267] `key` is the handle; `sync` is what the closing thread waits on. -/
structure ShardJob (K : Type) where
  key : K
  chunks : List (Nat × Nat) := []
  close : Bool := false
  sync : Option Nat := none
deriving DecidableEq

/-- Where the worker stands: before its locked section, blocked in the wait of it, running a job, or
past a job that is destroyed. -/
inductive ShardWorker (K : Type) where
  | ready
  | asleep
  | running (job : ShardJob K)
  | freed (sync : Option Nat)
deriving DecidableEq

/-- Where a posting thread stands in `post`, past its locked section; `own` is the `Sync` it waits on
afterwards. -/
inductive ShardPoster (K : Type) where
  | idle
  | freeing (own : Option Nat) (superseded : Option (ShardJob K)) (orphaned : Option Nat)
  | signalling (own : Option Nat) (orphaned : Nat)
  | notifying (own : Option Nat)
  | waiting (own : Nat)
deriving DecidableEq

/-- Past `post`: a closer waits. -/
def ShardPoster.posted {K : Type} : Option Nat → ShardPoster K
  | some y => .waiting y
  | none => .idle

/-- A shard and the threads that post to it.  A `Sync` is named by a number that is not used again.
`done` has it once for each time it is signalled; `posted` is a ghost: those of all closes. -/
structure Shard (K : Type) where
  order : List K := []
  pending : K → Option (ShardJob K) := fun _ => none
  worker : ShardWorker K := .ready
  posters : Nat → ShardPoster K := fun _ => .idle
  done : List Nat := []
  posted : List Nat := []

inductive ShardAct (K : Type) where
  /-- `onFill` and `onClose` up to the end of the locked section of `post`. -/
  | postFill (t : Nat) (key : K) (chunks : List (Nat × Nat))
  | postClose (t : Nat) (key : K) (sync : Nat)
  /-- The superseded job is destroyed, its waiter signalled, the worker notified. -/
  | free (t : Nat)
  | signal (t : Nat)
  | notify (t : Nat)
  /-- The closer finds its `Sync` done. -/
  | wake (t : Nat)
  /-- The worker's locked section, and a wait that ends without a notification. -/
  | take
  | spurious
  /-- The job is run and destroyed, its closer signalled. -/
  | finish
  | answer

/-- The job an action posts. -/
def ShardAct.job {K : Type} : ShardAct K → Option (ShardJob K)
  | .postFill _ key chunks => some { key := key, chunks := chunks }
  | .postClose _ key sync => some { key := key, close := true, sync := some sync }
  | _ => none

/-- A step of what is already under way: not a post, a closer's return or a wait that ends by
itself. -/
def ShardAct.goesOn {K : Type} : ShardAct K → Bool
  | .free _ | .signal _ | .notify _ | .take | .finish | .answer => true
  | _ => false

def ShardAct.isTake {K : Type} : ShardAct K → Bool
  | .take => true
  | _ => false

namespace Shard

variable {K : Type} [DecidableEq K]

/-- [SRC Prefetch.cc:289-313] The locked section: the job it superseded and that job's waiter. -/
def post (s : Shard K) (j : ShardJob K) : Shard K × Option (ShardJob K) × Option Nat :=
  match s.pending j.key with
  | none =>
      ({ s with
          order := if j.close then j.key :: s.order else s.order ++ [j.key]
          pending := Function.update s.pending j.key (some j) }, none, none)
  | some old =>
      if j.close then
        ({ s with
            order := j.key :: s.order.erase j.key
            pending := Function.update s.pending j.key (some j) }, some old, old.sync)
      else if !old.close then
        ({ s with pending := Function.update s.pending j.key (some j) }, some old, none)
      else (s, none, none)

def setPoster (s : Shard K) (t : Nat) (p : ShardPoster K) : Shard K :=
  { s with posters := Function.update s.posters t p }

/-- [SRC Prefetch.cc:286-321] `post` of a thread, up to the end of the locked section. -/
def posting (s : Shard K) (t : Nat) (j : ShardJob K) : Shard K :=
  let (s, superseded, orphaned) := s.post j
  s.setPoster t (.freeing j.sync superseded orphaned)

/-- `qcv_.notify_one()`. -/
def notifyOne (s : Shard K) : Shard K :=
  if s.worker = .asleep then { s with worker := .ready } else s

/-- [SRC Prefetch.cc:328-336] -/
def take (s : Shard K) : Option (Shard K) :=
  match s.order with
  | [] => some { s with worker := .asleep }
  | k :: rest =>
      (s.pending k).map fun job =>
        { s with order := rest, pending := Function.update s.pending k none, worker := .running job }

def step (s : Shard K) : ShardAct K → Option (Shard K)
  | .postFill t key chunks =>
      match s.posters t with
      | .idle => some (s.posting t { key := key, chunks := chunks })
      | _ => none
  | .postClose t key sync =>
      match s.posters t with
      | .idle =>
          if sync ∈ s.posted then none
          else
            some ({ s with posted := sync :: s.posted }.posting t
              { key := key, close := true, sync := some sync })
      | _ => none
  | .free t =>
      match s.posters t with
      | .freeing own _ (some orphaned) => some (s.setPoster t (.signalling own orphaned))
      | .freeing own _ none => some (s.setPoster t (.notifying own))
      | _ => none
  | .signal t =>
      match s.posters t with
      | .signalling own orphaned =>
          some ({ s with done := orphaned :: s.done }.setPoster t (.notifying own))
      | _ => none
  | .notify t =>
      match s.posters t with
      | .notifying own =>
          some (s.notifyOne.setPoster t (ShardPoster.posted own))
      | _ => none
  | .wake t =>
      match s.posters t with
      | .waiting y => if y ∈ s.done then some (s.setPoster t .idle) else none
      | _ => none
  | .take => if s.worker = .ready then s.take else none
  | .spurious => if s.worker = .asleep then some { s with worker := .ready } else none
  | .finish =>
      match s.worker with
      | .running job => some { s with worker := .freed job.sync }
      | _ => none
  | .answer =>
      match s.worker with
      | .freed (some y) => some { s with done := y :: s.done, worker := .ready }
      | .freed none => some { s with worker := .ready }
      | _ => none

/-! ### Who holds a close -/

end Shard

/-- Where the `Sync` of a close can be: with a job in the queue or on the worker, with the thread that
took such a job out and has yet to signal, or signalled. -/
inductive ClosePlace (K : Type) where
  | unposted
  | pending (key : K)
  | running
  | ended
  | superseded (t : Nat)
  | orphaned (t : Nat)
  | signalled
deriving DecidableEq

namespace Shard

variable {K : Type} {y : Nat} {s : Shard K}

def Holds (s : Shard K) (y : Nat) : ClosePlace K → Prop
  | .unposted => y ∉ s.posted
  | .pending k => ∃ j, s.pending k = some j ∧ j.sync = some y
  | .running => ∃ j, s.worker = .running j ∧ j.sync = some y
  | .ended => s.worker = .freed (some y)
  | .superseded t => ∃ own job, s.posters t = .freeing own job (some y)
  | .orphaned t => ∃ own, s.posters t = .signalling own y
  | .signalled => y ∈ s.done

/-- The `Sync` is in that place and in no other. -/
def OnlyAt (s : Shard K) (y : Nat) (p : ClosePlace K) : Prop := ∀ q, s.Holds y q ↔ p = q

theorem OnlyAt.holds {p : ClosePlace K} (h : s.OnlyAt y p) : s.Holds y p :=
  (h p).2 rfl

theorem OnlyAt.of_holds {p q : ClosePlace K} (h : s.OnlyAt y p) (hq : s.Holds y q) :
    s.OnlyAt y q := by
  obtain rfl := (h q).1 hq
  exact h

theorem OnlyAt.of_same {s' : Shard K} {p : ClosePlace K} (h : s.OnlyAt y p)
    (hsame : ∀ q, s'.Holds y q ↔ s.Holds y q) : s'.OnlyAt y p := fun q => (hsame q).trans (h q)

/-- A thread past its locked section and before its notification. -/
def Notifies (s : Shard K) (t : Nat) : Prop :=
  (∃ own job orphaned, s.posters t = .freeing own job orphaned) ∨
    (∃ own orphaned, s.posters t = .signalling own orphaned) ∨ ∃ own, s.posters t = .notifying own

/-- The queue is a list of the keys of the pending jobs; every `Sync` is in one place; a thread that
took a close out of the queue holds its job; a sleeping worker is about to be notified of what there
is to do. -/
structure Inv (s : Shard K) : Prop where
  nodup : s.order.Nodup
  keys : ∀ k, k ∈ s.order ↔ (s.pending k).isSome
  jobs : ∀ k j, s.pending k = some j → j.key = k ∧ j.close = j.sync.isSome
  one : ∀ y, ∃ p, s.OnlyAt y p
  once : s.done.Nodup
  hand : ∀ t own job orphaned, s.posters t = .freeing own job orphaned →
    orphaned = job.bind ShardJob.sync
  woken : s.worker = .asleep → s.order ≠ [] → ∃ t, s.Notifies t

theorem inv_init : Inv ({} : Shard K) where
  nodup := List.nodup_nil
  keys := by simp
  jobs := by simp
  one y := by
    refine ⟨.unposted, fun q => ?_⟩
    cases q <;> simp [Holds]
  once := List.nodup_nil
  hand := by simp
  woken := by simp

/-! ### Posting -/

variable [DecidableEq K]

/-- What the locked section of `post` does with a job: it is appended, or put in front; it supersedes
a job of its key; or it is a fill that gives way to a close. -/
theorem post_cases (s : Shard K) (j : ShardJob K) :
    (s.pending j.key = none ∧ s.post j = ({ s with
        order := if j.close then j.key :: s.order else s.order ++ [j.key]
        pending := Function.update s.pending j.key (some j) }, none, none)) ∨
    (∃ old, s.pending j.key = some old ∧ j.close = true ∧ s.post j = ({ s with
        order := j.key :: s.order.erase j.key
        pending := Function.update s.pending j.key (some j) }, some old, old.sync)) ∨
    (∃ old, s.pending j.key = some old ∧ j.close = false ∧ old.close = false ∧
      s.post j = ({ s with pending := Function.update s.pending j.key (some j) }, some old, none)) ∨
    (∃ old, s.pending j.key = some old ∧ j.close = false ∧ old.close = true ∧
      s.post j = (s, none, none)) := by
  unfold post
  cases hold : s.pending j.key with
  | none => exact .inl ⟨rfl, rfl⟩
  | some old =>
      cases hclose : j.close with
      | true => exact .inr (.inl ⟨old, rfl, rfl, by simp⟩)
      | false =>
          cases hfill : old.close with
          | true => exact .inr (.inr (.inr ⟨old, rfl, rfl, hfill, by simp [hfill]⟩))
          | false => exact .inr (.inr (.inl ⟨old, rfl, rfl, hfill, by simp [hfill]⟩))

/-- The state after a thread posted `j`, of which the queue, what it superseded and its waiter are
given. -/
def afterPost (s : Shard K) (t : Nat) (j : ShardJob K) (order : List K)
    (pending : K → Option (ShardJob K)) (superseded : Option (ShardJob K)) (orphaned : Option Nat) :
    Shard K :=
  { s with
    order := order
    pending := pending
    posted := j.sync.toList ++ s.posted
    posters := Function.update s.posters t (.freeing j.sync superseded orphaned) }

omit [DecidableEq K] in
/-- A queue changed at the key of the job keeps the invariant when every `Sync` stays in one
place. -/
theorem Inv.afterPost {t : Nat} {j : ShardJob K} {order : List K}
    {pending : K → Option (ShardJob K)} {superseded : Option (ShardJob K)} {orphaned : Option Nat}
    (h : Inv s) (hnodup : order.Nodup) (hkeys : ∀ k, k ∈ order ↔ (pending k).isSome)
    (hjobs : ∀ k job, pending k = some job → job.key = k ∧ job.close = job.sync.isSome)
    (hhand : orphaned = superseded.bind ShardJob.sync)
    (hone : ∀ y, ∃ p, (s.afterPost t j order pending superseded orphaned).OnlyAt y p) :
    Inv (s.afterPost t j order pending superseded orphaned) where
  nodup := hnodup
  keys := hkeys
  jobs := hjobs
  one := hone
  once := h.once
  hand t' own job o ht' := by
    simp only [Shard.afterPost, Function.update_apply] at ht'
    split at ht'
    · cases ht'
      exact hhand
    · exact h.hand t' own job o ht'
  woken _ _ := ⟨t, .inl ⟨j.sync, superseded, orphaned, by simp [Shard.afterPost]⟩⟩

section Posting

variable {s : Shard K} {t : Nat} {j : ShardJob K}

/-- The places of a `Sync` after a post, in terms of those before. -/
theorem holds_afterPost {order : List K} {superseded : Option (ShardJob K)} {orphaned : Option Nat}
    (hidle : s.posters t = .idle) (q : ClosePlace K) :
    (s.afterPost t j order (Function.update s.pending j.key (some j)) superseded orphaned).Holds y q ↔
      (q = .pending j.key ∧ j.sync = some y) ∨ (q = .superseded t ∧ orphaned = some y) ∨
        (q ≠ .pending j.key ∧ s.Holds y q ∧ (q = .unposted → j.sync ≠ some y)) := by
  cases q with
  | unposted => simp [Holds, Shard.afterPost, and_comm]
  | pending k =>
      by_cases hk : k = j.key
      · subst hk
        simp [Holds, Shard.afterPost]
      · simp [Holds, Shard.afterPost, hk]
  | superseded t' =>
      by_cases ht : t' = t
      · subst ht
        simp [Holds, Shard.afterPost, hidle]
      · simp [Holds, Shard.afterPost, ht]
  | orphaned t' =>
      by_cases ht : t' = t
      · subst ht
        simp [Holds, Shard.afterPost, hidle]
      · simp [Holds, Shard.afterPost, Function.update_of_ne ht]
  | running => simp [Holds, Shard.afterPost]
  | ended => simp [Holds, Shard.afterPost]
  | signalled => simp [Holds, Shard.afterPost]

/-- The waiter of the job that is superseded goes with it, and the new close is where that job was. -/
theorem onlyAt_afterPost {old : Option (ShardJob K)} (order : List K) (h : Inv s)
    (hidle : s.posters t = .idle) (hold : s.pending j.key = old)
    (hnew : ∀ y, j.sync = some y → y ∉ s.posted) (y : Nat) :
    ∃ p, (s.afterPost t j order (Function.update s.pending j.key (some j)) old
      (old.bind ShardJob.sync)).OnlyAt y p := by
  obtain ⟨p, hp⟩ := h.one y
  have hqueued : s.Holds y (.pending j.key) ↔ old.bind ShardJob.sync = some y := by
    simp only [Holds, hold, Option.bind_eq_some_iff]
  by_cases hy : j.sync = some y
  · -- the close just posted
    have hfresh := hp.of_holds (q := .unposted) (hnew y hy)
    have horphan : old.bind ShardJob.sync ≠ some y := fun hsync => by
      simpa using (hfresh _).1 (hqueued.2 hsync)
    refine ⟨.pending j.key, fun q => ?_⟩
    rw [holds_afterPost hidle q, hfresh q]
    grind
  · by_cases horphan : old.bind ShardJob.sync = some y
    · -- the close it supersedes
      have hmoved := hp.of_holds (hqueued.2 horphan)
      refine ⟨.superseded t, fun q => ?_⟩
      rw [holds_afterPost hidle q, hmoved q]
      grind
    · refine ⟨p, fun q => ?_⟩
      have hnot : p ≠ .pending j.key := by
        rintro rfl
        exact horphan (hqueued.1 hp.holds)
      rw [holds_afterPost hidle q, hp q]
      grind

theorem Inv.posting (h : Inv s) (hidle : s.posters t = .idle)
    (hclose : j.close = j.sync.isSome) (hnew : ∀ y, j.sync = some y → y ∉ s.posted) :
    Inv ({ s with posted := j.sync.toList ++ s.posted }.posting t j) := by
  have hjobs : ∀ k job, Function.update s.pending j.key (some j) k = some job →
      job.key = k ∧ job.close = job.sync.isSome := by
    intro k job hk
    by_cases hkey : k = j.key
    · subst hkey
      obtain rfl : j = job := by simpa using hk
      exact ⟨rfl, hclose⟩
    · exact h.jobs k job (by simpa [Function.update_of_ne hkey] using hk)
  have hkeys : ∀ order : List K, (∀ k, k ∈ order ↔ k = j.key ∨ k ∈ s.order) →
      ∀ k, k ∈ order ↔ (Function.update s.pending j.key (some j) k).isSome := by
    intro order horder k
    by_cases hkey : k = j.key
    · simp [horder, hkey]
    · simp [horder, hkey, h.keys]
  rcases post_cases { s with posted := j.sync.toList ++ s.posted } j with
    ⟨hold, heq⟩ | ⟨old, hold, hc, heq⟩ | ⟨old, hold, hc, hfill, heq⟩ | ⟨old, hold, hc, hfill, heq⟩ <;>
    simp only at hold
  · -- no job of this key
    have hout : j.key ∉ s.order := by simp [h.keys, hold]
    have hspec := onlyAt_afterPost (if j.close then j.key :: s.order else s.order ++ [j.key])
      h hidle hold hnew
    rw [Shard.posting, heq]
    refine h.afterPost ?_ (hkeys _ ?_) hjobs rfl hspec
    · split
      · exact List.nodup_cons.2 ⟨hout, h.nodup⟩
      · rw [List.nodup_append]
        refine ⟨h.nodup, by simp, ?_⟩
        intro k hk k' hk' hkey
        obtain rfl : k' = j.key := by simpa using hk'
        exact hout (hkey ▸ hk)
    · intro k
      split <;> simp [or_comm]
  · -- a close supersedes what is queued
    have hin : j.key ∈ s.order := by simp [h.keys, hold]
    rw [Shard.posting, heq]
    refine h.afterPost ?_ (hkeys _ ?_) hjobs rfl (onlyAt_afterPost _ h hidle hold hnew)
    · refine List.nodup_cons.2 ⟨?_, h.nodup.erase _⟩
      exact h.nodup.not_mem_erase
    · intro k
      by_cases hkey : k = j.key
      · simp [hkey]
      · simp [hkey, List.mem_erase_of_ne hkey]
  · -- a fill supersedes a fill
    have hin : j.key ∈ s.order := by simp [h.keys, hold]
    have hsync : old.sync = none := by
      have := (h.jobs _ _ hold).2
      rw [hfill] at this
      simpa using this.symm
    rw [Shard.posting, heq]
    refine h.afterPost h.nodup (hkeys _ ?_) hjobs (by simp [hsync]) ?_
    · intro k
      by_cases hkey : k = j.key <;> simp [hkey, hin]
    · simpa [hsync] using onlyAt_afterPost s.order h hidle hold hnew
  · -- a fill gives way to a close
    have hnone : j.sync = none := by
      rw [hc] at hclose
      simpa using hclose.symm
    rw [Shard.posting, heq]
    refine h.afterPost h.nodup h.keys h.jobs rfl fun y => ?_
    obtain ⟨p, hp⟩ := h.one y
    refine ⟨p, hp.of_same fun q => ?_⟩
    cases q <;> simp [Holds, Shard.afterPost, hnone, Function.update_apply] <;> grind

end Posting

/-! ### The other steps -/

section Steps

variable {s s' : Shard K} {t : Nat}

omit [DecidableEq K] in
/-- The rest of the invariant when the queue stays and a thread moves on, no longer than its
notification. -/
theorem Inv.moved (h : Inv s) (hqueue : s'.order = s.order ∧ s'.pending = s.pending)
    (hworker : s'.worker = .asleep → s.worker = .asleep) (hone : ∀ y, ∃ p, s'.OnlyAt y p)
    (honce : s'.done.Nodup)
    (hhand : ∀ t own job orphaned, s'.posters t = .freeing own job orphaned →
      s.posters t = .freeing own job orphaned)
    (hnotify : s'.worker = .asleep → ∀ t, s.Notifies t → s'.Notifies t) : Inv s' where
  nodup := hqueue.1 ▸ h.nodup
  keys := by
    rw [hqueue.1, hqueue.2]
    exact h.keys
  jobs := by
    rw [hqueue.2]
    exact h.jobs
  one := hone
  once := honce
  hand t own job o ht := h.hand t own job o (hhand t own job o ht)
  woken hasleep horder := by
    rw [hqueue.1] at horder
    obtain ⟨t, ht⟩ := h.woken (hworker hasleep) horder
    exact ⟨t, hnotify hasleep t ht⟩

/-- The place a thread in `post` is for the `Sync` it has taken out. -/
def handOf (t : Nat) : ShardPoster K → Option (ClosePlace K × Nat)
  | .freeing _ _ (some y) => some (.superseded t, y)
  | .signalling _ y => some (.orphaned t, y)
  | _ => none

omit [DecidableEq K] in
/-- A thread that moves on changes the places that are its own. -/
theorem holds_setPoster (s : Shard K) (t : Nat) (p : ShardPoster K) (y : Nat) (q : ClosePlace K) :
    (s.setPoster t p).Holds y q ↔
      handOf t p = some (q, y) ∨ (q ≠ .superseded t ∧ q ≠ .orphaned t ∧ s.Holds y q) := by
  cases q with
  | superseded t' =>
      by_cases ht : t' = t
      · subst ht
        rcases p with _ | ⟨_, _, _ | _⟩ | _ | _ | _ <;> simp [Holds, setPoster, handOf]
      · rcases p with _ | ⟨_, _, _ | _⟩ | _ | _ | _ <;>
          simp [Holds, setPoster, handOf, ht, Ne.symm ht]
  | orphaned t' =>
      by_cases ht : t' = t
      · subst ht
        rcases p with _ | ⟨_, _, _ | _⟩ | _ | _ | _ <;> simp [Holds, setPoster, handOf]
      · rcases p with _ | ⟨_, _, _ | _⟩ | _ | _ | _ <;>
          simp [Holds, setPoster, handOf, ht, Ne.symm ht]
  | _ => rcases p with _ | ⟨_, _, _ | _⟩ | _ | _ | _ <;> simp [Holds, setPoster, handOf]

omit [DecidableEq K] in
theorem holds_hand (s : Shard K) (t : Nat) (y : Nat) {q : ClosePlace K}
    (hq : q = .superseded t ∨ q = .orphaned t) :
    s.Holds y q ↔ handOf t (s.posters t) = some (q, y) := by
  rcases hq with rfl | rfl
  · rcases hp : s.posters t with _ | ⟨_, _, _ | _⟩ | _ | _ | _ <;> simp [Holds, handOf, hp]
  · rcases hp : s.posters t with _ | ⟨_, _, _ | _⟩ | _ | _ | _ <;> simp [Holds, handOf, hp]

/-- A thread that has nothing in hand before and after changes no place. -/
theorem holds_setPoster_same {p : ShardPoster K} (hbefore : handOf t (s.posters t) = none)
    (hafter : handOf t p = none) (y : Nat) (q : ClosePlace K) :
    (s.setPoster t p).Holds y q ↔ s.Holds y q := by
  rw [holds_setPoster, hafter]
  by_cases hq : q = .superseded t ∨ q = .orphaned t
  · rw [holds_hand s t y hq, hbefore]
    rcases hq with rfl | rfl <;> simp
  · obtain ⟨hsuperseded, horphaned⟩ := not_or.1 hq
    simp [hsuperseded, horphaned]

omit [DecidableEq K] in
/-- A thread that goes on notifies later, unless it has nothing left to do but that. -/
theorem notifies_setPoster {t' : Nat} {p : ShardPoster K}
    (hp : (∃ own job orphaned, p = .freeing own job orphaned) ∨
      (∃ own orphaned, p = .signalling own orphaned) ∨ (∃ own, p = .notifying own) ∨
        ¬ s.Notifies t) (h : s.Notifies t') : (s.setPoster t p).Notifies t' := by
  by_cases ht : t' = t
  · subst ht
    simp only [Notifies, setPoster, Function.update_self] at *
    rcases hp with hp | hp | hp | hp
    · exact .inl hp
    · exact .inr (.inl hp)
    · exact .inr (.inr hp)
    · exact absurd h hp
  · simpa only [Notifies, setPoster, Function.update_of_ne ht] using h

omit [DecidableEq K] in
theorem freeing_setPoster {t' : Nat} {p : ShardPoster K}
    (hp : ∀ own job orphaned, p ≠ .freeing own job orphaned) {own : Option Nat}
    {job : Option (ShardJob K)} {orphaned : Option Nat}
    (h : (s.setPoster t p).posters t' = .freeing own job orphaned) :
    s.posters t' = .freeing own job orphaned := by
  by_cases ht : t' = t
  · subst ht
    simp only [setPoster, Function.update_self] at h
    exact absurd h (hp own job orphaned)
  · simpa only [setPoster, Function.update_of_ne ht] using h

theorem Inv.free (h : Inv s) (hstep : s.step (.free t) = some s') : Inv s' := by
  simp only [step] at hstep
  split at hstep
  · -- the superseded job of a close is destroyed: its waiter is still in hand
    rename_i own job orphaned ht
    cases hstep
    refine h.moved ⟨rfl, rfl⟩ id ?_ h.once (fun _ _ _ _ => freeing_setPoster (by simp))
      (fun _ _ => notifies_setPoster (.inr (.inl ⟨own, orphaned, rfl⟩)))
    intro y
    obtain ⟨p, hp⟩ := h.one y
    have hhand : ∀ q, q = .superseded t ∨ q = .orphaned t →
        (s.Holds y q ↔ handOf t (s.posters t) = some (q, y)) := fun q => holds_hand s t y
    simp only [ht, handOf] at hhand
    by_cases hy : orphaned = y
    · have hmoved := hp.of_holds ((hhand (.superseded t) (.inl rfl)).2 (by rw [hy]))
      refine ⟨.orphaned t, fun q => ?_⟩
      rw [holds_setPoster, hmoved q, handOf, hy]
      grind
    · refine ⟨p, hp.of_same fun q => ?_⟩
      rw [holds_setPoster, handOf]
      grind
  · rename_i own job ht
    cases hstep
    refine h.moved ⟨rfl, rfl⟩ id ?_ h.once (fun _ _ _ _ => freeing_setPoster (by simp))
      (fun _ _ => notifies_setPoster (.inr (.inr (.inl ⟨own, rfl⟩))))
    intro y
    obtain ⟨p, hp⟩ := h.one y
    exact ⟨p, hp.of_same (holds_setPoster_same (by rw [ht]; rfl) rfl y)⟩
  · cases hstep

theorem Inv.signal (h : Inv s) (hstep : s.step (.signal t) = some s') : Inv s' := by
  simp only [step] at hstep
  split at hstep
  · rename_i own orphaned ht
    cases hstep
    have hin : s.Holds orphaned (.orphaned t) := ⟨own, ht⟩
    have hout : orphaned ∉ s.done := by
      obtain ⟨p, hp⟩ := h.one orphaned
      have := (hp.of_holds hin .signalled).not
      simpa [Holds] using this
    refine h.moved ⟨rfl, rfl⟩ id ?_ (List.nodup_cons.2 ⟨hout, h.once⟩)
      (fun _ _ _ _ => freeing_setPoster (by simp))
      (fun _ _ => notifies_setPoster (.inr (.inr (.inl ⟨own, rfl⟩))))
    intro y
    obtain ⟨p, hp⟩ := h.one y
    have hdone : ∀ q, ({ s with done := orphaned :: s.done } : Shard K).Holds y q ↔
        (q = .signalled ∧ y = orphaned) ∨ s.Holds y q := by
      intro q
      cases q <;> simp [Holds]
    have hhand : ∀ q, q = .superseded t ∨ q = .orphaned t →
        (s.Holds y q ↔ handOf t (s.posters t) = some (q, y)) := fun q => holds_hand s t y
    simp only [ht, handOf] at hhand
    by_cases hy : y = orphaned
    · have hmoved := hp.of_holds (hy ▸ hin)
      refine ⟨.signalled, fun q => ?_⟩
      rw [holds_setPoster, hdone, hmoved q, handOf]
      · grind
      · simp
      · simp
    · refine ⟨p, hp.of_same fun q => ?_⟩
      rw [holds_setPoster, hdone, handOf]
      · grind
      · simp
      · simp
  · cases hstep

/-- A notification wakes the worker and changes nothing else. -/
theorem notifyOne_spec (s : Shard K) : s.notifyOne.worker ≠ .asleep ∧
    (s.notifyOne.order = s.order ∧ s.notifyOne.pending = s.pending) ∧ s.notifyOne.done = s.done ∧
      s.notifyOne.posters = s.posters ∧ ∀ y q, s.notifyOne.Holds y q ↔ s.Holds y q := by
  unfold notifyOne
  split
  · rename_i hasleep
    refine ⟨by simp, ⟨rfl, rfl⟩, rfl, rfl, fun y q => ?_⟩
    cases q <;> simp [Holds, hasleep]
  · rename_i hawake
    exact ⟨hawake, ⟨rfl, rfl⟩, rfl, rfl, fun _ _ => Iff.rfl⟩

theorem Inv.notify (h : Inv s) (hstep : s.step (.notify t) = some s') : Inv s' := by
  simp only [step] at hstep
  split at hstep
  · rename_i own ht
    cases hstep
    obtain ⟨hawake, hqueue, hdone, hposters, hplaces⟩ := notifyOne_spec s
    have hafter : handOf (K := K) t (.posted own) = none := by cases own <;> rfl
    have hhand : ∀ o job y, (.posted own : ShardPoster K) ≠ .freeing o job y := by
      cases own <;> simp [ShardPoster.posted]
    refine h.moved hqueue (fun hasleep => absurd hasleep hawake) ?_ (hdone ▸ h.once) ?_
      (fun hasleep => absurd hasleep hawake)
    · intro y
      obtain ⟨p, hp⟩ := h.one y
      refine ⟨p, hp.of_same fun q => ?_⟩
      rw [holds_setPoster_same (by rw [hposters, ht]; rfl) hafter, hplaces]
    · intro t' own' job o ht'
      rw [← hposters]
      exact freeing_setPoster hhand ht'
  · cases hstep

theorem Inv.wake (h : Inv s) (hstep : s.step (.wake t) = some s') : Inv s' := by
  simp only [step] at hstep
  split at hstep
  · rename_i y ht
    split at hstep
    · cases hstep
      have hnot : ¬ s.Notifies t := by simp [Notifies, ht]
      refine h.moved ⟨rfl, rfl⟩ id ?_ h.once (fun _ _ _ _ => freeing_setPoster (by simp))
        (fun _ _ => notifies_setPoster (.inr (.inr (.inr hnot))))
      intro y
      obtain ⟨p, hp⟩ := h.one y
      exact ⟨p, hp.of_same (holds_setPoster_same (by rw [ht]; rfl) rfl y)⟩
    · cases hstep
  · cases hstep

/-! ### The worker -/

/-- The worker waits only on an empty queue, and takes the job in front. -/
theorem take_cases (hstep : s.step .take = some s') :
    s.worker = .ready ∧ ((s.order = [] ∧ s' = { s with worker := .asleep }) ∨
      ∃ k rest job, s.order = k :: rest ∧ s.pending k = some job ∧ s' = { s with
        order := rest, pending := Function.update s.pending k none, worker := .running job }) := by
  simp only [step, take] at hstep
  split at hstep
  · rename_i hready
    refine ⟨hready, ?_⟩
    split at hstep
    · rename_i hempty
      cases hstep
      exact .inl ⟨hempty, rfl⟩
    · rename_i k rest horder
      obtain ⟨job, hjob, rfl⟩ := Option.map_eq_some_iff.1 hstep
      exact .inr ⟨k, rest, job, horder, hjob, rfl⟩
  · cases hstep

theorem Inv.take (h : Inv s) (hstep : s.step .take = some s') : Inv s' := by
  obtain ⟨hready, ⟨hempty, rfl⟩ | ⟨k, rest, job, horder, hjob, rfl⟩⟩ := take_cases hstep
  · refine ⟨h.nodup, h.keys, h.jobs, fun y => ?_, h.once, h.hand, fun _ hne => absurd hempty hne⟩
    obtain ⟨p, hp⟩ := h.one y
    refine ⟨p, hp.of_same fun q => ?_⟩
    cases q <;> simp [Holds, hready]
  · have hnodup := h.nodup
    rw [horder, List.nodup_cons] at hnodup
    refine ⟨hnodup.2, ?_, ?_, fun y => ?_, h.once, h.hand, by simp⟩
    · intro k'
      have hkeys := h.keys k'
      by_cases hk : k' = k
      · subst hk
        simpa using hnodup.1
      · simpa [horder, hk] using hkeys
    · intro k' job' hk'
      by_cases hk : k' = k
      · simp [hk] at hk'
      · exact h.jobs k' job' (by simpa [Function.update_of_ne hk] using hk')
    · obtain ⟨p, hp⟩ := h.one y
      have hqueued : s.Holds y (.pending k) ↔ job.sync = some y := by simp [Holds, hjob]
      have hidle : ¬ s.Holds y .running := by simp [Holds, hready]
      have hended : ¬ s.Holds y .ended := by simp [Holds, hready]
      have hplaces : ∀ q, ({ s with
          order := rest, pending := Function.update s.pending k none, worker := .running job } :
            Shard K).Holds y q ↔
          (q = .running ∧ job.sync = some y) ∨ (q ≠ .pending k ∧ s.Holds y q) := by
        intro q
        cases q with
        | pending k' => by_cases hk : k' = k <;> simp [Holds, hk]
        | running => simpa [Holds] using fun job' hr => absurd (hready ▸ hr) (by simp)
        | ended => simp [Holds, hready]
        | _ => simp [Holds]
      by_cases hy : job.sync = some y
      · have hmoved := hp.of_holds (hqueued.2 hy)
        refine ⟨.running, fun q => ?_⟩
        rw [hplaces, hmoved q]
        grind
      · refine ⟨p, hp.of_same fun q => ?_⟩
        rw [hplaces]
        grind

theorem Inv.spurious (h : Inv s) (hstep : s.step .spurious = some s') : Inv s' := by
  simp only [step] at hstep
  split at hstep
  · rename_i hasleep
    cases hstep
    refine h.moved ⟨rfl, rfl⟩ (by simp) (fun y => ?_) h.once (fun _ _ _ _ ht => ht) (by simp)
    obtain ⟨p, hp⟩ := h.one y
    refine ⟨p, hp.of_same fun q => ?_⟩
    cases q <;> simp [Holds, hasleep]
  · cases hstep

theorem Inv.finish (h : Inv s) (hstep : s.step .finish = some s') : Inv s' := by
  simp only [step] at hstep
  split at hstep
  · rename_i job hrun
    cases hstep
    refine h.moved ⟨rfl, rfl⟩ (by simp) (fun y => ?_) h.once (fun _ _ _ _ ht => ht) (by simp)
    obtain ⟨p, hp⟩ := h.one y
    have hplaces : ∀ q, ({ s with worker := .freed job.sync } : Shard K).Holds y q ↔
        (q = .ended ∧ job.sync = some y) ∨ (q ≠ .running ∧ q ≠ .ended ∧ s.Holds y q) := by
      intro q
      cases q <;> simp [Holds]
    have hrunning : s.Holds y .running ↔ job.sync = some y := by simp [Holds, hrun]
    have hended : ¬ s.Holds y .ended := by simp [Holds, hrun]
    by_cases hy : job.sync = some y
    · have hmoved := hp.of_holds (hrunning.2 hy)
      refine ⟨.ended, fun q => ?_⟩
      rw [hplaces, hmoved q]
      grind
    · refine ⟨p, hp.of_same fun q => ?_⟩
      rw [hplaces]
      grind
  · cases hstep

theorem Inv.answer (h : Inv s) (hstep : s.step .answer = some s') : Inv s' := by
  simp only [step] at hstep
  split at hstep
  · rename_i y₀ hfreed
    cases hstep
    have hin : s.Holds y₀ .ended := hfreed
    have hout : y₀ ∉ s.done := by
      obtain ⟨p, hp⟩ := h.one y₀
      have := (hp.of_holds hin .signalled).not
      simpa [Holds] using this
    refine h.moved ⟨rfl, rfl⟩ (by simp) (fun y => ?_) (List.nodup_cons.2 ⟨hout, h.once⟩)
      (fun _ _ _ _ ht => ht) (by simp)
    obtain ⟨p, hp⟩ := h.one y
    have hplaces : ∀ q, ({ s with done := y₀ :: s.done, worker := .ready } : Shard K).Holds y q ↔
        (q = .signalled ∧ y = y₀) ∨ (q ≠ .ended ∧ s.Holds y q) := by
      intro q
      cases q <;> simp [Holds, hfreed]
    by_cases hy : y = y₀
    · have hmoved := hp.of_holds (hy ▸ hin)
      refine ⟨.signalled, fun q => ?_⟩
      rw [hplaces, hmoved q]
      grind
    · have hended : ¬ s.Holds y .ended := by simpa [Holds, hfreed] using Ne.symm hy
      refine ⟨p, hp.of_same fun q => ?_⟩
      rw [hplaces]
      grind
  · rename_i hfreed
    cases hstep
    refine h.moved ⟨rfl, rfl⟩ (by simp) (fun y => ?_) h.once (fun _ _ _ _ ht => ht) (by simp)
    obtain ⟨p, hp⟩ := h.one y
    refine ⟨p, hp.of_same fun q => ?_⟩
    cases q <;> simp [Holds, hfreed]
  · cases hstep

theorem Inv.step {a : ShardAct K} (h : Inv s) (hstep : s.step a = some s') : Inv s' := by
  cases a with
  | postFill t key chunks =>
      simp only [Shard.step] at hstep
      split at hstep
      · rename_i hidle
        cases hstep
        exact h.posting (j := { key := key, chunks := chunks }) hidle rfl (by simp)
      · cases hstep
  | postClose t key sync =>
      simp only [Shard.step] at hstep
      split at hstep
      · rename_i hidle
        split at hstep
        · cases hstep
        · rename_i hfresh
          cases hstep
          exact h.posting (j := { key := key, close := true, sync := some sync }) hidle rfl
            (by simpa using hfresh)
      · cases hstep
  | free t => exact h.free hstep
  | signal t => exact h.signal hstep
  | notify t => exact h.notify hstep
  | wake t => exact h.wake hstep
  | take => exact h.take hstep
  | spurious => exact h.spurious hstep
  | finish => exact h.finish hstep
  | answer => exact h.answer hstep

theorem inv_run {acts : List (ShardAct K)} (hrun : exec Shard.step ({} : Shard K) acts = some s) :
    Inv s :=
  exec_invariant Inv (fun _ _ _ h hstep => h.step hstep) inv_init hrun

/-! ### How long a close waits -/

/-- The steps that change the queue are a post and a take of the job in front. -/
theorem step_queue {a : ShardAct K} (hstep : s.step a = some s') :
    (∃ j, a.job = some j ∧ (∀ y, j.sync = some y → y ∉ s.posted) ∧
      s'.order = (s.post j).1.order ∧ s'.pending = (s.post j).1.pending) ∨
    (a = .take ∧ ∃ k rest job, s.order = k :: rest ∧ s.pending k = some job ∧ s' = { s with
      order := rest, pending := Function.update s.pending k none, worker := .running job }) ∨
    (a.job = none ∧ (a = .take → s.order = []) ∧ s'.order = s.order ∧ s'.pending = s.pending) := by
  cases a with
  | postFill t key chunks =>
      simp only [step] at hstep
      split at hstep
      · cases hstep
        exact .inl ⟨_, rfl, by simp, rfl, rfl⟩
      · cases hstep
  | postClose t key sync =>
      simp only [step] at hstep
      split at hstep
      · split at hstep
        · cases hstep
        · rename_i hfresh
          cases hstep
          refine .inl ⟨_, rfl, by simpa using hfresh, ?_, ?_⟩
          · simp only [posting, post, setPoster]
            cases s.pending key <;> rfl
          · simp only [posting, post, setPoster]
            cases s.pending key <;> rfl
      · cases hstep
  | take =>
      obtain ⟨-, ⟨hempty, rfl⟩ | htake⟩ := take_cases hstep
      · exact .inr (.inr ⟨rfl, fun _ => hempty, rfl, rfl⟩)
      · exact .inr (.inl ⟨rfl, htake⟩)
  | notify t =>
      simp only [step] at hstep
      split at hstep
      · cases hstep
        obtain ⟨-, hqueue, -⟩ := notifyOne_spec s
        exact .inr (.inr ⟨rfl, by simp, hqueue⟩)
      · cases hstep
  | free t =>
      simp only [step] at hstep
      split at hstep
      · cases hstep
        exact .inr (.inr ⟨rfl, by simp, rfl, rfl⟩)
      · cases hstep
        exact .inr (.inr ⟨rfl, by simp, rfl, rfl⟩)
      · cases hstep
  | signal t =>
      simp only [step] at hstep
      split at hstep
      · cases hstep
        exact .inr (.inr ⟨rfl, by simp, rfl, rfl⟩)
      · cases hstep
  | wake t =>
      simp only [step] at hstep
      split at hstep
      · split at hstep
        · cases hstep
          exact .inr (.inr ⟨rfl, by simp, rfl, rfl⟩)
        · cases hstep
      · cases hstep
  | spurious =>
      simp only [step] at hstep
      split at hstep
      · cases hstep
        exact .inr (.inr ⟨rfl, by simp, rfl, rfl⟩)
      · cases hstep
  | finish =>
      simp only [step] at hstep
      split at hstep
      · cases hstep
        exact .inr (.inr ⟨rfl, by simp, rfl, rfl⟩)
      · cases hstep
  | answer =>
      simp only [step] at hstep
      split at hstep
      · cases hstep
        exact .inr (.inr ⟨rfl, by simp, rfl, rfl⟩)
      · cases hstep
        exact .inr (.inr ⟨rfl, by simp, rfl, rfl⟩)
      · cases hstep

/-- A close that is queued is superseded by a close or taken by the worker, never replaced by a
fill. -/
theorem close_kept {a : ShardAct K} (hstep : s.step a = some s') {k : K}
    {job : ShardJob K} (hjob : s.pending k = some job) (hclose : job.close = true) :
    (∃ job', s'.pending k = some job' ∧ job'.close = true) ∨
      (s'.pending k = none ∧ s'.worker = .running job) := by
  rcases step_queue hstep with ⟨j, -, -, -, hpending⟩ | ⟨-, k', rest, job', -, hjob', rfl⟩ |
    ⟨-, -, -, hpending⟩
  · left
    rcases post_cases s j with ⟨hold, heq⟩ | ⟨old, hold, hc, heq⟩ | ⟨old, hold, hc, hfill, heq⟩ |
      ⟨old, hold, hc, hfill, heq⟩ <;> rw [hpending, heq]
    · by_cases hk : k = j.key
      · rw [← hk, hjob] at hold
        cases hold
      · exact ⟨job, by simpa [Function.update_of_ne hk] using hjob, hclose⟩
    · by_cases hk : k = j.key
      · exact ⟨j, by simp [hk], hc⟩
      · exact ⟨job, by simpa [Function.update_of_ne hk] using hjob, hclose⟩
    · by_cases hk : k = j.key
      · -- a fill would have superseded a fill only
        rw [← hk, hjob] at hold
        cases hold
        rw [hclose] at hfill
        cases hfill
      · exact ⟨job, by simpa [Function.update_of_ne hk] using hjob, hclose⟩
    · exact ⟨job, hjob, hclose⟩
  · by_cases hk : k = k'
    · subst hk
      obtain rfl : job' = job := by simpa [hjob'] using hjob
      exact .inr ⟨by simp, rfl⟩
    · exact .inl ⟨job, by simpa [Function.update_of_ne hk] using hjob, hclose⟩
  · exact .inl ⟨job, by rw [hpending, hjob], hclose⟩

/-- How often the worker has looked for a job, and how many closes were posted. -/
def takes (acts : List (ShardAct K)) : Nat := acts.countP ShardAct.isTake

def closes (acts : List (ShardAct K)) : Nat := acts.countP fun a => a.job.any ShardJob.close

theorem idxOf_erase_le {α : Type} [DecidableEq α] {a b : α} (hne : b ≠ a) (l : List α) :
    (l.erase a).idxOf b ≤ l.idxOf b := by
  induction l with
  | nil => simp
  | cons x rest ih =>
      by_cases hx : x = a
      · subst hx
        rw [List.erase_cons_head, List.idxOf_cons_ne _ (Ne.symm hne)]
        exact Nat.le_succ _
      · rw [List.erase_cons_tail (by simpa using hx)]
        by_cases hb : x = b
        · subst hb
          simp
        · rw [List.idxOf_cons_ne _ hb, List.idxOf_cons_ne _ hb]
          exact Nat.succ_le_succ ih

/-- A job that is queued after a post of another was queued before it, and a close alone goes ahead
of it. -/
theorem post_ahead {j job : ShardJob K} {k : K} (h : Inv s) (hne : job ≠ j)
    (hafter : (s.post j).1.pending k = some job) :
    s.pending k = some job ∧
      (s.post j).1.order.idxOf k ≤ s.order.idxOf k + if j.close then 1 else 0 := by
  rcases post_cases s j with ⟨hold, heq⟩ | ⟨old, hold, hc, heq⟩ | ⟨old, hold, hc, hfill, heq⟩ |
    ⟨old, hold, hc, hfill, heq⟩ <;> rw [heq] at hafter ⊢
  · have hk : k ≠ j.key := by
      rintro rfl
      exact hne (by simpa using hafter.symm)
    have hbefore : s.pending k = some job := by simpa [Function.update_of_ne hk] using hafter
    have hin : k ∈ s.order := (h.keys k).2 (by simp [hbefore])
    refine ⟨hbefore, ?_⟩
    cases j.close with
    | true => simp [List.idxOf_cons_ne _ (Ne.symm hk)]
    | false => simp [List.idxOf_append_of_mem hin]
  · have hk : k ≠ j.key := by
      rintro rfl
      exact hne (by simpa using hafter.symm)
    refine ⟨by simpa [Function.update_of_ne hk] using hafter, ?_⟩
    simp only [hc, if_true]
    rw [List.idxOf_cons_ne _ (Ne.symm hk)]
    exact Nat.succ_le_succ (idxOf_erase_le hk s.order)
  · have hk : k ≠ j.key := by
      rintro rfl
      exact hne (by simpa using hafter.symm)
    exact ⟨by simpa [Function.update_of_ne hk] using hafter, Nat.le_add_right _ _⟩
  · exact ⟨hafter, Nat.le_add_right _ _⟩

/-- A step puts at most the close it posts ahead of one that is queued, and a take removes one that
was ahead. -/
theorem step_ahead {a : ShardAct K} {k : K} (h : Inv s) (hstep : s.step a = some s')
    (hy : y ∈ s.posted) (hafter : s'.Holds y (.pending k)) :
    s.Holds y (.pending k) ∧ s'.order.idxOf k + takes [a] ≤ s.order.idxOf k + closes [a] := by
  obtain ⟨job, hjob, hsync⟩ := hafter
  rcases step_queue hstep with ⟨j, ha, hnew, horder, hpending⟩ |
    ⟨rfl, k', rest, job', horder, hjob', rfl⟩ | ⟨ha, hempty, horder, hpending⟩
  · have htake : takes [a] = 0 := by cases a <;> first | rfl | cases ha
    have hcloses : closes [a] = if j.close then 1 else 0 := by
      simp [closes, ha, List.countP_cons]
    have hne : job ≠ j := by
      rintro rfl
      exact hnew y hsync hy
    obtain ⟨hbefore, hle⟩ := post_ahead h hne (hpending ▸ hjob)
    rw [horder, htake, hcloses]
    exact ⟨⟨job, hbefore, hsync⟩, hle⟩
  · by_cases hk : k = k'
    · subst hk
      simp at hjob
    · refine ⟨⟨job, by simpa [Function.update_of_ne hk] using hjob, hsync⟩, ?_⟩
      rw [horder, List.idxOf_cons_ne _ (Ne.symm hk)]
      simp [takes, closes, ShardAct.isTake]
  · refine ⟨⟨job, by rw [← hpending, hjob], hsync⟩, ?_⟩
    have hin : k ∈ s.order := (h.keys k).2 (by rw [← hpending, hjob]; rfl)
    have htake : takes [a] = 0 := by
      cases a with
      | take =>
          rw [hempty rfl] at hin
          cases hin
      | _ => rfl
    rw [horder, htake]
    omega

theorem posted_posting (s : Shard K) (t : Nat) (j : ShardJob K) :
    (s.posting t j).posted = s.posted := by
  rcases post_cases s j with ⟨-, heq⟩ | ⟨old, -, -, heq⟩ | ⟨old, -, -, -, heq⟩ |
    ⟨old, -, -, -, heq⟩ <;> simp only [posting, heq, setPoster]

theorem posted_step {a : ShardAct K} (hstep : s.step a = some s') (hy : y ∈ s.posted) :
    y ∈ s'.posted := by
  cases a with
  | postFill t key chunks =>
      simp only [step] at hstep
      split at hstep <;> cases hstep
      rwa [posted_posting]
  | postClose t key sync =>
      simp only [step] at hstep
      split at hstep
      · split at hstep <;> cases hstep
        rw [posted_posting]
        exact List.mem_cons_of_mem _ hy
      · cases hstep
  | free t | signal t | finish | answer | spurious =>
      simp only [step] at hstep
      split at hstep <;> cases hstep <;> exact hy
  | notify t =>
      simp only [step, notifyOne] at hstep
      split at hstep
      · cases hstep
        split <;> exact hy
      · cases hstep
  | wake t =>
      simp only [step] at hstep
      split at hstep
      · split at hstep <;> cases hstep
        exact hy
      · cases hstep
  | take =>
      simp only [step, take] at hstep
      split at hstep
      · split at hstep
        · cases hstep
          exact hy
        · obtain ⟨job, -, rfl⟩ := Option.map_eq_some_iff.1 hstep
          exact hy
      · cases hstep

/-- A close is passed over by closes posted after it, and by those that were ahead. -/
theorem run_ahead {acts : List (ShardAct K)} {k : K} (h : Inv s) (hrun : exec step s acts = some s')
    (hy : y ∈ s.posted) (hafter : s'.Holds y (.pending k)) :
    s.Holds y (.pending k) ∧ s'.order.idxOf k + takes acts ≤ s.order.idxOf k + closes acts := by
  induction acts generalizing s with
  | nil =>
      cases hrun
      exact ⟨hafter, Nat.le_refl _⟩
  | cons a rest ih =>
      obtain ⟨mid, hmid, hrest⟩ := exec_cons_inv hrun
      obtain ⟨hbefore, hle⟩ := ih (h.step hmid) hrest (posted_step hmid hy)
      obtain ⟨hstart, hle'⟩ := step_ahead h hmid hy hbefore
      refine ⟨hstart, ?_⟩
      have htakes : takes (a :: rest) = takes [a] + takes rest :=
        @List.countP_append _ _ [a] rest
      have hcloses : closes (a :: rest) = closes [a] + closes rest :=
        @List.countP_append _ _ [a] rest
      omega

/-! ### The close is answered -/

/-- The steps of the worker, and of threads past the locked section of `post`, reach `s'`. -/
def GoesOn (s s' : Shard K) : Prop :=
  ∃ acts : List (ShardAct K), (∀ a ∈ acts, a.goesOn = true) ∧ exec Shard.step s acts = some s'

theorem GoesOn.refl (s : Shard K) : GoesOn s s := ⟨[], by simp, rfl⟩

theorem GoesOn.trans {s₁ s₂ s₃ : Shard K} (h1 : GoesOn s₁ s₂) (h2 : GoesOn s₂ s₃) :
    GoesOn s₁ s₃ := by
  obtain ⟨acts₁, hon₁, hrun₁⟩ := h1
  obtain ⟨acts₂, hon₂, hrun₂⟩ := h2
  refine ⟨acts₁ ++ acts₂, fun a ha => ?_, exec_append hrun₁ hrun₂⟩
  exact (List.mem_append.1 ha).elim (hon₁ a) (hon₂ a)

theorem GoesOn.step {a : ShardAct K} (hon : a.goesOn = true) (hstep : s.step a = some s') :
    GoesOn s s' := ⟨[a], by simpa using hon, by simp [exec, hstep]⟩

theorem Inv.goesOn (h : Inv s) (hon : GoesOn s s') : Inv s' := by
  obtain ⟨acts, -, hrun⟩ := hon
  exact exec_invariant Inv (fun _ _ _ h hstep => h.step hstep) h hrun

/-- Who superseded a close destroys its job and signals it. -/
theorem orphaned_answered {own : Option Nat} {y : Nat} (ht : s.posters t = .signalling own y) :
    ∃ s', GoesOn s s' ∧ y ∈ s'.done := by
  have hstep : s.step (.signal t) =
      some ({ s with done := y :: s.done }.setPoster t (.notifying own)) := by
    simp only [step, ht]
  exact ⟨_, .step rfl hstep, List.mem_cons_self⟩

theorem superseded_answered {own : Option Nat} {job : Option (ShardJob K)}
    (ht : s.posters t = .freeing own job (some y)) : ∃ s', GoesOn s s' ∧ y ∈ s'.done := by
  have hstep : s.step (.free t) = some (s.setPoster t (.signalling own y)) := by
    simp only [step, ht]
  obtain ⟨s', hon, hdone⟩ := @orphaned_answered K _ (s.setPoster t (.signalling own y)) t own y
    (Function.update_self ..)
  exact ⟨s', (GoesOn.step rfl hstep).trans hon, hdone⟩

/-- So does the worker. -/
theorem ended_answered {y : Nat} (hfreed : s.worker = .freed (some y)) :
    ∃ s', GoesOn s s' ∧ y ∈ s'.done := by
  have hstep : s.step .answer = some { s with done := y :: s.done, worker := .ready } := by
    simp only [step, hfreed]
  exact ⟨_, .step rfl hstep, List.mem_cons_self⟩

theorem running_answered {job : ShardJob K} (hrun : s.worker = .running job)
    (hsync : job.sync = some y) : ∃ s', GoesOn s s' ∧ y ∈ s'.done := by
  have hstep : s.step .finish = some { s with worker := .freed job.sync } := by
    simp only [step, hrun]
  obtain ⟨s', hon, hdone⟩ :=
    @ended_answered K _ { s with worker := .freed job.sync } y (by rw [hsync])
  exact ⟨s', (GoesOn.step rfl hstep).trans hon, hdone⟩

/-- A worker that sleeps is woken by a thread on its way to the notification. -/
theorem notifying_wakes {own : Option Nat} (ht : s.posters t = .notifying own)
    (hasleep : s.worker = .asleep) :
    ∃ s', GoesOn s s' ∧ s'.worker = .ready ∧ s'.order = s.order ∧ s'.pending = s.pending := by
  have hstep : s.step (.notify t) =
      some (({ s with worker := .ready } : Shard K).setPoster t (.posted own)) := by
    simp only [step, ht, notifyOne, if_pos hasleep]
  exact ⟨_, .step rfl hstep, rfl, rfl, rfl⟩

theorem notifies_wakes (ht : s.Notifies t) (hasleep : s.worker = .asleep) :
    ∃ s', GoesOn s s' ∧ s'.worker = .ready ∧ s'.order = s.order ∧ s'.pending = s.pending := by
  have hsignalling : ∀ (s : Shard K) (own : Option Nat) (y : Nat),
      s.posters t = .signalling own y → s.worker = .asleep →
      ∃ s', GoesOn s s' ∧ s'.worker = .ready ∧ s'.order = s.order ∧ s'.pending = s.pending := by
    intro s own y ht hasleep
    have hstep : s.step (.signal t) =
        some ({ s with done := y :: s.done }.setPoster t (.notifying own)) := by
      simp only [step, ht]
    obtain ⟨s', hon, hspec⟩ := @notifying_wakes K _
      ({ s with done := y :: s.done }.setPoster t (.notifying own)) t own
      (Function.update_self ..) hasleep
    exact ⟨s', (GoesOn.step rfl hstep).trans hon, hspec⟩
  rcases ht with ⟨own, job, orphaned, ht⟩ | ⟨own, y, ht⟩ | ⟨own, ht⟩
  · cases orphaned with
    | none =>
        have hstep : s.step (.free t) = some (s.setPoster t (.notifying own)) := by
          simp only [step, ht]
        obtain ⟨s', hon, hspec⟩ := @notifying_wakes K _ (s.setPoster t (.notifying own)) t own
          (Function.update_self ..) hasleep
        exact ⟨s', (GoesOn.step rfl hstep).trans hon, hspec⟩
    | some y =>
        have hstep : s.step (.free t) = some (s.setPoster t (.signalling own y)) := by
          simp only [step, ht]
        obtain ⟨s', hon, hspec⟩ := hsignalling (s.setPoster t (.signalling own y)) own y
          (Function.update_self ..) hasleep
        exact ⟨s', (GoesOn.step rfl hstep).trans hon, hspec⟩
  · exact hsignalling s own y ht hasleep
  · exact notifying_wakes ht hasleep

/-- With something in the queue, the worker comes back to it. -/
theorem worker_returns (h : Inv s) (hne : s.order ≠ []) :
    ∃ s', GoesOn s s' ∧ s'.worker = .ready ∧ s'.order = s.order ∧ s'.pending = s.pending := by
  have hfreed : ∀ (s : Shard K) (sync : Option Nat), s.worker = .freed sync →
      ∃ s', GoesOn s s' ∧ s'.worker = .ready ∧ s'.order = s.order ∧ s'.pending = s.pending := by
    intro s sync hfreed
    cases sync with
    | none =>
        have hstep : s.step .answer = some { s with worker := .ready } := by
          simp only [step, hfreed]
        exact ⟨_, .step rfl hstep, rfl, rfl, rfl⟩
    | some y =>
        have hstep : s.step .answer = some { s with done := y :: s.done, worker := .ready } := by
          simp only [step, hfreed]
        exact ⟨_, .step rfl hstep, rfl, rfl, rfl⟩
  cases hworker : s.worker with
  | ready => exact ⟨s, .refl s, hworker, rfl, rfl⟩
  | asleep =>
      obtain ⟨t, ht⟩ := h.woken hworker hne
      exact notifies_wakes ht hworker
  | running job =>
      have hstep : s.step .finish = some { s with worker := .freed job.sync } := by
        simp only [step, hworker]
      obtain ⟨s', hon, hspec⟩ := hfreed { s with worker := .freed job.sync } job.sync rfl
      exact ⟨s', (GoesOn.step rfl hstep).trans hon, hspec⟩
  | freed sync => exact hfreed s sync hworker

/-- A worker that is ready takes the job in front. -/
theorem take_front {k : K} {rest : List K} (h : Inv s) (hready : s.worker = .ready)
    (horder : s.order = k :: rest) : ∃ job, s.pending k = some job ∧
      GoesOn s { s with
        order := rest, pending := Function.update s.pending k none, worker := .running job } := by
  obtain ⟨job, hjob⟩ := Option.isSome_iff_exists.1 ((h.keys k).1 (by simp [horder]))
  have hstep : s.step .take = some { s with
      order := rest, pending := Function.update s.pending k none, worker := .running job } := by
    simp only [step, if_pos hready, take, horder, hjob, Option.map_some]
  exact ⟨job, hjob, .step rfl hstep⟩

/-- A queued close is answered: the worker takes what is ahead of it, one job after the other. -/
theorem pending_answered {k : K} (n : Nat) (h : Inv s) (hn : s.order.idxOf k = n)
    (hpending : s.Holds y (.pending k)) : ∃ s', GoesOn s s' ∧ y ∈ s'.done := by
  induction n generalizing s with
  | zero =>
      obtain ⟨job, hjob, hsync⟩ := hpending
      have hin : k ∈ s.order := (h.keys k).2 (by simp [hjob])
      obtain ⟨s₁, hon, hready, horder, hqueue⟩ := worker_returns h (List.ne_nil_of_mem hin)
      obtain ⟨rest, hfront⟩ : ∃ rest, s.order = k :: rest := by
        cases hs : s.order with
        | nil => simp [hs] at hin
        | cons k' rest =>
            rw [hs] at hn
            by_cases hk : k' = k
            · exact ⟨rest, by rw [hk]⟩
            · rw [List.idxOf_cons_ne _ hk] at hn
              cases hn
      obtain ⟨job', hjob', htake⟩ := take_front (h.goesOn hon) hready (horder.trans hfront)
      obtain rfl : job' = job := by
        rw [hqueue, hjob] at hjob'
        exact (Option.some.inj hjob').symm
      obtain ⟨s₂, hlast, hdone⟩ := running_answered (s := { s₁ with
        order := rest, pending := Function.update s₁.pending k none, worker := .running job' })
        rfl hsync
      exact ⟨s₂, (hon.trans htake).trans hlast, hdone⟩
  | succ n ih =>
      obtain ⟨job, hjob, hsync⟩ := hpending
      have hin : k ∈ s.order := (h.keys k).2 (by simp [hjob])
      obtain ⟨s₁, hon, hready, horder, hqueue⟩ := worker_returns h (List.ne_nil_of_mem hin)
      cases hs : s.order with
      | nil => simp [hs] at hin
      | cons k' rest =>
          have hk : k' ≠ k := by
            rintro rfl
            simp [hs] at hn
          obtain ⟨job', hjob', htake⟩ := take_front (h.goesOn hon) hready (horder.trans hs)
          rw [hs, List.idxOf_cons_ne _ hk] at hn
          obtain ⟨s₂, hlast, hdone⟩ := ih (h.goesOn (hon.trans htake)) (Nat.succ.inj hn)
            ⟨job, by simp [Function.update_of_ne (Ne.symm hk), hqueue, hjob], hsync⟩
          exact ⟨s₂, (hon.trans htake).trans hlast, hdone⟩

theorem close_answered (h : Inv s) (hy : y ∈ s.posted) : ∃ s', GoesOn s s' ∧ y ∈ s'.done := by
  obtain ⟨p, hp⟩ := h.one y
  have hin := hp.holds
  cases p with
  | unposted => exact absurd hy hin
  | pending k => exact pending_answered _ h rfl hin
  | running =>
      obtain ⟨job, hrun, hsync⟩ := hin
      exact running_answered hrun hsync
  | ended => exact ended_answered hin
  | superseded t =>
      obtain ⟨own, job, ht⟩ := hin
      exact superseded_answered ht
  | orphaned t =>
      obtain ⟨own, ht⟩ := hin
      exact orphaned_answered ht
  | signalled => exact ⟨s, .refl s, hin⟩

end Steps

/-! ### Every close is answered once -/

/-- What the queue promises.  `order_` lists the keys of `pending_`, each once.  A queued close gives
way to a close of its key or to the worker.  A posted `Sync` is held by one queued or running job, or
is in the hands of the one thread that took its job out and has yet to signal it, or is signalled: once,
and with no job left that has it.  Whoever has it can go on until it is signalled, and while it is
queued the worker has not looked for a job more often than there were jobs ahead of it and closes
posted since. -/
structure Answers (s : Shard K) : Prop where
  nodup : s.order.Nodup
  keys : ∀ k, k ∈ s.order ↔ (s.pending k).isSome
  kept : ∀ a s', s.step a = some s' → ∀ k job, s.pending k = some job → job.close = true →
    (∃ job', s'.pending k = some job' ∧ job'.close = true) ∨
      (s'.pending k = none ∧ s'.worker = .running job)
  one : ∀ y ∈ s.posted, ∃ p, p ≠ .unposted ∧ s.OnlyAt y p
  once : ∀ y, s.done.count y ≤ 1
  destroyed : ∀ y ∈ s.done, ∀ job, job.sync = some y → (∀ k, s.pending k ≠ some job) ∧
    s.worker ≠ .running job ∧ ∀ t own o, s.posters t ≠ .freeing own (some job) o
  answered : ∀ y ∈ s.posted, ∃ s', GoesOn s s' ∧ y ∈ s'.done
  passed : ∀ acts s', exec Shard.step s acts = some s' → ∀ y ∈ s.posted, ∀ k,
    s'.Holds y (.pending k) → takes acts ≤ s.order.idxOf k + closes acts

theorem Inv.answers (h : Inv s) : Answers s where
  nodup := h.nodup
  keys := h.keys
  kept _ _ hstep _ _ hjob hclose := close_kept hstep hjob hclose
  one y hy := by
    obtain ⟨p, hp⟩ := h.one y
    refine ⟨p, ?_, hp⟩
    rintro rfl
    exact hp.holds hy
  once y := List.nodup_iff_count.1 h.once y
  destroyed y hy job hsync := by
    obtain ⟨p, hp⟩ := h.one y
    have hdone := hp.of_holds (q := .signalled) hy
    refine ⟨fun k hk => ?_, fun hrun => ?_, fun t own o ht => ?_⟩
    · exact absurd ((hdone (.pending k)).1 ⟨job, hk, hsync⟩) (by simp)
    · exact absurd ((hdone .running).1 ⟨job, hrun, hsync⟩) (by simp)
    · have ho : o = some y := (h.hand t own (some job) o ht).trans hsync
      exact absurd ((hdone (.superseded t)).1 ⟨own, some job, ho ▸ ht⟩) (by simp)
  answered _ hy := close_answered h hy
  passed acts s' hrun y hy k hafter := by
    obtain ⟨-, hle⟩ := run_ahead h hrun hy hafter
    omega

end Shard

/-- **Every close is answered once**, after its job is destroyed: in every interleaving of posts with
the worker. -/
theorem shard_answers_closes {K : Type} [DecidableEq K] (acts : List (ShardAct K)) (s : Shard K)
    (hrun : exec Shard.step {} acts = some s) : s.Answers :=
  (Shard.inv_run hrun).answers

def twoCloses : List (ShardAct Nat) :=
  [.postFill 0 5 [(0, 100)], .free 0, .notify 0, .postClose 1 5 0, .postClose 2 5 1, .take, .free 2,
    .signal 2, .finish, .answer]

/-- A fill gives way to a close, and that to another close of the handle; both are signalled. -/
theorem shard_answers_two_closes :
    ∃ s : Shard Nat, exec Shard.step {} twoCloses = some s ∧ s.done = [1, 0] ∧ s.Answers :=
  ⟨_, rfl, rfl, shard_answers_closes twoCloses _ rfl⟩

/-! ### Between the queue and the signal -/

namespace Shard

/-- A close of handle 0 is queued, alone, and thread 1 is free to close handle 1. -/
structure Behind (n : Nat) (s : Shard Nat) : Prop where
  order : s.order = [0]
  first : s.Holds 0 (.pending 0)
  other : s.pending 1 = none
  worker : s.worker = .ready
  idle : s.posters 1 = .idle
  posted : ∀ y ∈ s.posted, y ≤ n

/-- The other handle is closed, ahead of the first. -/
def overtake (n : Nat) : List (ShardAct Nat) :=
  [.postClose 1 1 (n + 1), .free 1, .notify 1, .take, .finish, .answer, .wake 1]

theorem Behind.overtaken {n : Nat} {s : Shard Nat} (h : Behind n s) :
    ∃ s', exec Shard.step s (overtake n) = some s' ∧ Behind (n + 1) s' := by
  have hfresh : n + 1 ∉ s.posted := fun hin => absurd (h.posted _ hin) (by omega)
  simp only [overtake, exec, step, h.idle, if_neg hfresh, posting, post, h.other, setPoster,
    notifyOne, take, h.worker, h.order, Function.update_self, Option.bind_some, if_true,
    Option.map_some, reduceCtorEq, if_false, ShardPoster.posted, List.mem_cons_self]
  refine ⟨_, rfl, ⟨rfl, ?_, by simp, rfl, by simp, ?_⟩⟩
  · simpa [Holds] using h.first
  · intro y hy
    rcases List.mem_cons.1 hy with rfl | hy
    · exact Nat.le_refl _
    · exact Nat.le_succ_of_le (h.posted y hy)

def overtakes : Nat → List (ShardAct Nat)
  | 0 => []
  | n + 1 => overtakes n ++ overtake n

theorem Behind.run (n : Nat) {s : Shard Nat} (h : Behind 0 s) :
    ∃ s', exec Shard.step s (overtakes n) = some s' ∧ Behind n s' := by
  induction n with
  | zero => exact ⟨s, rfl, h⟩
  | succ n ih =>
      obtain ⟨mid, hmid, hbehind⟩ := ih
      obtain ⟨s', hs', hlast⟩ := hbehind.overtaken
      exact ⟨s', exec_append hmid hs', hlast⟩

theorem takes_overtakes (n : Nat) : takes (overtakes n) = n := by
  induction n with
  | zero => rfl
  | succ n ih =>
      have happend : takes (overtakes n ++ overtake n) = takes (overtakes n) + takes (overtake n) :=
        List.countP_append
      rw [overtakes, happend, ih]
      rfl

end Shard

/-- A `Sync` is for a while with no queued or running job and not signalled either: here its close has
been superseded and not yet signalled.  And closes of other handles go ahead of one as long as they
come. -/
theorem superseded_close_in_hand :
    (∃ s : Shard Nat, exec Shard.step {} [.postClose 0 5 0, .postClose 1 5 1] = some s ∧
      0 ∈ s.posted ∧ 0 ∉ s.done ∧ (∀ k, ¬ s.Holds 0 (.pending k)) ∧ ¬ s.Holds 0 .running) ∧
    ∀ n, ∃ (acts : List (ShardAct Nat)) (s s' : Shard Nat),
      exec Shard.step {} [.postClose 0 0 0] = some s ∧ exec Shard.step s acts = some s' ∧
        Shard.takes acts = n ∧ s'.Holds 0 (.pending 0) := by
  constructor
  · obtain ⟨s, hrun⟩ : ∃ s : Shard Nat,
        exec Shard.step {} [.postClose 0 5 0, .postClose 1 5 1] = some s := ⟨_, rfl⟩
    obtain ⟨p, hp⟩ := (Shard.inv_run hrun).one 0
    have hhand : s.OnlyAt 0 (.superseded 1) := by
      refine hp.of_holds ?_
      cases hrun
      exact ⟨_, _, rfl⟩
    have hposted : 0 ∈ s.posted := by
      cases hrun
      decide
    exact ⟨s, hrun, hposted, fun hdone => absurd ((hhand .signalled).1 hdone) (by simp),
      fun k hk => absurd ((hhand (.pending k)).1 hk) (by simp),
      fun hrunning => absurd ((hhand .running).1 hrunning) (by simp)⟩
  · intro n
    obtain ⟨s', hrun, hbehind⟩ := Shard.Behind.run n
      (s := ({ posted := [0] } : Shard Nat).posting 0 { key := 0, close := true, sync := some 0 })
      ⟨rfl, ⟨_, rfl, rfl⟩, rfl, rfl, rfl, by simp [Shard.posting, Shard.post, Shard.setPoster]⟩
    exact ⟨Shard.overtakes n, _, s', rfl, hrun, Shard.takes_overtakes n, hbehind.first⟩

end UCache
