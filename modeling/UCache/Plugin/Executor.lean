/-
Module: UCache.Plugin.Executor
Purpose: The executor: tasks posted to a queue or kept for a time by one timer thread, worker
  threads and the timer asleep on condition variables, and the notifications that wake them.
Trusted boundary: none
Main exports: Timed, Worker, executor_keeps
-/
import UCache.Lib.Run
import UCache.Lib.Slots

namespace UCache

open Lib

/-! ### The threads -/

/-- [SRC Executor.h:47-51] -/
structure Timed where
  deadlineNs : Nat
  task : Nat
deriving DecidableEq, Repr

/-- [SRC Executor.cc:48-59] A worker takes the lock to look at the queue, waits on `cv_`, or runs a
task. -/
inductive Worker where
  | checking
  | asleep
  | busy (task : Nat)
deriving DecidableEq, Repr

/-- [SRC Executor.cc:61-81] The timer thread takes the lock to look at the timers, waits on `tcv_`
(with a deadline in `wait_for`), or hands a task over. -/
inductive TimerPc where
  | checking
  | asleep (deadline : Option Nat)
  | handing (task : Nat)
deriving DecidableEq, Repr

/-- [SRC Executor.h:40-56] The executor's queues and threads.  A task is a number, in the order of
asking.  `stamped` are the calls of `postAfter` that read the clock and do not have `tmu_` yet;
`notifies` and `tnotifies` are the `notify_one` calls to come.  `due` is when each task may start,
`posted`, `started` (with the time) and `done` are what happened so far. -/
structure ExecWorld where
  now : Nat := 0
  queue : List Nat := []
  notifies : Nat := 0
  workers : List Worker
  stamped : List Timed := []
  timers : List Timed := []
  tnotifies : Nat := 0
  timer : TimerPc := .checking
  due : List Nat := []
  posted : List Nat := []
  started : List (Nat × Nat) := []
  done : List Nat := []

/-- [SRC Executor.cc:17-25] -/
def newExecutor (threads : Nat) : ExecWorld where
  workers := List.replicate threads .checking

/-- [SRC Executor.cc:83-88] `hw` is what `hardware_concurrency` returns. -/
def instanceThreads (threads hw : Nat) : Nat :=
  if threads ≠ 0 then threads else min 8 (max 1 hw)

/-- What the callers, the threads, the clock and the system do.  `tlook` says which of the timers
with the least deadline is on top; `wake` and `twake` are wakeups for no reason. -/
inductive ExecAct where
  | post
  | postAfter (delayMs : Nat)
  | push (k : Nat)
  | notify (i : Nat)
  | tnotify
  | look (i : Nat)
  | finish (i : Nat)
  | tlook (k : Nat)
  | hand
  | timeout
  | wake (i : Nat)
  | twake
  | tick (ns : Nat)
deriving DecidableEq, Repr

namespace ExecWorld

/-- The lock of the queue is held for this; the notification follows. -/
def enqueue (w : ExecWorld) (task : Nat) : ExecWorld :=
  { w with
    queue := w.queue ++ [task]
    posted := w.posted ++ [task]
    notifies := w.notifies + 1 }

def setWorker (w : ExecWorld) (i : Nat) (x : Worker) : ExecWorld :=
  { w with workers := w.workers.set i x }

/-- [SRC Executor.cc:27-33] -/
def post (w : ExecWorld) : ExecWorld :=
  { w with due := w.due ++ [w.now] }.enqueue w.due.length

/-- [SRC Executor.cc:35-40] The deadline is a 64-bit number. -/
def postAfter (w : ExecWorld) (delayMs : Nat) : ExecWorld :=
  if delayMs = 0 then w.post
  else
    { w with
      due := w.due ++ [w.now + delayMs * 1000000]
      stamped := w.stamped ++ [⟨(w.now + delayMs * 1000000 % 2 ^ 64) % 2 ^ 64, w.due.length⟩] }

/-- [SRC Executor.cc:41-44] -/
def push (w : ExecWorld) (k : Nat) : Option ExecWorld :=
  (w.stamped[k]?).map fun x =>
    { w with
      stamped := w.stamped.eraseIdx k
      timers := x :: w.timers
      tnotifies := w.tnotifies + 1 }

/-- [SRC Executor.cc:32] A notification wakes one of those that wait, or nobody where none does. -/
def notify (w : ExecWorld) (i : Nat) : Option ExecWorld :=
  if w.notifies = 0 then none
  else if w.workers[i]? = some .asleep then
    some { w.setWorker i .checking with notifies := w.notifies - 1 }
  else if .asleep ∈ w.workers then none
  else some { w with notifies := w.notifies - 1 }

/-- [SRC Executor.cc:45] -/
def tnotify (w : ExecWorld) : Option ExecWorld :=
  if w.tnotifies = 0 then none
  else
    some { w with
      tnotifies := w.tnotifies - 1
      timer := match w.timer with
        | .asleep _ => .checking
        | t => t }

/-- [SRC Executor.cc:51-56] -/
def look (w : ExecWorld) (i : Nat) : Option ExecWorld :=
  if w.workers[i]? = some .checking then
    match w.queue with
    | [] => some (w.setWorker i .asleep)
    | task :: rest =>
        some { w.setWorker i (.busy task) with
          queue := rest
          started := w.started ++ [(task, w.now)] }
  else none

/-- [SRC Executor.cc:57] -/
def finish (w : ExecWorld) (i : Nat) : Option ExecWorld :=
  match w.workers[i]? with
  | some (.busy task) => some { w.setWorker i .checking with done := w.done ++ [task] }
  | _ => none

/-- [SRC Executor.cc:64-77] -/
def tlook (w : ExecWorld) (k : Nat) : Option ExecWorld :=
  if w.timer ≠ .checking then none
  else if w.timers = [] then some { w with timer := .asleep none }
  else
    (w.timers[k]?).bind fun x =>
      if w.timers.all fun y => x.deadlineNs ≤ y.deadlineNs then
        if x.deadlineNs ≤ w.now then
          some { w with timers := w.timers.eraseIdx k, timer := .handing x.task }
        else some { w with timer := .asleep (some x.deadlineNs) }
      else none

/-- [SRC Executor.cc:78-79] -/
def hand (w : ExecWorld) : Option ExecWorld :=
  match w.timer with
  | .handing task => some { w.enqueue task with timer := .checking }
  | _ => none

/-- [SRC Executor.cc:75] The time of `wait_for` is over. -/
def timeout (w : ExecWorld) : Option ExecWorld :=
  match w.timer with
  | .asleep (some d) => if d ≤ w.now then some { w with timer := .checking } else none
  | _ => none

/-- A worker wakes for no reason. -/
def wake (w : ExecWorld) (i : Nat) : Option ExecWorld :=
  if w.workers[i]? = some .asleep then some (w.setWorker i .checking) else none

def twake (w : ExecWorld) : Option ExecWorld :=
  match w.timer with
  | .asleep _ => some { w with timer := .checking }
  | _ => none

def step (w : ExecWorld) : ExecAct → Option ExecWorld
  | .post => some w.post
  | .postAfter delayMs => some (w.postAfter delayMs)
  | .push k => w.push k
  | .notify i => w.notify i
  | .tnotify => w.tnotify
  | .look i => w.look i
  | .finish i => w.finish i
  | .tlook k => w.tlook k
  | .hand => w.hand
  | .timeout => w.timeout
  | .wake i => w.wake i
  | .twake => w.twake
  | .tick ns => some { w with now := w.now + ns }

end ExecWorld

/-! ### What the executor promises -/

def Worker.task : Worker → Option Nat
  | .busy task => some task
  | _ => none

def TimerPc.task : TimerPc → Option Nat
  | .handing task => some task
  | _ => none

/-- A step of the executor's own threads, which no caller, clock or stray wakeup causes. -/
def ExecAct.Own : ExecAct → Prop
  | .post | .postAfter _ | .wake _ | .twake | .tick _ => False
  | _ => True

/-- The deadline fits the signed 64 bits of the waits. -/
def ExecLegal (w : ExecWorld) : ExecAct → Prop
  | .postAfter delayMs => w.now + delayMs * 1000000 < 2 ^ 63
  | _ => True

namespace ExecWorld

/-- Where the tasks are. -/
def places (w : ExecWorld) : List Nat :=
  w.stamped.map Timed.task ++ (w.timers.map Timed.task ++ (w.timer.task.toList ++
    (w.queue ++ (w.workers.filterMap Worker.task ++ w.done))))

/-- The task may start at that time. -/
def DueBy (w : ExecWorld) (t s : Nat) : Prop := ∃ d, w.due[t]? = some d ∧ d ≤ s

/-- No thread of the executor can do anything. -/
def Stuck (w : ExecWorld) : Prop := ∀ a : ExecAct, a.Own → w.step a = none

end ExecWorld

def Worker.load : Worker → Nat
  | .checking => 1
  | .asleep => 0
  | .busy _ => 2

def TimerPc.load (now : Nat) : TimerPc → Nat
  | .checking => 1
  | .asleep none => 0
  | .asleep (some d) => if d ≤ now then 2 else 0
  | .handing _ => 6

/-- A bound on what the threads still do by themselves. -/
def ExecWorld.load (w : ExecWorld) : Nat :=
  9 * w.stamped.length + 6 * w.timers.length + w.timer.load w.now + 2 * w.queue.length +
    (w.workers.map Worker.load).sum + 2 * w.notifies + 2 * w.tnotifies

/-- Every task is in one place, once; tasks start in the order in which they were posted, and none
before its time; and by themselves the threads come to rest, with every task done but those whose
time has not come. -/
structure ExecSafe (w : ExecWorld) : Prop where
  once : w.places.Perm (List.range w.due.length)
  fifo : w.posted = w.started.map Prod.fst ++ w.queue
  early : ∀ p ∈ w.started, w.DueBy p.1 p.2
  ends : ∀ acts w', (∀ a ∈ acts, a.Own) → exec ExecWorld.step w acts = some w' →
    acts.length ≤ w.load
  settled : w.Stuck → ∀ t < w.due.length, t ∈ w.done ∨ ∃ d, w.due[t]? = some d ∧ w.now < d

/-! ### What every step keeps -/

/-- A worker sleeps beside a queued task only while a notification or another worker is on its way
to it; the timer thread sleeps past a deadline only while a notification is. -/
structure ExecOk (w : ExecWorld) : Prop where
  staffed : w.workers ≠ []
  once : w.places.Perm (List.range w.due.length)
  fifo : w.posted = w.started.map Prod.fst ++ w.queue
  early : ∀ p ∈ w.started, w.DueBy p.1 p.2
  stamps : ∀ x ∈ w.stamped, w.due[x.task]? = some x.deadlineNs
  dated : ∀ x ∈ w.timers, w.due[x.task]? = some x.deadlineNs
  held : ∀ t, w.timer = .handing t → w.DueBy t w.now
  ripe : ∀ t ∈ w.queue, w.DueBy t w.now
  heard : .asleep ∈ w.workers → w.queue.length ≤ w.notifies + w.workers.count .checking
  timely : w.tnotifies = 0 → ∀ d, w.timer = .asleep d →
    ∀ y ∈ w.timers, ∃ e, d = some e ∧ e ≤ y.deadlineNs

variable {w w' : ExecWorld}

theorem executor_start {n : Nat} (hn : 0 < n) : ExecOk (newExecutor n) where
  staffed := by
    intro h
    have hlen := congrArg List.length h
    simp [newExecutor] at hlen
    omega
  once := by
    have hidle : (List.replicate n Worker.checking).filterMap Worker.task = [] := by
      apply List.filterMap_eq_nil_iff.2
      intro x hx
      rw [(List.mem_replicate.1 hx).2]
      rfl
    simp [ExecWorld.places, newExecutor, TimerPc.task, hidle]
  fifo := rfl
  early := by simp [newExecutor]
  stamps := by simp [newExecutor]
  dated := by simp [newExecutor]
  held := by
    intro t h
    cases h
  ripe := by simp [newExecutor]
  heard := by simp [newExecutor]
  timely := by
    intro _ d h
    cases h

/-- A task's time stays as it was set. -/
theorem getElem?_append_due {l : List Nat} {t d : Nat} (x : Nat) (h : l[t]? = some d) :
    (l ++ [x])[t]? = some d := by
  rw [List.getElem?_append_left (List.getElem?_eq_some_iff.1 h).1, h]

theorem ExecWorld.DueBy.asked {t s x : Nat} (h : w.DueBy t s) (hdue : w'.due = w.due ++ [x]) :
    w'.DueBy t s := by
  obtain ⟨d, hd, hle⟩ := h
  exact ⟨d, by rw [hdue, getElem?_append_due x hd], hle⟩

theorem ExecWorld.DueBy.later {t s s' : Nat} (h : w.DueBy t s) (hdue : w'.due = w.due)
    (hle : s ≤ s') : w'.DueBy t s' := by
  obtain ⟨d, hd, hds⟩ := h
  exact ⟨d, by rw [hdue, hd], Nat.le_trans hds hle⟩

/-- A step that asks for no task and only moves tasks about. -/
theorem ExecOk.moved (h : ExecOk w) (hdue : w'.due = w.due)
    (hcount : ∀ t, w'.places.count t = w.places.count t) :
    w'.places.Perm (List.range w'.due.length) := by
  rw [hdue]
  exact (List.perm_iff_count.2 hcount).trans h.once

/-- A task asked for without a delay. -/
theorem post_keeps (h : ExecOk w) : ExecOk w.post where
  staffed := h.staffed
  once := by
    rw [List.perm_iff_count]
    intro t
    have hcount := h.once.count_eq t
    simp only [ExecWorld.post, ExecWorld.enqueue, ExecWorld.places, List.count_append,
      List.length_append, List.length_singleton, List.range_succ] at hcount ⊢
    omega
  fifo := by
    simp only [ExecWorld.post, ExecWorld.enqueue]
    rw [h.fifo, List.append_assoc]
  early p hp := (h.early p hp).asked rfl
  stamps x hx := getElem?_append_due _ (h.stamps x hx)
  dated x hx := getElem?_append_due _ (h.dated x hx)
  held t ht := (h.held t ht).asked rfl
  ripe := by
    intro t ht
    rcases List.mem_append.1 ht with ht | ht
    · exact (h.ripe t ht).asked rfl
    · rw [List.mem_singleton.1 ht]
      exact ⟨w.now, by simp [ExecWorld.post, ExecWorld.enqueue], Nat.le_refl _⟩
  heard := by
    intro hs
    have hheard := h.heard hs
    simp only [ExecWorld.post, ExecWorld.enqueue, List.length_append, List.length_singleton]
    omega
  timely := h.timely

theorem postAfter_keeps (h : ExecOk w) {delayMs : Nat}
    (hfits : w.now + delayMs * 1000000 < 2 ^ 64) : ExecOk (w.postAfter delayMs) := by
  unfold ExecWorld.postAfter
  split
  · exact post_keeps h
  have hdeadline : (w.now + delayMs * 1000000 % 2 ^ 64) % 2 ^ 64 = w.now + delayMs * 1000000 := by
    omega
  rw [hdeadline]
  exact {
    staffed := h.staffed
    once := by
      rw [List.perm_iff_count]
      intro t
      have hcount := h.once.count_eq t
      simp only [ExecWorld.places, List.count_append, List.map_append, List.map_cons, List.map_nil,
        List.length_append, List.length_singleton, List.range_succ] at hcount ⊢
      omega
    fifo := h.fifo
    early := fun p hp => (h.early p hp).asked rfl
    stamps := by
      intro x hx
      rcases List.mem_append.1 hx with hx | hx
      · exact getElem?_append_due _ (h.stamps x hx)
      · rw [List.mem_singleton.1 hx]
        simp
    dated := fun x hx => getElem?_append_due _ (h.dated x hx)
    held := fun t ht => (h.held t ht).asked rfl
    ripe := fun t ht => (h.ripe t ht).asked rfl
    heard := h.heard
    timely := h.timely }

theorem push_keeps (h : ExecOk w) {k : Nat} (hstep : w.push k = some w') : ExecOk w' := by
  simp only [ExecWorld.push, Option.map_eq_some_iff] at hstep
  obtain ⟨x, hx, rfl⟩ := hstep
  have hperm := perm_eraseIdx hx
  exact { h with
    once := by
      refine h.moved rfl ?_
      intro t
      have hmove := (hperm.map Timed.task).count_eq t
      simp only [ExecWorld.places, List.count_append, List.map_cons, List.count_cons] at hmove ⊢
      omega
    stamps := fun y hy => h.stamps y (List.mem_of_mem_eraseIdx hy)
    dated := by
      intro y hy
      rcases List.mem_cons.1 hy with rfl | hy
      · exact h.stamps y (hperm.mem_iff.2 List.mem_cons_self)
      · exact h.dated y hy
    timely := by
      intro hzero
      simp at hzero }

/-! ### The workers -/

variable {i : Nat}

theorem set_ne_nil {ws : List Worker} (h : ws ≠ []) (i : Nat) (x : Worker) : ws.set i x ≠ [] := by
  intro hnil
  apply h
  apply List.length_eq_zero_iff.1
  rw [← List.length_set (i := i) (a := x)]
  exact List.length_eq_zero_iff.2 hnil

/-- How a worker's change moves the tasks that run. -/
theorem count_running {ws : List Worker} {x : Worker} (hi : ws[i]? = some x) (y : Worker)
    (t : Nat) :
    x.task.toList.count t + ((ws.set i y).filterMap Worker.task).count t =
      y.task.toList.count t + (ws.filterMap Worker.task).count t := by
  have hperm := (perm_set (y := y) hi).filterMap Worker.task
  have hcount := hperm.count_eq t
  cases hx : x.task <;> cases hy : y.task <;> simp_all [List.count_cons] <;> omega

/-- How it moves the workers that look at the queue. -/
theorem count_checking {ws : List Worker} {x : Worker} (hi : ws[i]? = some x) (y : Worker) :
    [x].count .checking + (ws.set i y).count .checking =
      [y].count .checking + ws.count .checking := by
  have hcount := (perm_set (y := y) hi).count_eq .checking
  simp only [List.count_cons, List.count_nil] at hcount ⊢
  omega

/-- One that sleeps slept before, unless it is the one that changed. -/
theorem asleep_of_set {ws : List Worker} {y : Worker} (hy : y ≠ .asleep)
    (h : .asleep ∈ ws.set i y) : .asleep ∈ ws := by
  rcases List.mem_or_eq_of_mem_set h with hmem | heq
  · exact hmem
  · exact absurd heq.symm hy

theorem wakeWorker_keeps (h : ExecOk w) (hi : w.workers[i]? = some .asleep) :
    ExecOk (w.setWorker i .checking) :=
  { h with
    staffed := set_ne_nil h.staffed i .checking
    once := by
      refine h.moved rfl ?_
      intro t
      have hrun := count_running hi .checking t
      simp only [ExecWorld.places, ExecWorld.setWorker, List.count_append, Worker.task,
        Option.toList_none, List.count_nil] at hrun ⊢
      omega
    heard := by
      intro _
      have hheard := h.heard (List.mem_of_getElem? hi)
      have hcheck := count_checking hi .checking
      simp [ExecWorld.setWorker] at hcheck ⊢
      omega }

theorem notify_keeps (h : ExecOk w) (hstep : w.notify i = some w') : ExecOk w' := by
  unfold ExecWorld.notify at hstep
  split at hstep
  · cases hstep
  split at hstep
  case isTrue hi =>
    cases hstep
    exact { wakeWorker_keeps h hi with
      heard := by
        intro _
        have hheard := h.heard (List.mem_of_getElem? hi)
        have hcheck := count_checking hi .checking
        simp [ExecWorld.setWorker] at hcheck ⊢
        omega }
  split at hstep
  · cases hstep
  case isFalse hnone =>
    cases hstep
    exact { h with heard := fun hs => absurd hs hnone }

/-- The queue is looked at under the lock: an empty one lets the worker sleep, a task is taken. -/
theorem look_keeps (h : ExecOk w) (hstep : w.look i = some w') : ExecOk w' := by
  unfold ExecWorld.look at hstep
  split at hstep
  case isFalse => cases hstep
  rename_i hi
  split at hstep
  case h_1 hnil =>
    cases hstep
    exact { h with
      staffed := set_ne_nil h.staffed i .asleep
      once := by
        refine h.moved rfl ?_
        intro t
        have hrun := count_running hi .asleep t
        simp only [ExecWorld.places, ExecWorld.setWorker, List.count_append, Worker.task,
          Option.toList_none, List.count_nil] at hrun ⊢
        omega
      heard := by
        intro _
        simp [ExecWorld.setWorker, hnil] }
  case h_2 task rest hqueue =>
    cases hstep
    exact { h with
      staffed := set_ne_nil h.staffed i (.busy task)
      once := by
        refine h.moved rfl ?_
        intro t
        have hrun := count_running hi (.busy task) t
        simp only [ExecWorld.places, ExecWorld.setWorker, hqueue, List.count_append,
          List.count_cons, Worker.task, Option.toList_none, Option.toList_some, List.count_nil]
          at hrun ⊢
        omega
      fifo := by
        simp [ExecWorld.setWorker, h.fifo, hqueue]
      early := by
        intro p hp
        rcases List.mem_append.1 hp with hp | hp
        · exact h.early p hp
        · rw [List.mem_singleton.1 hp]
          exact h.ripe task (by rw [hqueue]; exact List.mem_cons_self)
      ripe := fun t ht => h.ripe t (by rw [hqueue]; exact List.mem_cons_of_mem task ht)
      heard := by
        intro hs
        have hheard := h.heard (asleep_of_set Worker.noConfusion hs)
        have hcheck := count_checking hi (.busy task)
        simp [ExecWorld.setWorker, hqueue] at hheard hcheck ⊢
        omega }

theorem finish_keeps (h : ExecOk w) (hstep : w.finish i = some w') : ExecOk w' := by
  unfold ExecWorld.finish at hstep
  split at hstep
  case h_2 => cases hstep
  case h_1 task hi =>
    cases hstep
    exact { h with
      staffed := set_ne_nil h.staffed i .checking
      once := by
        refine h.moved rfl ?_
        intro t
        have hrun := count_running hi .checking t
        simp only [ExecWorld.places, ExecWorld.setWorker, List.count_append, List.count_cons,
          Worker.task, Option.toList_none, Option.toList_some, List.count_nil] at hrun ⊢
        omega
      heard := by
        intro hs
        have hheard := h.heard (asleep_of_set Worker.noConfusion hs)
        have hcheck := count_checking hi .checking
        simp [ExecWorld.setWorker] at hcheck ⊢
        omega }

/-! ### The timer thread -/

/-- The timer thread moves on with the task it has, if any. -/
theorem ExecOk.timed (h : ExecOk w) {pc : TimerPc} {n : Nat} (htask : pc.task = w.timer.task)
    (htimely : n = 0 → ∀ d, pc = .asleep d → ∀ y ∈ w.timers, ∃ e, d = some e ∧ e ≤ y.deadlineNs) :
    ExecOk { w with timer := pc, tnotifies := n } :=
  { h with
    once := by
      have honce := h.once
      simp only [ExecWorld.places, htask] at honce ⊢
      exact honce
    held := by
      intro t ht
      have hpc : pc = .handing t := ht
      rw [hpc] at htask
      apply h.held t
      cases htimer : w.timer with
      | handing t' =>
          rw [htimer] at htask
          cases htask
          rfl
      | checking =>
          rw [htimer] at htask
          cases htask
      | asleep d =>
          rw [htimer] at htask
          cases htask
    timely := htimely }

theorem tnotify_keeps (h : ExecOk w) (hstep : w.tnotify = some w') : ExecOk w' := by
  unfold ExecWorld.tnotify at hstep
  split at hstep
  · cases hstep
  cases hstep
  apply h.timed
  · cases w.timer <;> rfl
  · intro _ d hd
    cases htimer : w.timer <;> simp [htimer] at hd

/-- The timer thread looks at its tasks: with none it sleeps, the earliest is taken if its time has
come, and else is slept for. -/
theorem tlook_keeps (h : ExecOk w) {k : Nat} (hstep : w.tlook k = some w') : ExecOk w' := by
  unfold ExecWorld.tlook at hstep
  split at hstep
  · cases hstep
  case isFalse hpc =>
  have hchecking : w.timer = .checking := not_not.1 hpc
  have hidle : w.timer.task = none := by rw [hchecking]; rfl
  split at hstep
  case isTrue hnil =>
    cases hstep
    apply h.timed (by rw [hidle]; rfl)
    intro _ d _ y hy
    rw [hnil] at hy
    cases hy
  simp only [Option.bind_eq_some_iff] at hstep
  obtain ⟨x, hx, hstep⟩ := hstep
  split at hstep
  case isFalse => cases hstep
  case isTrue hleast =>
  split at hstep
  case isTrue hdue =>
    cases hstep
    have hperm := perm_eraseIdx hx
    have hdated := h.dated x (hperm.mem_iff.2 List.mem_cons_self)
    exact { h with
      once := by
        refine h.moved rfl ?_
        intro t
        have hmove := (hperm.map Timed.task).count_eq t
        simp only [List.map_cons, List.count_cons] at hmove
        simp only [ExecWorld.places, List.count_append, List.count_cons, hchecking, TimerPc.task,
          Option.toList_none, Option.toList_some, List.count_nil]
        omega
      dated := fun y hy => h.dated y (List.mem_of_mem_eraseIdx hy)
      held := by
        intro t ht
        cases ht
        exact ⟨x.deadlineNs, hdated, hdue⟩
      timely := by
        intro _ d hd
        cases hd }
  case isFalse =>
    cases hstep
    apply h.timed (by rw [hidle]; rfl)
    intro _ d hd y hy
    cases hd
    exact ⟨x.deadlineNs, rfl, by simpa using List.all_eq_true.1 hleast y hy⟩

theorem hand_keeps (h : ExecOk w) (hstep : w.hand = some w') : ExecOk w' := by
  unfold ExecWorld.hand at hstep
  split at hstep
  case h_2 => cases hstep
  case h_1 task htimer =>
    cases hstep
    exact { h with
      once := by
        refine h.moved rfl ?_
        intro t
        simp only [ExecWorld.places, ExecWorld.enqueue, htimer, TimerPc.task, List.count_append,
          Option.toList_some, Option.toList_none, List.count_nil]
        omega
      fifo := by
        simp only [ExecWorld.enqueue]
        rw [h.fifo, List.append_assoc]
      held := by
        intro t ht
        cases ht
      ripe := by
        intro t ht
        rcases List.mem_append.1 ht with ht | ht
        · exact h.ripe t ht
        · rw [List.mem_singleton.1 ht]
          exact h.held task htimer
      heard := by
        intro hs
        have hheard := h.heard hs
        simp only [ExecWorld.enqueue, List.length_append, List.length_singleton]
        omega
      timely := by
        intro _ d hd
        cases hd }

theorem timeout_keeps (h : ExecOk w) (hstep : w.timeout = some w') : ExecOk w' := by
  unfold ExecWorld.timeout at hstep
  split at hstep
  case h_2 => cases hstep
  case h_1 d htimer =>
  split at hstep
  case isFalse => cases hstep
  cases hstep
  apply h.timed
  · rw [htimer]
    rfl
  · intro _ d' hd
    cases hd

theorem twake_keeps (h : ExecOk w) (hstep : w.twake = some w') : ExecOk w' := by
  unfold ExecWorld.twake at hstep
  split at hstep
  case h_2 => cases hstep
  case h_1 d htimer =>
  cases hstep
  apply h.timed
  · rw [htimer]
    rfl
  · intro _ d' hd
    cases hd

theorem tick_keeps (h : ExecOk w) (ns : Nat) : ExecOk { w with now := w.now + ns } :=
  { h with
    held := fun t ht => (h.held t ht).later rfl (Nat.le_add_right _ _)
    ripe := fun t ht => (h.ripe t ht).later rfl (Nat.le_add_right _ _) }

theorem execOk_step (h : ExecOk w) {a : ExecAct} (hlegal : ExecLegal w a)
    (hstep : w.step a = some w') : ExecOk w' := by
  cases a with
  | post =>
      cases hstep
      exact post_keeps h
  | postAfter delayMs =>
      cases hstep
      exact postAfter_keeps h (Nat.lt_trans hlegal (by decide))
  | push k => exact push_keeps h hstep
  | notify i => exact notify_keeps h hstep
  | tnotify => exact tnotify_keeps h hstep
  | look i => exact look_keeps h hstep
  | finish i => exact finish_keeps h hstep
  | tlook k => exact tlook_keeps h hstep
  | hand => exact hand_keeps h hstep
  | timeout => exact timeout_keeps h hstep
  | wake i =>
      simp only [ExecWorld.step, ExecWorld.wake] at hstep
      split at hstep
      case isTrue hi =>
        cases hstep
        exact wakeWorker_keeps h hi
      case isFalse => cases hstep
  | twake => exact twake_keeps h hstep
  | tick ns =>
      cases hstep
      exact tick_keeps h ns

/-! ### The threads come to rest -/

/-- Every step of the threads' own uses some of the bound up. -/
theorem own_uses {a : ExecAct} (hown : a.Own) (hstep : w.step a = some w') : w'.load < w.load := by
  cases a with
  | post => exact hown.elim
  | postAfter delayMs => exact hown.elim
  | wake i => exact hown.elim
  | twake => exact hown.elim
  | tick ns => exact hown.elim
  | push k =>
      simp only [ExecWorld.step, ExecWorld.push, Option.map_eq_some_iff] at hstep
      obtain ⟨x, hx, rfl⟩ := hstep
      have hlen := (perm_eraseIdx hx).length_eq
      simp only [ExecWorld.load, List.length_cons] at hlen ⊢
      omega
  | notify i =>
      simp only [ExecWorld.step, ExecWorld.notify] at hstep
      split at hstep
      · cases hstep
      split at hstep
      case isTrue hi =>
        cases hstep
        have hsum := sum_set (y := .checking) Worker.load hi
        simp only [ExecWorld.load, ExecWorld.setWorker, Worker.load] at hsum ⊢
        omega
      split at hstep
      · cases hstep
      cases hstep
      simp only [ExecWorld.load]
      omega
  | tnotify =>
      simp only [ExecWorld.step, ExecWorld.tnotify] at hstep
      split at hstep
      · cases hstep
      cases hstep
      cases htimer : w.timer <;> simp only [ExecWorld.load, htimer, TimerPc.load] <;> omega
  | look i =>
      simp only [ExecWorld.step, ExecWorld.look] at hstep
      split at hstep
      case isFalse => cases hstep
      rename_i hi
      split at hstep
      case h_1 hnil =>
        cases hstep
        have hsum := sum_set (y := .asleep) Worker.load hi
        simp only [ExecWorld.load, ExecWorld.setWorker, Worker.load] at hsum ⊢
        omega
      case h_2 task rest hqueue =>
        cases hstep
        have hsum := sum_set (y := .busy task) Worker.load hi
        simp only [ExecWorld.load, ExecWorld.setWorker, Worker.load, hqueue, List.length_cons]
          at hsum ⊢
        omega
  | finish i =>
      simp only [ExecWorld.step, ExecWorld.finish] at hstep
      split at hstep
      case h_2 => cases hstep
      case h_1 task hi =>
        cases hstep
        have hsum := sum_set (y := .checking) Worker.load hi
        simp only [ExecWorld.load, ExecWorld.setWorker, Worker.load] at hsum ⊢
        omega
  | tlook k =>
      simp only [ExecWorld.step, ExecWorld.tlook] at hstep
      split at hstep
      · cases hstep
      case isFalse hpc =>
      have hchecking : w.timer = .checking := not_not.1 hpc
      split at hstep
      · cases hstep
        simp only [ExecWorld.load, hchecking, TimerPc.load]
        omega
      simp only [Option.bind_eq_some_iff] at hstep
      obtain ⟨x, hx, hstep⟩ := hstep
      have hlen := (perm_eraseIdx hx).length_eq
      split at hstep
      case isFalse => cases hstep
      split at hstep
      · cases hstep
        simp only [ExecWorld.load, hchecking, TimerPc.load, List.length_cons] at hlen ⊢
        omega
      case isFalse hlate =>
        cases hstep
        simp only [ExecWorld.load, hchecking, TimerPc.load, if_neg hlate]
        omega
  | hand =>
      simp only [ExecWorld.step, ExecWorld.hand] at hstep
      split at hstep
      case h_2 => cases hstep
      case h_1 task htimer =>
        cases hstep
        simp only [ExecWorld.load, ExecWorld.enqueue, htimer, TimerPc.load, List.length_append,
          List.length_singleton]
        omega
  | timeout =>
      simp only [ExecWorld.step, ExecWorld.timeout] at hstep
      split at hstep
      case h_2 => cases hstep
      case h_1 d htimer =>
      split at hstep
      case isFalse => cases hstep
      case isTrue hdue =>
        cases hstep
        simp only [ExecWorld.load, htimer, TimerPc.load, if_pos hdue]
        omega

theorem own_run_bounded {acts : List ExecAct} (hown : ∀ a ∈ acts, a.Own)
    (hrun : exec ExecWorld.step w acts = some w') : acts.length + w'.load ≤ w.load := by
  induction acts generalizing w with
  | nil =>
      cases hrun
      exact Nat.le_of_eq (Nat.zero_add _)
  | cons a acts ih =>
      obtain ⟨m, hm, hrest⟩ := exec_cons_inv hrun
      have hless := own_uses (hown a List.mem_cons_self) hm
      have hmore := ih (fun b hb => hown b (List.mem_cons_of_mem a hb)) hrest
      rw [List.length_cons]
      omega

/-! ### Where they rest -/

/-- At rest no notification is to come, every worker sleeps, and the timer thread sleeps until a
time to come. -/
structure ExecWorld.Resting (w : ExecWorld) : Prop where
  stamped : w.stamped = []
  notifies : w.notifies = 0
  tnotifies : w.tnotifies = 0
  workers : ∀ x ∈ w.workers, x = .asleep
  timer : ∃ d, w.timer = .asleep d ∧ ∀ e, d = some e → w.now < e

theorem ExecWorld.Stuck.resting (h : w.Stuck) : w.Resting where
  stamped := by
    have hpush := h (.push 0) trivial
    cases hs : w.stamped with
    | nil => rfl
    | cons x l => simp [ExecWorld.step, ExecWorld.push, hs] at hpush
  notifies := by
    by_contra hsome
    by_cases hasleep : .asleep ∈ w.workers
    · obtain ⟨i, hi⟩ := List.mem_iff_getElem?.1 hasleep
      have hnotify := h (.notify i) trivial
      simp [ExecWorld.step, ExecWorld.notify, hsome, hi] at hnotify
    · have hnotify := h (.notify 0) trivial
      have hi : w.workers[0]? ≠ some .asleep := fun hi => hasleep (List.mem_of_getElem? hi)
      simp [ExecWorld.step, ExecWorld.notify, hsome, hi, hasleep] at hnotify
  tnotifies := by
    by_contra hsome
    have hnotify := h .tnotify trivial
    simp [ExecWorld.step, ExecWorld.tnotify, hsome] at hnotify
  workers := by
    intro x hx
    obtain ⟨i, hi⟩ := List.mem_iff_getElem?.1 hx
    cases x with
    | asleep => rfl
    | checking =>
        have hlook := h (.look i) trivial
        simp only [ExecWorld.step, ExecWorld.look, hi, if_true] at hlook
        split at hlook <;> cases hlook
    | busy task =>
        have hfinish := h (.finish i) trivial
        simp [ExecWorld.step, ExecWorld.finish, hi] at hfinish
  timer := by
    cases htimer : w.timer with
    | asleep d =>
        refine ⟨d, rfl, ?_⟩
        intro e he
        have htimeout := h .timeout trivial
        subst he
        simpa [ExecWorld.step, ExecWorld.timeout, htimer] using htimeout
    | checking =>
        exfalso
        by_cases hnil : w.timers = []
        · have hlook := h (.tlook 0) trivial
          simp [ExecWorld.step, ExecWorld.tlook, htimer, hnil] at hlook
        · obtain ⟨k, x, hx, hleast⟩ := exists_least Timed.deadlineNs hnil
          have hlook := h (.tlook k) trivial
          have hall : (w.timers.all fun y => decide (x.deadlineNs ≤ y.deadlineNs)) = true := by
            simpa using hleast
          simp only [ExecWorld.step, ExecWorld.tlook, htimer, ne_eq, not_true_eq_false, if_false,
            hnil, hx, Option.bind_some, hall, if_true] at hlook
          split at hlook <;> cases hlook
    | handing task =>
        have hhand := h .hand trivial
        simp [ExecWorld.step, ExecWorld.hand, htimer] at hhand

theorem ExecOk.settled (h : ExecOk w) (hstuck : w.Stuck) :
    ∀ t < w.due.length, t ∈ w.done ∨ ∃ d, w.due[t]? = some d ∧ w.now < d := by
  intro t ht
  have hrest := hstuck.resting
  have hasleep : .asleep ∈ w.workers := by
    obtain ⟨x, hx⟩ := List.exists_mem_of_ne_nil _ h.staffed
    rw [← hrest.workers x hx]
    exact hx
  have hnobody : w.workers.count .checking = 0 := by
    apply List.count_eq_zero.2
    intro hmem
    cases hrest.workers _ hmem
  have hqueue : w.queue = [] := by
    have hheard := h.heard hasleep
    rw [hrest.notifies, hnobody] at hheard
    exact List.length_eq_zero_iff.1 (Nat.le_zero.1 hheard)
  have hrunning : w.workers.filterMap Worker.task = [] := by
    apply List.filterMap_eq_nil_iff.2
    intro x hx
    rw [hrest.workers x hx]
    rfl
  obtain ⟨d, htimer, hlate⟩ := hrest.timer
  have hplace := h.once.mem_iff.2 (List.mem_range.2 ht)
  simp only [ExecWorld.places, hrest.stamped, hqueue, hrunning, htimer, TimerPc.task,
    Option.toList_none, List.map_nil, List.nil_append, List.mem_append, List.mem_map] at hplace
  rcases hplace with hwait | hdone
  · right
    obtain ⟨y, hy, rfl⟩ := hwait
    obtain ⟨e, rfl, hle⟩ := h.timely hrest.tnotifies d htimer y hy
    exact ⟨y.deadlineNs, h.dated y hy, Nat.lt_of_lt_of_le (hlate e rfl) hle⟩
  · exact Or.inl hdone

theorem instanceThreads_pos (threads hw : Nat) : 0 < instanceThreads threads hw := by
  unfold instanceThreads
  split
  · omega
  · exact Nat.lt_min.2 ⟨by omega, Nat.lt_of_lt_of_le Nat.one_pos (Nat.le_max_left 1 hw)⟩

/-- Whatever is posted, the executor keeps `ExecSafe` on every run. -/
theorem executor_keeps (threads hw : Nat) {acts : List ExecAct}
    (hlegal : Along ExecWorld.step ExecLegal (newExecutor (instanceThreads threads hw)) acts)
    (hrun : exec ExecWorld.step (newExecutor (instanceThreads threads hw)) acts = some w) :
    ExecSafe w := by
  have h : ExecOk w := by
    apply exec_invariant_along ExecOk _ (executor_start (instanceThreads_pos threads hw)) hlegal
      hrun
    intro s a t hs ha hstep
    exact execOk_step hs ha hstep
  exact {
    once := h.once
    fifo := h.fifo
    early := h.early
    ends := by
      intro acts' w' hown hrun'
      exact Nat.le_trans (Nat.le_add_right _ _) (own_run_bounded hown hrun')
    settled := h.settled }

/-- A task for later and one for now: the worker sleeps, is woken, runs the one, then the other. -/
def laterAndNow : List ExecAct :=
  [.look 0, .tlook 0, .postAfter 2, .post, .push 0, .tnotify, .tlook 0, .notify 0, .look 0,
    .tick 1999999, .finish 0, .look 0, .tick 1, .timeout, .tlook 0, .hand, .notify 0, .look 0]

def laterCheck (w : ExecWorld) : ExecAct → Bool
  | .postAfter delayMs => w.now + delayMs * 1000000 < 2 ^ 63
  | _ => true

theorem laterCheck_sound {a : ExecAct} (h : laterCheck w a = true) : ExecLegal w a := by
  cases a with
  | postAfter delayMs =>
      have hfits : w.now + delayMs * 1000000 < 2 ^ 63 := by
        simpa only [laterCheck, decide_eq_true_eq] using h
      exact hfits
  | _ => trivial

/-- Task 0 is asked for first and starts two milliseconds later, after task 1. -/
theorem later_and_now : ∃ w, exec ExecWorld.step (newExecutor (instanceThreads 1 0)) laterAndNow =
    some w ∧ ExecSafe w ∧ w.started = [(1, 0), (0, 2000000)] := by
  have hstarted : (exec ExecWorld.step (newExecutor (instanceThreads 1 0)) laterAndNow).map
      ExecWorld.started = some [(1, 0), (0, 2000000)] := by
    decide
  obtain ⟨w, hw, hlist⟩ := Option.map_eq_some_iff.1 hstarted
  refine ⟨w, hw, ?_, hlist⟩
  apply executor_keeps 1 0 _ hw
  apply along_of_check (fun _ => True) (fun _ => True)
  · intro s a t _ _ _
    trivial
  · intro s a _ _ hcheck
    exact laterCheck_sound hcheck
  · trivial
  · intro a _
    trivial
  · decide

end UCache
