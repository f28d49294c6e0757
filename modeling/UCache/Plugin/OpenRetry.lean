/-
Module: UCache.Plugin.OpenRetry
Purpose: Which failed opens are tried again and how long after; the open that the application asked
  for, tried again from timers and callbacks, and the lazy open, tried again in a loop.
Trusted boundary: none
Main exports: isRetryableOpen, backoffBoundMs, retrying_open_settles
-/
import UCache.Core.Settings
import UCache.Lib.Retry
import UCache.Lib.Run

namespace UCache

open Lib

/-! ### The policy -/

/-- What an open came to: `XRootDStatus`, as far as it is looked at. -/
structure OpenStatus where
  ok : Bool
  code : Int := 0
  errNo : Int := 0
deriving DecidableEq, Repr

/-- [SRC OpenRetry.cc:14-31, 45-73] -/
def isRetryableOpen (statusCode errNo : Int) : Bool :=
  if statusCode ∈ [108, 102, 103, 206, 208] then true
  else if statusCode = 400 then errNo ∈ [3018, 3012, 3005, 3007, 3014, 3017, 3003, 3024]
  else false

/-- [SRC OpenRetry.cc:80-87] The shifts left, in 64 bits. -/
def doubled (cap : Nat) : Nat → Nat → Nat
  | 0, bound => bound
  | n + 1, bound => if cap ≤ bound then bound else doubled cap n (2 * bound % 2 ^ 64)

variable {D : Type}

/-- [SRC OpenRetry.cc:75-89] -/
def backoffBoundMs (attempt : Nat) (cfg : Settings D) : Nat :=
  let base := cfg.openRetryBaseMs.toNat
  let cap := cfg.openRetryMaxMs.toNat
  min (doubled cap (max 1 attempt - 1) base) cap

/-- [SRC OpenRetry.cc:91-98] What the generator can draw. -/
def Drawn (attempt : Nat) (cfg : Settings D) (ms : Nat) : Prop := ms ≤ backoffBoundMs attempt cfg

instance (attempt : Nat) (cfg : Settings D) (ms : Nat) : Decidable (Drawn attempt cfg ms) :=
  inferInstanceAs (Decidable (_ ≤ _))

/-- [SRC UCacheFile.cc:160-161, 317] Another attempt follows the `n`-th. -/
def again (cfg : Settings D) (n : Nat) (s : OpenStatus) : Bool :=
  !s.ok && decide ((n : Int) ≤ cfg.openRetries) && isRetryableOpen s.code s.errNo

/-! ### The open that the application asked for -/

inductive RetryPhase where
  | created
  | inFlight
  /-- The executor has the retry, for later. -/
  | waiting
  | done
deriving DecidableEq, Repr

/-- [SRC UCacheFile.cc:116-208] `RetryingOpenHandler`.  `replies` are the outcomes of the attempts,
`delays` what was waited for, `completions` what the application's handler got, `abandoned` whether
the handle was shut down before a retry. -/
structure RetryingOpen where
  phase : RetryPhase := .created
  attempt : Nat := 0
  lastStatus : OpenStatus := ⟨true, 0, 0⟩
  fresh : Nat := 0
  openRetries : Nat := 0
  openRetriesExhausted : Nat := 0
  replies : List OpenStatus := []
  delays : List Nat := []
  completions : List OpenStatus := []
  abandoned : Bool := false
deriving DecidableEq, Repr

/-- What reaches the handler: it is started, its open answers, its timer fires.  `sync` is the error
with which `Open` itself returned, `ms` the delay that is drawn where one is. -/
inductive RetryingAct where
  | start (sync : Option OpenStatus) (ms : Nat)
  | respond (status : Option OpenStatus) (ms : Nat)
  | doRetry (valid : Bool) (sync : Option OpenStatus) (ms : Nat)
deriving DecidableEq, Repr

namespace RetryingOpen

/-- [SRC UCacheFile.cc:195-200] -/
def forwardFailure (w : RetryingOpen) : RetryingOpen :=
  { w with
    phase := .done
    completions := w.completions ++ [w.lastStatus] }

/-- [SRC UCacheFile.cc:159-173] `lastStatus_` is not OK here. -/
def decideRetryOrForward (w : RetryingOpen) (cfg : Settings D) (ms : Nat) : Option RetryingOpen :=
  if (w.attempt : Int) ≤ cfg.openRetries ∧ isRetryableOpen w.lastStatus.code w.lastStatus.errNo then
    if Drawn w.attempt cfg ms then
      some { w with
        phase := .waiting
        openRetries := w.openRetries + 1
        delays := w.delays ++ [ms] }
    else none
  else
    some { w with
      openRetriesExhausted := w.openRetriesExhausted + if 1 < w.attempt then 1 else 0
    }.forwardFailure

/-- An attempt ended: with success it is passed on, otherwise it is looked at. -/
def ended (w : RetryingOpen) (cfg : Settings D) (s : OpenStatus) (ms : Nat) : Option RetryingOpen :=
  if s.ok then
    some { w with
      phase := .done
      replies := w.replies ++ [s]
      completions := w.completions ++ [s] }
  else
    { w with
      lastStatus := s
      replies := w.replies ++ [s] }.decideRetryOrForward cfg ms

/-- [SRC UCacheFile.cc:137-141, 187-192] `Open` is called; an error it returns with is
looked at in place. -/
def issueOn (w : RetryingOpen) (cfg : Settings D) (sync : Option OpenStatus) (ms : Nat) :
    Option RetryingOpen :=
  let w := { w with attempt := w.attempt + 1, phase := .inFlight }
  match sync with
  | none => some w
  | some s => if s.ok then none else w.ended cfg s ms

/-- [SRC UCacheFile.cc:143-155] No status counts as an error. -/
def respond (w : RetryingOpen) (cfg : Settings D) (status : Option OpenStatus) (ms : Nat) :
    Option RetryingOpen :=
  if w.phase = .inFlight then w.ended cfg (status.getD ⟨false, 0, 0⟩) ms else none

/-- [SRC UCacheFile.cc:177-193] -/
def doRetry (w : RetryingOpen) (cfg : Settings D) (valid : Bool) (sync : Option OpenStatus)
    (ms : Nat) : Option RetryingOpen :=
  if w.phase ≠ .waiting then none
  else if valid then { w with fresh := w.fresh + 1 }.issueOn cfg sync ms
  else some { w with abandoned := true }.forwardFailure

def step (cfg : Settings D) (w : RetryingOpen) : RetryingAct → Option RetryingOpen
  | .start sync ms => if w.phase = .created then w.issueOn cfg sync ms else none
  | .respond status ms => w.respond cfg status ms
  | .doRetry valid sync ms => w.doRetry cfg valid sync ms

end RetryingOpen

/-! ### The lazy open -/

/-- What the lazy open leaves behind. -/
structure LazyOpened where
  status : OpenStatus
  attempts : Nat
  openRetries : Nat
  openRetriesExhausted : Nat
deriving DecidableEq, Repr

/-- [SRC UCacheFile.cc:316-324] The loop, over the outcomes to come; `none` where they run out. -/
def lazyLoop (cfg : Settings D) : Nat → OpenStatus → List OpenStatus → Option (OpenStatus × Nat)
  | retry, s, rest =>
      if !s.ok ∧ (retry : Int) ≤ cfg.openRetries ∧ isRetryableOpen s.code s.errNo then
        match rest with
        | [] => none
        | s' :: rest => lazyLoop cfg (retry + 1) s' rest
      else some (s, retry)

/-- [SRC UCacheFile.cc:308-327] -/
def lazyOpen (cfg : Settings D) : List OpenStatus → Option LazyOpened
  | [] => none
  | s :: rest =>
      (lazyLoop cfg 1 s rest).map fun r =>
        { status := r.1
          attempts := r.2
          openRetries := r.2 - 1
          openRetriesExhausted := if !r.1.ok ∧ 1 < r.2 then 1 else 0 }

/-! ### The bound on the delay -/

variable {cfg : Settings D}

/-- With a cap below `2^63` no shift loses a bit. -/
theorem min_doubled {cap : Nat} (hcap : cap ≤ 2 ^ 63) (n bound : Nat) :
    min (doubled cap n bound) cap = min (bound * 2 ^ n) cap := by
  induction n generalizing bound with
  | zero => simp [doubled]
  | succ n ih =>
      unfold doubled
      split
      case isTrue hle =>
        have hmore : cap ≤ bound * 2 ^ (n + 1) :=
          Nat.le_trans hle (Nat.le_mul_of_pos_right bound (Nat.two_pow_pos _))
        rw [Nat.min_eq_right hle, Nat.min_eq_right hmore]
      case isFalse hlt =>
        have hfits : 2 * bound % 2 ^ 64 = 2 * bound := Nat.mod_eq_of_lt (by omega)
        rw [ih, hfits, Nat.pow_succ, Nat.mul_comm 2 bound, Nat.mul_assoc, Nat.mul_comm 2 (2 ^ n)]

/-- The bound for the `n`-th retry, with a cap that is an `int`. -/
theorem backoffBoundMs_eq (hcap : cfg.openRetryMaxMs < 2 ^ 31) (n : Nat) :
    backoffBoundMs (n + 1) cfg =
      min (cfg.openRetryBaseMs.toNat * 2 ^ n) cfg.openRetryMaxMs.toNat := by
  unfold backoffBoundMs
  have hn : max 1 (n + 1) - 1 = n := by omega
  rw [hn]
  exact min_doubled (by omega) n _

/-! ### What every step keeps -/

/-- The loop of the lazy open settles as the rule does. -/
theorem lazyLoop_eq (n : Nat) (s : OpenStatus) (rest : List OpenStatus) :
    lazyLoop cfg n s rest = (settle (again cfg) n (s :: rest)).map Prod.swap := by
  induction rest generalizing n s with
  | nil =>
      unfold lazyLoop settle
      by_cases hagain : again cfg n s = true
      · simp_all [again, settle]
      · rw [if_neg hagain]
        simp_all [again]
  | cons s' rest ih =>
      unfold lazyLoop settle
      by_cases hagain : again cfg n s = true
      · rw [if_pos hagain, ← ih]
        simp_all [again]
      · rw [if_neg hagain]
        simp_all [again]

namespace RetryingOpen

variable {w w' : RetryingOpen} {s : OpenStatus} {ms : Nat}

/-- All replies so far asked for another attempt, and nothing was passed on. -/
structure Going (cfg : Settings D) (w : RetryingOpen) : Prop where
  unsettled : settle (again cfg) 1 w.replies = none
  retries : w.openRetries = w.replies.length
  pending : w.completions = []
  exhausted : w.openRetriesExhausted = 0
  kept : w.abandoned = false

/-- The rule settled, and its outcome was passed on. -/
structure Settled (cfg : Settings D) (w : RetryingOpen) (s : OpenStatus) : Prop where
  settled : settle (again cfg) 1 w.replies = some (w.attempt, s)
  retries : w.openRetries = w.attempt - 1
  passed : w.completions = [s]
  exhausted : w.openRetriesExhausted = if !s.ok ∧ 1 < w.attempt then 1 else 0
  kept : w.abandoned = false

/-- The handle was shut down before a retry, and the last failure was passed on. -/
structure GaveUp (cfg : Settings D) (w : RetryingOpen) : Prop where
  unsettled : settle (again cfg) 1 w.replies = none
  retries : w.openRetries = w.replies.length
  attempts : w.attempt = w.replies.length
  last : w.replies.getLast? = some w.lastStatus
  passed : w.completions = [w.lastStatus]
  exhausted : w.openRetriesExhausted = 0
  abandoned : w.abandoned = true

/-- Where the handler stands. -/
def Stands (cfg : Settings D) (w : RetryingOpen) : Prop :=
  match w.phase with
  | .created => w.Going cfg ∧ w.attempt = 0 ∧ w.replies = []
  | .inFlight => w.Going cfg ∧ w.attempt = w.replies.length + 1
  | .waiting =>
      w.Going cfg ∧ w.attempt = w.replies.length ∧ w.replies.getLast? = some w.lastStatus
  | .done => (∃ s, w.Settled cfg s) ∨ w.GaveUp cfg

structure Ok (cfg : Settings D) (w : RetryingOpen) : Prop where
  stands : w.Stands cfg
  fresh : w.fresh = w.attempt - 1
  counted : w.delays.length = w.openRetries
  delays : ∀ (i ms : Nat), w.delays[i]? = some ms → ms ≤ backoffBoundMs (i + 1) cfg

theorem ok_start : ({} : RetryingOpen).Ok cfg where
  stands := ⟨⟨rfl, rfl, rfl, rfl, rfl⟩, rfl, rfl⟩
  fresh := rfl
  counted := rfl
  delays := by
    intro i ms h
    cases h

/-- One more delay, drawn for the attempt that failed. -/
theorem delays_snoc {delays : List Nat} (hdrawn : Drawn (delays.length + 1) cfg ms)
    (h : ∀ (i ms : Nat), delays[i]? = some ms → ms ≤ backoffBoundMs (i + 1) cfg) :
    ∀ (i ms' : Nat), (delays ++ [ms])[i]? = some ms' → ms' ≤ backoffBoundMs (i + 1) cfg := by
  intro i ms' hi
  by_cases hlt : i < delays.length
  · rw [List.getElem?_append_left hlt] at hi
    exact h i ms' hi
  · have hlen := (List.getElem?_eq_some_iff.1 hi).1
    rw [List.length_append, List.length_singleton] at hlen
    obtain rfl : i = delays.length := by omega
    simp only [List.getElem?_concat_length, Option.some.injEq] at hi
    subst hi
    exact hdrawn

/-- An attempt that was in flight ends. -/
theorem ended_keeps (hgoing : w.Going cfg) (hattempt : w.attempt = w.replies.length + 1)
    (hfresh : w.fresh = w.attempt - 1) (hcounted : w.delays.length = w.openRetries)
    (hdelays : ∀ (i ms : Nat), w.delays[i]? = some ms → ms ≤ backoffBoundMs (i + 1) cfg)
    (hstep : w.ended cfg s ms = some w') : w'.Ok cfg := by
  have hsettle := settle_snoc (x := s) hgoing.unsettled
  have hnumber : 1 + w.replies.length = w.attempt := by omega
  rw [hnumber] at hsettle
  have hretries := hgoing.retries
  have hsame : w.openRetries = w.attempt - 1 := by omega
  unfold ended at hstep
  split at hstep
  case isTrue hok =>
    cases hstep
    have hno : again cfg w.attempt s = false := by simp [again, hok]
    rw [hno] at hsettle
    exact {
      stands := by
        left
        refine ⟨s, hsettle, hsame, by simp [hgoing.pending], ?_, hgoing.kept⟩
        simp [hok, hgoing.exhausted]
      fresh := hfresh
      counted := hcounted
      delays := hdelays }
  case isFalse hfail =>
  have hagain : again cfg w.attempt s = true ↔
      ((w.attempt : Int) ≤ cfg.openRetries ∧ isRetryableOpen s.code s.errNo = true) := by
    simp [again, hfail]
  unfold decideRetryOrForward at hstep
  split at hstep
  case isTrue hretry =>
    split at hstep
    case isFalse => cases hstep
    case isTrue hdrawn =>
      cases hstep
      rw [if_pos (hagain.2 hretry)] at hsettle
      have hnext : w.attempt = w.delays.length + 1 := by omega
      have hdrawn' : Drawn (w.delays.length + 1) cfg ms := hnext ▸ hdrawn
      exact {
        stands := by
          refine ⟨⟨hsettle, ?_, hgoing.pending, hgoing.exhausted, hgoing.kept⟩, ?_, by simp⟩
          · simp [hretries]
          · simp [hattempt]
        fresh := hfresh
        counted := by simp [hcounted]
        delays := delays_snoc hdrawn' hdelays }
  case isFalse hretry =>
    cases hstep
    rw [if_neg (fun h => hretry (hagain.1 h))] at hsettle
    exact {
      stands := by
        left
        refine ⟨s, hsettle, hsame, by simp [forwardFailure, hgoing.pending], ?_, hgoing.kept⟩
        simp [forwardFailure, hgoing.exhausted, hfail]
      fresh := hfresh
      counted := hcounted
      delays := hdelays }

/-- An attempt is begun. -/
theorem issueOn_keeps (hgoing : w.Going cfg) (hattempt : w.attempt = w.replies.length)
    (hfresh : w.fresh = w.attempt) (hcounted : w.delays.length = w.openRetries)
    (hdelays : ∀ (i ms : Nat), w.delays[i]? = some ms → ms ≤ backoffBoundMs (i + 1) cfg)
    {sync : Option OpenStatus} (hstep : w.issueOn cfg sync ms = some w') : w'.Ok cfg := by
  have hbegun :
      ({ w with attempt := w.attempt + 1, phase := .inFlight } : RetryingOpen).Going cfg :=
    ⟨hgoing.unsettled, hgoing.retries, hgoing.pending, hgoing.exhausted, hgoing.kept⟩
  have hnumber : w.attempt + 1 = w.replies.length + 1 := by omega
  unfold issueOn at hstep
  cases sync with
  | none =>
      cases hstep
      exact ⟨⟨hbegun, hnumber⟩, hfresh, hcounted, hdelays⟩
  | some s =>
      simp only at hstep
      split at hstep
      · cases hstep
      · exact ended_keeps hbegun hnumber hfresh hcounted hdelays hstep

theorem step_keeps (h : w.Ok cfg) {a : RetryingAct} (hstep : w.step cfg a = some w') :
    w'.Ok cfg := by
  have hstands := h.stands
  unfold Stands at hstands
  cases a with
  | start sync ms =>
      simp only [step] at hstep
      split at hstep
      case isFalse => cases hstep
      case isTrue hphase =>
        rw [hphase] at hstands
        obtain ⟨hgoing, hattempt, hreplies⟩ := hstands
        have hfresh := h.fresh
        exact issueOn_keeps hgoing (by rw [hattempt, hreplies]; rfl) (by omega) h.counted h.delays
          hstep
  | respond status ms =>
      simp only [step, respond] at hstep
      split at hstep
      case isFalse => cases hstep
      case isTrue hphase =>
        rw [hphase] at hstands
        exact ended_keeps hstands.1 hstands.2 h.fresh h.counted h.delays hstep
  | doRetry valid sync ms =>
      simp only [step, doRetry] at hstep
      split at hstep
      · cases hstep
      case isFalse hphase =>
      rw [not_not.1 hphase] at hstands
      obtain ⟨hgoing, hattempt, hlast⟩ := hstands
      have hfresh := h.fresh
      split at hstep
      · have hpos : 0 < w.replies.length := by
          apply List.length_pos_iff.2
          intro hnil
          rw [hnil] at hlast
          cases hlast
        exact issueOn_keeps (w := { w with fresh := w.fresh + 1 })
          ⟨hgoing.unsettled, hgoing.retries, hgoing.pending, hgoing.exhausted, hgoing.kept⟩
          hattempt (by simp only; omega) h.counted h.delays hstep
      · cases hstep
        exact {
          stands := by
            right
            exact ⟨hgoing.unsettled, hgoing.retries, hattempt, hlast,
              by simp [forwardFailure, hgoing.pending], hgoing.exhausted, rfl⟩
          fresh := hfresh
          counted := h.counted
          delays := h.delays }

end RetryingOpen

/-! ### What the application sees -/

/-- One completion, when the open is over; no more attempts than are allowed, each retry on a fresh
file and after a delay of its own, under its bound; and unless the handle is shut down, what the application
gets and what is counted is what the lazy open makes of the same replies. -/
structure RetrySafe (cfg : Settings D) (w : RetryingOpen) : Prop where
  once : w.completions.length = if w.phase = .done then 1 else 0
  attempts : (w.attempt : Int) ≤ max cfg.openRetries 0 + 1
  fresh : w.fresh = w.attempt - 1
  counted : w.delays.length = w.openRetries
  delays : ∀ (i ms : Nat), w.delays[i]? = some ms →
    ms ≤ min (cfg.openRetryBaseMs.toNat * 2 ^ i) cfg.openRetryMaxMs.toNat
  settles : w.phase = .done → w.abandoned = false → ∃ s, w.completions = [s] ∧
    lazyOpen cfg w.replies =
      some ⟨s, w.attempt, w.openRetries, w.openRetriesExhausted⟩
  gaveUp : w.abandoned = true → w.completions = w.replies.getLast?.toList ∧
    ∀ s ∈ w.completions, s.ok = false

namespace RetryingOpen

variable {w : RetryingOpen} {s : OpenStatus}

/-- As many replies as ask for another attempt are allowed retries. -/
theorem unsettled_le (h : settle (again cfg) 1 w.replies = none) :
    (w.replies.length : Int) ≤ max cfg.openRetries 0 := by
  cases hlast : w.replies.getLast? with
  | none =>
      rw [List.getLast?_eq_none_iff.1 hlast]
      simp
  | some s =>
      rw [List.getLast?_eq_getElem?] at hlast
      have hagain := settle_eq_none h _ s hlast
      have hpos := (List.getElem?_eq_some_iff.1 hlast).1
      simp only [again, Bool.and_eq_true, decide_eq_true_eq] at hagain
      omega

theorem settled_le (h : w.Settled cfg s) : (w.attempt : Int) ≤ max cfg.openRetries 0 + 1 := by
  obtain ⟨hle, hs, -, hbefore⟩ := settle_eq_some h.settled
  have hlen := (List.getElem?_eq_some_iff.1 hs).1
  by_cases hone : w.attempt = 1
  · omega
  · have hprev : w.attempt - 2 < w.replies.length := by omega
    have hagain := hbefore (w.attempt - 2) _ (by omega) (List.getElem?_eq_getElem hprev)
    simp only [again, Bool.and_eq_true, decide_eq_true_eq] at hagain
    omega

theorem Ok.attempts_le (h : w.Ok cfg) : (w.attempt : Int) ≤ max cfg.openRetries 0 + 1 := by
  have hstands := h.stands
  unfold Stands at hstands
  split at hstands
  · omega
  · have hle := unsettled_le hstands.1.unsettled
    omega
  · have hle := unsettled_le hstands.1.unsettled
    omega
  · rcases hstands with ⟨s, hsettled⟩ | hgave
    · exact settled_le hsettled
    · have hle := unsettled_le hgave.unsettled
      have hattempts := hgave.attempts
      omega

theorem Settled.lazyOpen_eq (h : w.Settled cfg s) :
    lazyOpen cfg w.replies = some ⟨s, w.attempt, w.openRetries, w.openRetriesExhausted⟩ := by
  have hsettled := h.settled
  cases hreplies : w.replies with
  | nil =>
      rw [hreplies] at hsettled
      cases hsettled
  | cons r rest =>
      rw [hreplies] at hsettled
      rw [lazyOpen, lazyLoop_eq, hsettled, h.retries, h.exhausted]
      rfl

/-- The reply that a retry was to follow is a failure. -/
theorem GaveUp.failed (h : w.GaveUp cfg) : w.lastStatus.ok = false := by
  have hlast := h.last
  rw [List.getLast?_eq_getElem?] at hlast
  have hagain := settle_eq_none h.unsettled _ _ hlast
  simp only [again, Bool.and_eq_true, Bool.not_eq_true'] at hagain
  exact hagain.1.1

theorem Ok.safe (h : w.Ok cfg) (hcap : cfg.openRetryMaxMs < 2 ^ 31) : RetrySafe cfg w where
  once := by
    have hstands := h.stands
    unfold Stands at hstands
    split at hstands
    case h_1 hphase => simp [hphase, hstands.1.pending]
    case h_2 hphase => simp [hphase, hstands.1.pending]
    case h_3 hphase => simp [hphase, hstands.1.pending]
    case h_4 hphase =>
      rcases hstands with ⟨s, hsettled⟩ | hgave
      · simp [hphase, hsettled.passed]
      · simp [hphase, hgave.passed]
  attempts := h.attempts_le
  fresh := h.fresh
  counted := h.counted
  delays := by
    intro i ms hi
    rw [← backoffBoundMs_eq hcap i]
    exact h.delays i ms hi
  settles := by
    intro hdone hkept
    have hstands := h.stands
    unfold Stands at hstands
    rw [hdone] at hstands
    rcases hstands with ⟨s, hsettled⟩ | hgave
    · exact ⟨s, hsettled.passed, hsettled.lazyOpen_eq⟩
    · rw [hgave.abandoned] at hkept
      cases hkept
  gaveUp := by
    intro habandoned
    have hstands := h.stands
    unfold Stands at hstands
    have hnot : w.abandoned ≠ false := by simp [habandoned]
    split at hstands
    · exact absurd hstands.1.kept hnot
    · exact absurd hstands.1.kept hnot
    · exact absurd hstands.1.kept hnot
    · rcases hstands with ⟨s, hsettled⟩ | hgave
      · exact absurd hsettled.kept hnot
      · rw [hgave.passed, hgave.last]
        refine ⟨rfl, ?_⟩
        intro s hs
        rw [List.mem_singleton.1 hs]
        exact hgave.failed

end RetryingOpen

/-- [SRC UCacheFile.cc:116-208, 292-328] -/
theorem retrying_open_settles (hcap : cfg.openRetryMaxMs < 2 ^ 31) {acts : List RetryingAct}
    {w : RetryingOpen} (hrun : exec (RetryingOpen.step cfg) {} acts = some w) :
    RetrySafe cfg w := by
  have h : w.Ok cfg := by
    apply exec_invariant (RetryingOpen.Ok cfg) _ RetryingOpen.ok_start hrun
    intro s a t hs hstep
    exact RetryingOpen.step_keeps hs hstep
  exact h.safe hcap

/-- Two retries allowed. -/
def twoRetries : Settings Unit where
  highWater := ()
  lowWater := ()
  openRetries := 2

def overloadedThenGone : List RetryingAct :=
  [.start none 0, .respond (some ⟨false, 400, 3024⟩) 150,
    .doRetry true (some ⟨false, 108, 0⟩) 400, .doRetry true none 0, .respond (some ⟨true, 0, 0⟩) 0]

/-- The server is overloaded, then cannot be reached, then opens the file. -/
theorem third_open_succeeds : ∃ w, exec (RetryingOpen.step twoRetries) {} overloadedThenGone =
    some w ∧ RetrySafe twoRetries w ∧ w.completions = [⟨true, 0, 0⟩] := by
  have hlist : (exec (RetryingOpen.step twoRetries) {} overloadedThenGone).map
      RetryingOpen.completions = some [⟨true, 0, 0⟩] := by
    decide
  obtain ⟨w, hw, hpassed⟩ := Option.map_eq_some_iff.1 hlist
  exact ⟨w, hw, retrying_open_settles (by decide) hw, hpassed⟩

end UCache
