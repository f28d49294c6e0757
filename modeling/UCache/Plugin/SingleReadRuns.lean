/-
Module: UCache.Plugin.SingleReadRuns
Purpose: What holds of single reads after any run: every read is answered once and with the origin's
  bytes, a range has one fetch behind its gate and nobody parked there is lost, and the counts of
  operations and persists are right.
Trusted boundary: none
Main exports: SingleLegal, SingleSafe, single_reads_answered
-/
import UCache.Lib.Slots
import UCache.Lib.Totals
import UCache.Plugin.SingleReads

namespace UCache

open Lib

/-! ### What is promised -/

namespace SinglePc

/-- The read's thread or handler owns the gate. -/
def gated : SinglePc → Bool
  | .owner g => g
  | .wire g => g
  | .failed g => g
  | .uncovered g => g
  | .landed g _ => g
  | .reserved g _ => g
  | _ => false

/-- It holds the inner file. -/
def holding : SinglePc → Bool
  | .wire _ => true
  | .relay => true
  | _ => false

/-- It has reserved a persist that no task has yet. -/
def reserving : SinglePc → Bool
  | .reserved _ _ => true
  | _ => false

/-- It is on the cache's way, not on a relay's. -/
def onCache : SinglePc → Bool
  | .idle => false
  | .toRelay => false
  | .relay => false
  | .done => false
  | _ => true

/-- What a fetch brought for it. -/
def brought : SinglePc → Option (List UInt8)
  | .landed _ b => some b
  | .reserved _ b => some b
  | _ => none

/-- The callback it waits for. -/
def ticket : SinglePc → Option Nat
  | .parked k => some k
  | _ => none

end SinglePc

/-- The cache gives the origin's bytes or none, and the origin, asked for a range, its bytes from
there on, perhaps too few. -/
def SingleLegal (S : SingleSetup) (w : SingleWorld) : SingleAct → Prop
  | .serve r (some b) => ∀ a, w.asks r = some a → b = S.bytes a.off (a.served S)
  | .reply r (some b) => ∀ a, w.asks r = some a → b = S.bytes (a.span S).1 b.length
  | .relayReply r (.data b) => ∀ a, w.asks r = some a →
      b = S.bytes a.off b.length ∧ b.length ≤ a.size
  | _ => True

/-- Anything but a new call of `Read`. -/
def SingleAct.Own : SingleAct → Prop
  | .ask _ _ => False
  | _ => True

/-- The task owns the gate of a range. -/
def KeepTask.owns (g : ByteRange) (x : KeepTask) : Bool :=
  decide (x.gate = some g) && decide (x.stage ≠ .ended)

namespace SingleWorld

/-- One for a read that stands so and asks so. -/
def weigh (w : SingleWorld) (p : SinglePc → Bool) (q : SingleAsk → Bool) (r : Nat) : Nat :=
  match w.asks r with
  | some a => if p (w.pc r) && q a then 1 else 0
  | none => 0

/-- A read's answer is right: an error, or the origin's bytes from where it asked, all that the file
has of what it asked for unless the origin itself gave the answer. -/
def Right (S : SingleSetup) (w : SingleWorld) (r : Nat) : SingleAnswer → Prop
  | .error => True
  | .data b => ∃ a, w.asks r = some a ∧ b = S.bytes a.off b.length ∧ b.length ≤ a.size ∧
      (r ∉ w.relayed → b.length = min a.size (S.fileSize - a.off))

end SingleWorld

/-- Every read is answered at most once, and rightly; nothing but the origin's bytes is kept; a
range has one owner while its gate is shut and none else; the operations on the inner file and the
persists to come are counted, for every handle; a reader that is parked is behind such an owner or
about to be called; and where nothing more happens by itself every read is answered and nothing is
left. -/
structure SingleSafe (S : SingleSetup) (w : SingleWorld) : Prop where
  once : (w.answers.map Prod.fst).Nodup
  right : ∀ r x, (r, x) ∈ w.answers → w.Right S r x
  stored : ∀ p ∈ w.stored, p.2 = S.bytes p.1 p.2.length
  gates : ∀ g, ∃ n, Total (w.weigh SinglePc.gated fun a => decide (a.span S = g)) n ∧
    n + w.keeps.countP (KeepTask.owns g) = if (w.gate g).isSome then 1 else 0
  ops : ∀ h, Total (w.weigh SinglePc.holding fun a => decide (a.handle = h)) (w.innerOps h)
  persists : ∀ h, ∃ n, Total (w.weigh SinglePc.reserving fun a => decide (a.handle = h)) n ∧
    n + w.keeps.countP (fun x => decide (x.handle = h)) = w.pendingPersists h
  parked : ∀ r k, w.pc r = .parked k → w.fired k = false ∧ (k ∈ w.calls ∨
    ∃ a waiters, w.asks r = some a ∧ w.gate (a.span S) = some waiters ∧ k ∈ waiters)
  settled : (∀ a : SingleAct, a.Own → w.step S a = none) →
    (∀ r a, w.asks r = some a → ∃ x, (r, x) ∈ w.answers) ∧ w.keeps = [] ∧
      (∀ g, w.gate g = none) ∧ (∀ h, w.innerOps h = 0) ∧ ∀ h, w.pendingPersists h = 0

/-! ### The owners and the counts -/

variable {S : SingleSetup} {w w' : SingleWorld} {r : Nat} {a : SingleAsk} {pc pc' : SinglePc}
variable {x : KeepTask} {i : Nat} {q : SingleAsk → Bool} {p : SinglePc → Bool}

structure SingleBooks (S : SingleSetup) (w : SingleWorld) : Prop where
  gates : ∀ g, ∃ n, Total (w.weigh SinglePc.gated fun a => decide (a.span S = g)) n ∧
    n + w.keeps.countP (KeepTask.owns g) = if (w.gate g).isSome then 1 else 0
  ops : ∀ h, Total (w.weigh SinglePc.holding fun a => decide (a.handle = h)) (w.innerOps h)
  persists : ∀ h, ∃ n, Total (w.weigh SinglePc.reserving fun a => decide (a.handle = h)) n ∧
    n + w.keeps.countP (fun x => decide (x.handle = h)) = w.pendingPersists h

/-- One for what is so. -/
def oneIf (b : Bool) : Nat := if b then 1 else 0

theorem oneIf_le (b : Bool) : oneIf b ≤ 1 := by
  cases b <;> decide

theorem oneIf_update (f : ByteRange → Option (List Nat)) (g g' : ByteRange)
    (x : Option (List Nat)) :
    oneIf (Function.update f g x g').isSome =
      if g = g' then oneIf x.isSome else oneIf (f g').isSome := by
  by_cases hg : g = g'
  · rw [if_pos hg, hg, Function.update_self]
  · rw [if_neg hg, Function.update_of_ne (Ne.symm hg)]

/-- One more is counted for `i`. -/
theorem count_more (f : Nat → Nat) (i j : Nat) :
    Function.update f i (f i + 1) j = f j + oneIf (decide (i = j)) := by
  by_cases hij : i = j
  · simp [hij, oneIf]
  · simp [hij, oneIf, Function.update_of_ne (Ne.symm hij)]

/-- One less is. -/
theorem count_less (f : Nat → Nat) (hpos : 1 ≤ f i) (j : Nat) :
    Function.update f i (f i - 1) j + oneIf (decide (i = j)) = f j := by
  by_cases hij : i = j
  · subst hij
    simp [oneIf, Nat.sub_add_cancel hpos]
  · simp [hij, oneIf, Function.update_of_ne (Ne.symm hij)]

theorem weigh_of_ask (ha : w.asks r = some a) : w.weigh p q r = oneIf (p (w.pc r) && q a) := by
  simp only [SingleWorld.weigh, ha, oneIf]

/-- One read moves: the others weigh what they weighed. -/
theorem total_weigh {m n : Nat} (h : Total (w.weigh p q) n) (hpc : w.pc r = pc)
    (ha : w.asks r = some a) (hasks : w'.asks = w.asks) (hpc' : w'.pc = Function.update w.pc r pc')
    (hsum : m + oneIf (p pc && q a) = n + oneIf (p pc' && q a)) : Total (w'.weigh p q) m := by
  apply h.move (i := r)
  · intro r' hne
    simp only [SingleWorld.weigh, hasks, hpc', Function.update_of_ne hne]
  · have ha' : w'.asks r = some a := by rw [hasks, ha]
    rw [weigh_of_ask ha, weigh_of_ask ha', hpc, hpc', Function.update_self]
    exact hsum

theorem total_weigh_le {n : Nat} (h : Total (w.weigh p q) n) (hpc : w.pc r = pc)
    (ha : w.asks r = some a) : oneIf (p pc && q a) ≤ n := by
  rw [← hpc, ← weigh_of_ask ha]
  exact h.le r

/-- A read moves, and the gates, the counts and the tasks move with it. -/
theorem SingleBooks.moved (h : SingleBooks S w) (hpc : w.pc r = pc) (ha : w.asks r = some a)
    (hasks : w'.asks = w.asks) (hpc' : w'.pc = Function.update w.pc r pc')
    (hgates : ∀ g, oneIf (w'.gate g).isSome + oneIf (pc.gated && decide (a.span S = g)) +
      w.keeps.countP (KeepTask.owns g) = oneIf (w.gate g).isSome +
        oneIf (pc'.gated && decide (a.span S = g)) + w'.keeps.countP (KeepTask.owns g))
    (hops : ∀ i, w'.innerOps i + oneIf (pc.holding && decide (a.handle = i)) =
      w.innerOps i + oneIf (pc'.holding && decide (a.handle = i)))
    (hpersists : ∀ i, w'.pendingPersists i + oneIf (pc.reserving && decide (a.handle = i)) +
      w.keeps.countP (fun x => decide (x.handle = i)) = w.pendingPersists i +
        oneIf (pc'.reserving && decide (a.handle = i)) +
          w'.keeps.countP (fun x => decide (x.handle = i))) : SingleBooks S w' where
  gates := by
    intro g
    obtain ⟨n, hn, hcount⟩ := h.gates g
    have hle := total_weigh_le hn hpc ha
    have hg := hgates g
    have hsome : oneIf (w.gate g).isSome = n + w.keeps.countP (KeepTask.owns g) := hcount.symm
    refine ⟨n - oneIf (pc.gated && decide (a.span S = g)) +
      oneIf (pc'.gated && decide (a.span S = g)), ?_, ?_⟩
    · apply total_weigh hn hpc ha hasks hpc'
      omega
    · show _ = oneIf (w'.gate g).isSome
      omega
  ops := fun i => total_weigh (h.ops i) hpc ha hasks hpc' (hops i)
  persists := by
    intro i
    obtain ⟨n, hn, hcount⟩ := h.persists i
    have hle := total_weigh_le hn hpc ha
    have hp := hpersists i
    refine ⟨n - oneIf (pc.reserving && decide (a.handle = i)) +
      oneIf (pc'.reserving && decide (a.handle = i)), ?_, ?_⟩
    · apply total_weigh hn hpc ha hasks hpc'
      omega
    · omega

/-- A read moves, and no task. -/
theorem SingleBooks.walked (h : SingleBooks S w) (hpc : w.pc r = pc) (ha : w.asks r = some a)
    (hasks : w'.asks = w.asks) (hpc' : w'.pc = Function.update w.pc r pc')
    (hkeeps : w'.keeps = w.keeps)
    (hgates : ∀ g, oneIf (w'.gate g).isSome + oneIf (pc.gated && decide (a.span S = g)) =
      oneIf (w.gate g).isSome + oneIf (pc'.gated && decide (a.span S = g)))
    (hops : ∀ i, w'.innerOps i + oneIf (pc.holding && decide (a.handle = i)) =
      w.innerOps i + oneIf (pc'.holding && decide (a.handle = i)))
    (hpersists : ∀ i, w'.pendingPersists i + oneIf (pc.reserving && decide (a.handle = i)) =
      w.pendingPersists i + oneIf (pc'.reserving && decide (a.handle = i))) :
    SingleBooks S w' := by
  refine h.moved hpc ha hasks hpc' (fun g => ?_) hops fun i => ?_
  · rw [hkeeps, hgates]
  · rw [hkeeps, hpersists]

/-- No read moves; the gates, the counts and the tasks do. -/
theorem SingleBooks.kept (h : SingleBooks S w) (hasks : w'.asks = w.asks) (hpc : w'.pc = w.pc)
    (hops : w'.innerOps = w.innerOps)
    (hgates : ∀ g, oneIf (w'.gate g).isSome + w.keeps.countP (KeepTask.owns g) =
      oneIf (w.gate g).isSome + w'.keeps.countP (KeepTask.owns g))
    (hpersists : ∀ h, w'.pendingPersists h + w.keeps.countP (fun x => decide (x.handle = h)) =
      w.pendingPersists h + w'.keeps.countP (fun x => decide (x.handle = h))) :
    SingleBooks S w' := by
  have hweigh : ∀ p q, w'.weigh p q = w.weigh p q := by
    intro p q
    funext r
    simp only [SingleWorld.weigh, hasks, hpc]
  constructor
  · intro g
    obtain ⟨n, hn, hcount⟩ := h.gates g
    have hg := hgates g
    have hsome : oneIf (w.gate g).isSome = n + w.keeps.countP (KeepTask.owns g) := hcount.symm
    refine ⟨n, hweigh _ _ ▸ hn, ?_⟩
    show _ = oneIf (w'.gate g).isSome
    omega
  · intro i
    rw [hweigh, hops]
    exact h.ops i
  · intro i
    obtain ⟨n, hn, hcount⟩ := h.persists i
    have hp := hpersists i
    exact ⟨n, hweigh _ _ ▸ hn, by omega⟩

/-- Who holds the inner file is counted. -/
theorem SingleBooks.held (h : SingleBooks S w) (hpc : w.pc r = pc) (ha : w.asks r = some a)
    (hholding : pc.holding = true) : 1 ≤ w.innerOps a.handle := by
  have hle := total_weigh_le (h.ops a.handle) hpc ha
  rw [hholding, decide_eq_true rfl] at hle
  exact hle

/-- Whoever owns a gate finds it shut. -/
theorem SingleBooks.shut (h : SingleBooks S w) (hpc : w.pc r = pc) (ha : w.asks r = some a)
    (hgated : pc.gated = true) : oneIf (w.gate (a.span S)).isSome = 1 := by
  obtain ⟨n, hn, hcount⟩ := h.gates (a.span S)
  have hle : 1 ≤ n := by
    have hle := total_weigh_le hn hpc ha
    rw [hgated, decide_eq_true rfl] at hle
    exact hle
  have hcount' : _ = oneIf (w.gate (a.span S)).isSome := hcount
  have := oneIf_le (w.gate (a.span S)).isSome
  omega

/-- A task that owns a gate finds it shut. -/
theorem SingleBooks.shutBy (h : SingleBooks S w) {g : ByteRange} (hi : w.keeps[i]? = some x)
    (howns : x.owns g = true) : oneIf (w.gate g).isSome = 1 := by
  obtain ⟨n, -, hcount⟩ := h.gates g
  have hpos : 0 < w.keeps.countP (KeepTask.owns g) :=
    List.countP_pos_iff.2 ⟨x, List.mem_of_getElem? hi, howns⟩
  have hcount' : _ = oneIf (w.gate g).isSome := hcount
  have := oneIf_le (w.gate g).isSome
  omega

/-- Ending a gate touches that gate, and the callbacks. -/
theorem endGate_eq (w : SingleWorld) (g : Option ByteRange) :
    w.endGate g = { w with gate := (w.endGate g).gate, calls := (w.endGate g).calls } := by
  cases g with
  | none => rfl
  | some g =>
      simp only [SingleWorld.endGate, SingleWorld.endFetch]
      split <;> rfl

theorem endGate_gate (w : SingleWorld) (g : Option ByteRange) (g' : ByteRange) :
    (w.endGate g).gate g' = if g = some g' then none else w.gate g' := by
  cases g with
  | none => rfl
  | some g =>
      simp only [SingleWorld.endGate, SingleWorld.endFetch, Option.some.injEq]
      split
      case h_1 hnone =>
        by_cases hg : g = g'
        · rw [if_pos hg, ← hg, hnone]
        · rw [if_neg hg]
      case h_2 waiters hsome =>
        by_cases hg : g = g'
        · rw [if_pos hg, hg]
          exact Function.update_self ..
        · rw [if_neg hg]
          exact Function.update_of_ne (Ne.symm hg) _ _

/-- A read ends its gate, if it has one. -/
theorem SingleBooks.ended (h : SingleBooks S w) (hpc : w.pc r = pc) (ha : w.asks r = some a)
    {gated : Bool} (hgated : pc.gated = gated) (g : ByteRange) :
    oneIf ((w.endGate (SingleWorld.gateOf S a gated)).gate g).isSome +
      oneIf (gated && decide (a.span S = g)) = oneIf (w.gate g).isSome := by
  rw [endGate_gate]
  cases gated with
  | false => simp [SingleWorld.gateOf, oneIf]
  | true =>
      by_cases hg : a.span S = g
      · subst hg
        rw [h.shut hpc ha hgated]
        simp [SingleWorld.gateOf, oneIf]
      · simp [SingleWorld.gateOf, hg, oneIf]

/-! ### The callbacks -/

variable {k : Nat}

structure SingleTickets (S : SingleSetup) (w : SingleWorld) : Prop where
  parked : ∀ r k, w.pc r = .parked k → k < w.made ∧ w.fired k = false ∧ w.ticket k = r
  fresh : ∀ k, k < w.made → w.fired k = false → w.pc (w.ticket k) = .parked k
  timed : ∀ k, k < w.made → w.fired k = false → k ∈ w.arming ∨ k ∈ w.timers
  called : ∀ k, k < w.made → w.fired k = false → k ∈ w.calls ∨ ∃ a waiters,
    w.asks (w.ticket k) = some a ∧ w.gate (a.span S) = some waiters ∧ k ∈ waiters
  taken : ∀ k ∈ w.calls, k < w.made
  armed : ∀ k, k ∈ w.arming ∨ k ∈ w.timers → k < w.made
  waiting : ∀ g waiters, w.gate g = some waiters → ∀ k ∈ waiters, k < w.made

/-- What the callbacks are about stays as it was. -/
structure SameTickets (w w' : SingleWorld) : Prop where
  made : w'.made = w.made
  ticket : w'.ticket = w.ticket
  fired : w'.fired = w.fired
  arming : w'.arming = w.arming
  timers : w'.timers = w.timers

/-- A read moves that neither was parked nor is now; a gate may have been shut. -/
theorem SingleTickets.moved (h : SingleTickets S w) (hsame : SameTickets w w')
    (hasks : ∀ r a, w.asks r = some a → w'.asks r = some a) (hpc : w.pc r = pc)
    (hpc' : w'.pc = Function.update w.pc r pc') (hold : pc.ticket = none)
    (hnew : pc'.ticket = none) (hcalls : w'.calls = w.calls)
    (hgate : ∀ g, w'.gate g = w.gate g ∨ w.gate g = none ∧ w'.gate g = some []) :
    SingleTickets S w' := by
  obtain ⟨hmade, hticket, hfired, harming, htimers⟩ := hsame
  constructor
  · intro r' k hk
    rw [hpc'] at hk
    by_cases hr : r' = r
    · rw [hr, Function.update_self] at hk
      rw [hk] at hnew
      cases hnew
    · rw [Function.update_of_ne hr] at hk
      rw [hmade, hfired, hticket]
      exact h.parked r' k hk
  · intro k hk hf
    rw [hmade] at hk
    rw [hfired] at hf
    have hparked := h.fresh k hk hf
    rw [hpc', hticket, Function.update_of_ne, hparked]
    intro heq
    rw [← hpc, ← heq, hparked] at hold
    cases hold
  · rw [hmade, hfired, harming, htimers]
    exact h.timed
  · intro k hk hf
    rw [hmade] at hk
    rw [hfired] at hf
    rw [hcalls, hticket]
    refine (h.called k hk hf).imp id fun ⟨b, waiters, hb, hg, hmem⟩ => ?_
    refine ⟨b, waiters, hasks _ b hb, ?_, hmem⟩
    rcases hgate (b.span S) with heq | ⟨hnone, -⟩
    · rw [heq, hg]
    · rw [hnone] at hg
      cases hg
  · rw [hcalls, hmade]
    exact h.taken
  · rw [harming, htimers, hmade]
    exact h.armed
  · intro g waiters hg k hk
    rw [hmade]
    rcases hgate g with heq | ⟨-, hnil⟩
    · rw [heq] at hg
      exact h.waiting g waiters hg k hk
    · rw [hnil] at hg
      cases hg
      cases hk

/-- The gate of a range is ended: those parked behind it are to be called. -/
theorem SingleTickets.endGate (h : SingleTickets S w) (g : Option ByteRange) :
    SingleTickets S (w.endGate g) := by
  cases g with
  | none => exact h
  | some g =>
      simp only [SingleWorld.endGate, SingleWorld.endFetch]
      split
      · exact h
      case h_2 waiters hg =>
        exact { h with
          called := by
            intro k hk hfired
            rcases h.called k hk hfired with hcall | ⟨b, ws, hb, hws, hmem⟩
            · exact Or.inl (List.mem_append_left _ hcall)
            · by_cases hgb : b.span S = g
              · rw [hgb, hg] at hws
                cases hws
                exact Or.inl (List.mem_append_right _ hmem)
              · exact Or.inr ⟨b, ws, hb, (Function.update_of_ne hgb _ _).trans hws, hmem⟩
          taken := fun k hk => (List.mem_append.1 hk).elim (h.taken k) (h.waiting g waiters hg k)
          waiting := by
            intro g' ws (hws : Function.update w.gate g none g' = some ws) k hk
            by_cases hgg : g' = g
            · rw [hgg, Function.update_self] at hws
              cases hws
            · rw [Function.update_of_ne hgg] at hws
              exact h.waiting g' ws hws k hk }

/-- A read that found the gate shut is parked behind it. -/
theorem SingleTickets.parks (h : SingleTickets S w) (ha : w.asks r = some a)
    (hold : (w.pc r).ticket = none) {waiters : List Nat} (hg : w.gate (a.span S) = some waiters) :
    SingleTickets S { w.setPc r (.parked w.made) with
      gate := Function.update w.gate (a.span S) (some (waiters ++ [w.made]))
      made := w.made + 1
      ticket := Function.update w.ticket w.made r
      fired := Function.update w.fired w.made false
      arming := w.arming ++ [w.made] } where
  parked := by
    intro r' k (hk : Function.update w.pc r (.parked w.made) r' = .parked k)
    show k < w.made + 1 ∧ Function.update w.fired w.made false k = false ∧
      Function.update w.ticket w.made r k = r'
    by_cases hr : r' = r
    · rw [hr, Function.update_self] at hk
      cases hk
      rw [Function.update_self, Function.update_self]
      exact ⟨Nat.lt_succ_self _, rfl, hr.symm⟩
    · rw [Function.update_of_ne hr] at hk
      obtain ⟨hlt, hfired, hticket⟩ := h.parked r' k hk
      rw [Function.update_of_ne (Nat.ne_of_lt hlt), Function.update_of_ne (Nat.ne_of_lt hlt)]
      exact ⟨Nat.lt_succ_of_lt hlt, hfired, hticket⟩
  fresh := by
    intro k (hk : k < w.made + 1) (hfired : Function.update w.fired w.made false k = false)
    show Function.update w.pc r (.parked w.made) (Function.update w.ticket w.made r k) = .parked k
    by_cases heq : k = w.made
    · rw [heq, Function.update_self, Function.update_self]
    · rw [Function.update_of_ne heq] at hfired ⊢
      have hparked := h.fresh k (by omega) hfired
      rw [Function.update_of_ne, hparked]
      intro hr
      rw [← hr, hparked] at hold
      cases hold
  timed := by
    intro k (hk : k < w.made + 1) (hfired : Function.update w.fired w.made false k = false)
    by_cases heq : k = w.made
    · exact Or.inl (List.mem_append_right _ (List.mem_singleton.2 heq))
    · rw [Function.update_of_ne heq] at hfired
      exact (h.timed k (by omega) hfired).imp (List.mem_append_left _) id
  called := by
    intro k (hk : k < w.made + 1) (hfired : Function.update w.fired w.made false k = false)
    show k ∈ w.calls ∨ ∃ b ws, w.asks (Function.update w.ticket w.made r k) = some b ∧
      Function.update w.gate (a.span S) (some (waiters ++ [w.made])) (b.span S) = some ws ∧ k ∈ ws
    by_cases heq : k = w.made
    · rw [heq, Function.update_self]
      exact Or.inr ⟨a, _, ha, Function.update_self .., by simp⟩
    · rw [Function.update_of_ne heq] at hfired ⊢
      refine (h.called k (by omega) hfired).imp id fun ⟨b, ws, hb, hws, hmem⟩ => ?_
      by_cases hspan : b.span S = a.span S
      · rw [hspan, hg] at hws
        cases hws
        exact ⟨b, _, hb, by rw [hspan, Function.update_self], List.mem_append_left _ hmem⟩
      · exact ⟨b, ws, hb, (Function.update_of_ne hspan _ _).trans hws, hmem⟩
  taken := fun k hk => Nat.lt_succ_of_lt (h.taken k hk)
  armed := by
    intro k hk
    show k < w.made + 1
    have harmed := h.armed k
    have hmem : k ∈ w.arming ++ [w.made] ∨ k ∈ w.timers := hk
    rw [List.mem_append, List.mem_singleton] at hmem
    rcases hmem with (hk | rfl) | hk
    · exact Nat.lt_succ_of_lt (harmed (Or.inl hk))
    · exact Nat.lt_succ_self _
    · exact Nat.lt_succ_of_lt (harmed (Or.inr hk))
  waiting := by
    intro g ws (hws : Function.update w.gate (a.span S) (some (waiters ++ [w.made])) g = some ws)
      k hk
    show k < w.made + 1
    by_cases hgg : g = a.span S
    · rw [hgg, Function.update_self] at hws
      cases hws
      rcases List.mem_append.1 hk with hk | hk
      · exact Nat.lt_succ_of_lt (h.waiting _ waiters hg k hk)
      · rw [List.mem_singleton.1 hk]
        exact Nat.lt_succ_self _
    · rw [Function.update_of_ne hgg] at hws
      exact Nat.lt_succ_of_lt (h.waiting g ws hws k hk)

/-- A callback that is yet to fire is not one that fires now. -/
theorem yet_to_fire {j : Nat} (hf : Function.update w.fired k true j = false) :
    j ≠ k ∧ w.fired j = false := by
  by_cases hj : j = k
  · rw [hj, Function.update_self] at hf
    cases hf
  · rw [Function.update_of_ne hj] at hf
    exact ⟨hj, hf⟩

/-- A callback is called, the first time with effect. -/
theorem SingleTickets.redispatched (h : SingleTickets S w) (hk : k < w.made) :
    SingleTickets S (w.redispatch k) := by
  unfold SingleWorld.redispatch
  split
  · exact h
  case isFalse hfired =>
  have hparked := h.fresh k hk (Bool.not_eq_true _ ▸ hfired)
  exact { h with
    parked := by
      intro r' k' (hpc : Function.update w.pc (w.ticket k) .again r' = .parked k')
      show k' < w.made ∧ Function.update w.fired k true k' = false ∧ w.ticket k' = r'
      by_cases hr : r' = w.ticket k
      · rw [hr, Function.update_self] at hpc
        cases hpc
      · rw [Function.update_of_ne hr] at hpc
        obtain ⟨hlt, hf, ht⟩ := h.parked r' k' hpc
        have hne : k' ≠ k := by
          rintro rfl
          exact hr ht.symm
        rw [Function.update_of_ne hne]
        exact ⟨hlt, hf, ht⟩
    fresh := by
      intro k' hk' hf
      obtain ⟨hne, hf⟩ := yet_to_fire hf
      have hparked' := h.fresh k' hk' hf
      show Function.update w.pc (w.ticket k) .again (w.ticket k') = .parked k'
      rw [Function.update_of_ne, hparked']
      intro heq
      rw [heq, hparked] at hparked'
      cases hparked'
      exact hne rfl
    timed := fun k' hk' hf => h.timed k' hk' (yet_to_fire hf).2
    called := fun k' hk' hf => h.called k' hk' (yet_to_fire hf).2 }

/-- What was called, or is no more to be, leaves the list it was on. -/
theorem SingleTickets.struck (h : SingleTickets S w) (hfired : w.fired k = true)
    {calls timers : List Nat} (hcalls : ∀ j, j ≠ k → j ∈ w.calls → j ∈ calls)
    (htimers : ∀ j, j ≠ k → j ∈ w.timers → j ∈ timers) (hless : ∀ j ∈ calls, j ∈ w.calls)
    (hless' : ∀ j ∈ timers, j ∈ w.timers) :
    SingleTickets S { w with calls := calls, timers := timers } := by
  have hne : ∀ j, w.fired j = false → j ≠ k := by
    rintro j hf rfl
    rw [hfired] at hf
    cases hf
  exact { h with
    timed := fun j hj hf => (h.timed j hj hf).imp id (htimers j (hne j hf))
    called := fun j hj hf => (h.called j hj hf).imp (hcalls j (hne j hf)) id
    taken := fun j hj => h.taken j (hless j hj)
    armed := fun j hj => h.armed j (hj.imp id (hless' j)) }

theorem fired_redispatch (w : SingleWorld) (k : Nat) : (w.redispatch k).fired k = true := by
  unfold SingleWorld.redispatch
  split
  case isTrue hfired => exact hfired
  case isFalse => exact Function.update_self ..

/-! ### The bytes and the answers -/

structure SingleMarks (S : SingleSetup) (w : SingleWorld) : Prop where
  idle : ∀ r, w.asks r = none ↔ w.pc r = .idle
  once : (w.answers.map Prod.fst).Nodup
  done : ∀ r, r ∈ w.answers.map Prod.fst ↔ w.pc r = .done
  right : ∀ r x, (r, x) ∈ w.answers → w.Right S r x
  range : ∀ r a, w.asks r = some a → (w.pc r).onCache = true → a.off < S.fileSize
  brought : ∀ r a b, w.asks r = some a → (w.pc r).brought = some b →
    b = S.bytes (a.span S).1 b.length ∧ SingleWorld.covers S a b.length = true
  kept : ∀ x ∈ w.keeps, x.bytes = S.bytes x.off x.bytes.length
  stored : ∀ p ∈ w.stored, p.2 = S.bytes p.1 p.2.length

theorem SingleMarks.asked (h : SingleMarks S w) (hpc : w.pc r = pc) (hidle : pc ≠ .idle) :
    ∃ a, w.asks r = some a := by
  apply Option.ne_none_iff_exists'.1
  intro hnone
  exact hidle (hpc.symm.trans ((h.idle r).1 hnone))

/-- An answer stays right. -/
theorem SingleWorld.Right.mono {x : SingleAnswer} (h : w.Right S r x)
    (hasks : ∀ r a, w.asks r = some a → w'.asks r = some a)
    (hrelayed : ∀ r, r ∈ w.relayed → r ∈ w'.relayed) : w'.Right S r x := by
  cases x with
  | error => trivial
  | data b =>
      obtain ⟨a, ha, hb, hle, hall⟩ := h
      exact ⟨a, hasks r a ha, hb, hle, fun hr => hall fun hmem => hr (hrelayed r hmem)⟩

/-- A read without an answer moves, and may be answered. -/
theorem SingleMarks.moved (h : SingleMarks S w) (ha : w.asks r = some a) (hlive : w.pc r ≠ .done)
    (hidle : pc' ≠ .idle) (hcache : pc'.onCache = true → a.off < S.fileSize)
    (hbrought : ∀ b, pc'.brought = some b →
      b = S.bytes (a.span S).1 b.length ∧ SingleWorld.covers S a b.length = true)
    (hasks : w'.asks = w.asks) (hpc' : w'.pc = Function.update w.pc r pc')
    {new : List (Nat × SingleAnswer)} (hanswers : w'.answers = w.answers ++ new)
    (hnew : new.map Prod.fst = if pc' = .done then [r] else [])
    (hright : ∀ p ∈ new, w'.Right S p.1 p.2) (hrelayed : ∀ r, r ∈ w.relayed → r ∈ w'.relayed)
    (hkeeps : ∀ x ∈ w'.keeps, x.bytes = S.bytes x.off x.bytes.length)
    (hstored : w'.stored = w.stored) : SingleMarks S w' where
  idle := by
    intro r'
    rw [hasks, hpc']
    by_cases hr : r' = r
    · rw [hr, Function.update_self, ha]
      simp [hidle]
    · rw [Function.update_of_ne hr]
      exact h.idle r'
  once := by
    have hno : r ∉ w.answers.map Prod.fst := fun hmem => hlive ((h.done r).1 hmem)
    rw [hanswers, List.map_append, hnew]
    split
    · refine List.nodup_append.2 ⟨h.once, List.nodup_singleton r, ?_⟩
      rintro r' hr' r'' hr'' rfl
      exact hno (List.mem_singleton.1 hr'' ▸ hr')
    · rw [List.append_nil]
      exact h.once
  done := by
    intro r'
    rw [hanswers, hpc', List.map_append, List.mem_append, hnew, h.done r']
    by_cases hr : r' = r
    · subst hr
      rw [Function.update_self]
      split <;> simp [*]
    · rw [Function.update_of_ne hr]
      split <;> simp [hr]
  right := by
    intro r' x hx
    rw [hanswers] at hx
    rcases List.mem_append.1 hx with hx | hx
    · refine (h.right r' x hx).mono (fun r'' a'' ha'' => ?_) hrelayed
      rw [hasks, ha'']
    · exact hright _ hx
  range := by
    intro r' a' ha' hon
    rw [hasks] at ha'
    rw [hpc'] at hon
    by_cases hr : r' = r
    · subst hr
      rw [ha] at ha'
      cases ha'
      rw [Function.update_self] at hon
      exact hcache hon
    · rw [Function.update_of_ne hr] at hon
      exact h.range r' a' ha' hon
  brought := by
    intro r' a' b ha' hb
    rw [hasks] at ha'
    rw [hpc'] at hb
    by_cases hr : r' = r
    · subst hr
      rw [ha] at ha'
      cases ha'
      rw [Function.update_self] at hb
      exact hbrought b hb
    · rw [Function.update_of_ne hr] at hb
      exact h.brought r' a' b ha' hb
  kept := hkeeps
  stored := by
    rw [hstored]
    exact h.stored

/-- It has been asked for and not answered. -/
def SinglePc.live : SinglePc → Bool
  | .idle => false
  | .done => false
  | _ => true

/-- A read may go from the one place to the other. -/
def SinglePc.walks (pc pc' : SinglePc) : Bool :=
  pc.live && pc'.live && (pc.onCache || !pc'.onCache)

/-- A read moves that has no answer yet. -/
theorem SingleMarks.walked (h : SingleMarks S w) (hpc : w.pc r = pc) (ha : w.asks r = some a)
    (hwalks : pc.walks pc' = true)
    (hbrought : ∀ b, pc'.brought = some b →
      b = S.bytes (a.span S).1 b.length ∧ SingleWorld.covers S a b.length = true)
    (hasks : w'.asks = w.asks) (hpc' : w'.pc = Function.update w.pc r pc')
    (hanswers : w'.answers = w.answers) (hrelayed : w'.relayed = w.relayed)
    (hkeeps : w'.keeps = w.keeps) (hstored : w'.stored = w.stored) : SingleMarks S w' := by
  simp only [SinglePc.walks, Bool.and_eq_true, Bool.or_eq_true, Bool.not_eq_true'] at hwalks
  obtain ⟨⟨hlive, hlive'⟩, hcache⟩ := hwalks
  have hdone : pc' ≠ .done := by
    rintro rfl
    cases hlive'
  refine h.moved ha ?_ ?_ (fun hon => ?_) hbrought hasks hpc'
    (hanswers.trans (List.append_nil _).symm) (if_neg hdone).symm
    (fun p hp => absurd hp List.not_mem_nil) (fun r hr => hrelayed ▸ hr) (hkeeps ▸ h.kept) hstored
  · rw [hpc]
    rintro rfl
    cases hlive
  · rintro rfl
    cases hlive'
  · apply h.range r a ha
    rw [hpc]
    exact hcache.resolve_right (by simp [hon])

/-- A read is answered. -/
theorem SingleMarks.answered (h : SingleMarks S w) (hpc : w.pc r = pc) (ha : w.asks r = some a)
    (hlive : pc.live = true) {x : SingleAnswer} (hasks : w'.asks = w.asks)
    (hpc' : w'.pc = Function.update w.pc r .done) (hanswers : w'.answers = w.answers ++ [(r, x)])
    (hright : w'.Right S r x) (hrelayed : ∀ r, r ∈ w.relayed → r ∈ w'.relayed)
    (hkeeps : ∀ x ∈ w'.keeps, x.bytes = S.bytes x.off x.bytes.length)
    (hstored : w'.stored = w.stored) : SingleMarks S w' := by
  refine h.moved ha ?_ SinglePc.noConfusion (fun hon => by cases hon) (fun b hb => by cases hb)
    hasks hpc' hanswers rfl (fun p hp => ?_) hrelayed hkeeps hstored
  · rw [hpc]
    rintro rfl
    cases hlive
  · rw [List.mem_singleton.1 hp]
    exact hright

/-! ### Every step -/

structure SingleOk (S : SingleSetup) (w : SingleWorld) : Prop where
  marks : SingleMarks S w
  tickets : SingleTickets S w
  books : SingleBooks S w

theorem served_eq (S : SingleSetup) (h : a.off < S.fileSize) :
    a.served S = min a.size (S.fileSize - a.off) := by
  unfold SingleAsk.served
  split <;> omega

theorem length_bytes (S : SingleSetup) (off n : Nat) : (S.bytes off n).length = n := by
  simp [SingleSetup.bytes]

/-- A part of the origin's bytes is the origin's bytes from there. -/
theorem bytes_part (S : SingleSetup) {off n d : Nat} (h : d + k ≤ n) :
    ((S.bytes off n).drop d).take k = S.bytes (off + d) k := by
  apply List.ext_getElem
  · simp [SingleSetup.bytes]
    omega
  · intro i h1 h2
    simp [SingleSetup.bytes, Nat.add_assoc]

/-- A read moves, and what it holds and has reserved with it. -/
theorem SingleOk.moved (h : SingleOk S w) (pc' : SinglePc) (hpc : w.pc r = pc)
    (ha : w.asks r = some a) (hwalks : pc.walks pc' = true) (hold : pc.ticket = none)
    (hnew : pc'.ticket = none) (hbrought : ∀ b, pc'.brought = some b →
      b = S.bytes (a.span S).1 b.length ∧ SingleWorld.covers S a b.length = true)
    (hgated : pc.gated = pc'.gated) {ops persists : Nat → Nat}
    (hops : ∀ i, ops i + oneIf (pc.holding && decide (a.handle = i)) =
      w.innerOps i + oneIf (pc'.holding && decide (a.handle = i)))
    (hpersists : ∀ i, persists i + oneIf (pc.reserving && decide (a.handle = i)) =
      w.pendingPersists i + oneIf (pc'.reserving && decide (a.handle = i))) :
    SingleOk S { w.setPc r pc' with innerOps := ops, pendingPersists := persists } where
  marks := h.marks.walked hpc ha hwalks hbrought rfl rfl rfl rfl rfl rfl
  tickets := h.tickets.moved ⟨rfl, rfl, rfl, rfl, rfl⟩ (fun _ _ hb => hb) hpc rfl hold hnew rfl
    fun _ => Or.inl rfl
  books := h.books.walked hpc ha rfl rfl rfl (fun _ => hgated ▸ rfl) hops hpersists

/-- A read moves, and nothing is counted or parked. -/
theorem SingleOk.walked (h : SingleOk S w) (hpc : w.pc r = pc) (hwalks : pc.walks pc' = true)
    (hold : pc.ticket = none) (hnew : pc'.ticket = none) (hbrought : pc'.brought = none)
    (hgated : pc.gated = pc'.gated) (hholding : pc.holding = pc'.holding)
    (hreserving : pc.reserving = pc'.reserving) : SingleOk S (w.setPc r pc') := by
  obtain ⟨a, ha⟩ := h.marks.asked hpc (by rintro rfl; cases hwalks)
  refine h.moved pc' hpc ha hwalks hold hnew (fun b hb => ?_) hgated (fun i => ?_) fun i => ?_
  · rw [hbrought] at hb
    cases hb
  · rw [hholding]
  · rw [hreserving]

/-- Nothing is counted of a read that is yet to be answered. -/
def SinglePc.free (pc : SinglePc) : Bool :=
  pc.live && pc.ticket.isNone && !pc.gated && !pc.holding && !pc.reserving

theorem SinglePc.free_iff : pc.free = true ↔ pc.live = true ∧ pc.ticket = none ∧
    pc.gated = false ∧ pc.holding = false ∧ pc.reserving = false := by
  simp [SinglePc.free, and_assoc]

/-- A read of which nothing is counted is answered. -/
theorem SingleOk.answered (h : SingleOk S w) (hpc : w.pc r = pc) (hfree : pc.free = true)
    {x : SingleAnswer} (hright : ∀ a, w.asks r = some a → w.Right S r x) :
    SingleOk S (w.answer r x) := by
  obtain ⟨hlive, hticket, hgated, hholding, hreserving⟩ := SinglePc.free_iff.1 hfree
  obtain ⟨a, ha⟩ := h.marks.asked hpc (by rintro rfl; cases hlive)
  exact {
    marks := h.marks.answered hpc ha hlive rfl rfl rfl
      ((hright a ha).mono (fun _ _ hb => hb) fun _ hr => hr) (fun _ hr => hr) h.marks.kept rfl
    tickets := h.tickets.moved ⟨rfl, rfl, rfl, rfl, rfl⟩ (fun _ _ hb => hb) hpc rfl hticket rfl
      rfl fun _ => Or.inl rfl
    books := h.books.walked hpc ha rfl rfl rfl (fun _ => by rw [hgated]; rfl)
      (fun _ => by rw [hholding]; rfl) fun _ => by rw [hreserving]; rfl }

/-- What the cache gives is right. -/
theorem right_of_bytes (ha : w.asks r = some a) (hrange : a.off < S.fileSize) {b : List UInt8}
    (hb : b = S.bytes a.off (a.served S)) : w.Right S r (.data b) := by
  have hlen : b.length = a.served S := by rw [hb, length_bytes]
  refine ⟨a, ha, by rw [hlen]; exact hb, ?_, fun _ => ?_⟩
  · rw [hlen, served_eq S hrange]
    exact Nat.min_le_left _ _
  · rw [hlen, served_eq S hrange]

/-- A new read. -/
theorem SingleOk.begun (h : SingleOk S w) (hidle : w.pc r = .idle) (a : SingleAsk) (pc' : SinglePc)
    (hfree : pc'.free = true) (hbrought : pc'.brought = none)
    (hcache : pc'.onCache = true → a.off < S.fileSize) :
    SingleOk S ({ w with asks := Function.update w.asks r (some a) }.setPc r pc') := by
  obtain ⟨hlive, hticket, hgated, hholding, hreserving⟩ := SinglePc.free_iff.1 hfree
  have hnone : w.asks r = none := (h.marks.idle r).2 hidle
  have hasks : ∀ r' b, w.asks r' = some b → Function.update w.asks r (some a) r' = some b := by
    intro r' b hb
    have hne : r' ≠ r := by
      rintro rfl
      rw [hnone] at hb
      cases hb
    rw [Function.update_of_ne hne, hb]
  have hweigh : ∀ p q, p pc' = false → ({ w with
      asks := Function.update w.asks r (some a) }.setPc r pc').weigh p q = w.weigh p q := by
    intro p q hp
    funext r'
    by_cases hr : r' = r
    · simp [SingleWorld.weigh, SingleWorld.setPc, hr, hnone, hp]
    · simp [SingleWorld.weigh, SingleWorld.setPc, Function.update_of_ne hr]
  refine ⟨⟨fun r' => ?_, h.marks.once, fun r' => ?_,
    fun r' x hx => (h.marks.right r' x hx).mono hasks fun _ hm => hm, fun r' b hb hon => ?_,
    fun r' b c hb hc => ?_, h.marks.kept, h.marks.stored⟩, ?_, ⟨?_, ?_, ?_⟩⟩
  · by_cases hr : r' = r
    · subst hr
      have hne : pc' ≠ .idle := by
        rintro rfl
        cases hlive
      simpa [SingleWorld.setPc] using hne
    · simpa [SingleWorld.setPc, Function.update_of_ne hr] using h.marks.idle r'
  · by_cases hr : r' = r
    · subst hr
      have hne : pc' ≠ .done := by
        rintro rfl
        cases hlive
      have hnot := (h.marks.done r').not.2 (by rw [hidle]; exact SinglePc.noConfusion)
      simpa [SingleWorld.setPc, hne] using hnot
    · simpa [SingleWorld.setPc, Function.update_of_ne hr] using h.marks.done r'
  · by_cases hr : r' = r
    · subst hr
      simp only [SingleWorld.setPc, Function.update_self, Option.some.injEq] at hb hon
      exact hb ▸ hcache hon
    · simp only [SingleWorld.setPc, Function.update_of_ne hr] at hb hon
      exact h.marks.range r' b hb hon
  · by_cases hr : r' = r
    · simp [SingleWorld.setPc, hr, hbrought] at hc
    · simp only [SingleWorld.setPc, Function.update_of_ne hr] at hb hc
      exact h.marks.brought r' b c hb hc
  · exact h.tickets.moved ⟨rfl, rfl, rfl, rfl, rfl⟩ hasks hidle rfl rfl hticket rfl
      fun _ => Or.inl rfl
  · intro g
    rw [hweigh _ _ hgated]
    exact h.books.gates g
  · intro i
    rw [hweigh _ _ hholding]
    exact h.books.ops i
  · intro i
    rw [hweigh _ _ hreserving]
    exact h.books.persists i

theorem singleAsk_keeps (h : SingleOk S w) (hstep : w.ask S r a = some w') : SingleOk S w' := by
  unfold SingleWorld.ask at hstep
  split at hstep
  · cases hstep
  case isFalse hpc =>
  have hidle := not_not.1 hpc
  split at hstep
  · cases hstep
    exact h.begun hidle a .toRelay rfl rfl fun hon => by cases hon
  split at hstep
  case isTrue hpast =>
    cases hstep
    have hbegun := h.begun hidle a .toRelay rfl rfl fun hon => by cases hon
    have hdone := hbegun.answered (x := .data []) (Function.update_self ..) rfl fun b hb => by
      refine ⟨b, hb, rfl, Nat.zero_le _, fun _ => ?_⟩
      obtain rfl : a = b := by simpa [SingleWorld.setPc] using hb
      simp only [List.length_nil]
      omega
    simpa only [SingleWorld.answer, SingleWorld.setPc, Function.update_idem] using hdone
  case isFalse hin =>
    cases hstep
    exact h.begun hidle a .asked rfl rfl fun _ => by omega

theorem singleLookup_keeps (h : SingleOk S w) {present : Bool}
    (hstep : w.lookup r present = some w') : SingleOk S w' := by
  unfold SingleWorld.lookup at hstep
  split at hstep
  case isFalse => cases hstep
  case isTrue hpc =>
  cases hstep
  cases present <;> exact h.walked hpc rfl rfl rfl rfl rfl rfl rfl

theorem singleRuled_keeps (h : SingleOk S w) {data : Bool}
    (hstep : w.ruled r data = some w') : SingleOk S w' := by
  unfold SingleWorld.ruled at hstep
  split at hstep
  case isFalse => cases hstep
  case isTrue hpc =>
  cases hstep
  cases data <;> exact h.walked hpc rfl rfl rfl rfl rfl rfl rfl

theorem singleServe_keeps (h : SingleOk S w) {bytes : Option (List UInt8)}
    (hlegal : SingleLegal S w (.serve r bytes)) (hstep : w.serve r bytes = some w') :
    SingleOk S w' := by
  unfold SingleWorld.serve at hstep
  split at hstep
  case h_1 b hpc =>
    cases hstep
    exact h.answered hpc rfl fun a ha =>
      right_of_bytes ha (h.marks.range r a ha (by rw [hpc]; rfl)) (hlegal a ha)
  case h_2 hpc =>
    cases hstep
    exact h.walked hpc rfl rfl rfl rfl rfl rfl rfl
  case h_3 b hpc =>
    cases hstep
    exact h.answered hpc rfl fun a ha =>
      right_of_bytes ha (h.marks.range r a ha (by rw [hpc]; rfl)) (hlegal a ha)
  case h_4 hpc =>
    cases hstep
    exact h.walked hpc rfl rfl rfl rfl rfl rfl rfl
  case h_5 => cases hstep

theorem singleBegin_keeps (h : SingleOk S w) (hstep : w.begin S r = some w') : SingleOk S w' := by
  unfold SingleWorld.begin at hstep
  split at hstep
  case h_2 => cases hstep
  case h_1 a hpc ha =>
  split at hstep
  case h_1 hfree =>
    cases hstep
    refine ⟨h.marks.walked hpc ha rfl (fun b hb => by cases hb) rfl rfl rfl rfl rfl rfl,
      h.tickets.moved ⟨rfl, rfl, rfl, rfl, rfl⟩ (fun _ _ hb => hb) hpc rfl rfl rfl rfl fun g => ?_,
      h.books.walked hpc ha rfl rfl rfl (fun g => ?_) (fun _ => rfl) fun _ => rfl⟩
    · by_cases hg : g = a.span S
      · subst hg
        exact Or.inr ⟨hfree, Function.update_self ..⟩
      · exact Or.inl (Function.update_of_ne hg _ _)
    · show oneIf (Function.update w.gate (a.span S) (some []) g).isSome + _ = _
      rw [oneIf_update]
      by_cases hg : a.span S = g
      · subst hg
        simp [hfree, SinglePc.gated, oneIf]
      · simp [hg, SinglePc.gated, oneIf]
  case h_2 waiters hshut =>
    cases hstep
    refine ⟨h.marks.walked hpc ha rfl (fun b hb => by cases hb) rfl rfl rfl rfl rfl rfl,
      h.tickets.parks ha (by rw [hpc]; rfl) hshut,
      h.books.walked hpc ha rfl rfl rfl (fun g => ?_) (fun _ => rfl) fun _ => rfl⟩
    show oneIf (Function.update w.gate (a.span S) (some (waiters ++ [w.made])) g).isSome + _ = _
    rw [oneIf_update]
    by_cases hg : a.span S = g
    · subst hg
      simp [hshut, SinglePc.gated, oneIf]
    · simp [hg, SinglePc.gated, oneIf]

theorem singleArm_keeps (h : SingleOk S w) (hstep : w.arm k = some w') : SingleOk S w' := by
  unfold SingleWorld.arm at hstep
  split at hstep
  case isFalse => cases hstep
  case isTrue hk =>
  cases hstep
  exact {
    marks := { h.marks with }
    tickets := { h.tickets with
      timed := by
        intro j hj hf
        rcases h.tickets.timed j hj hf with harm | htimer
        · by_cases hjk : j = k
          · exact Or.inr (List.mem_append_right _ (List.mem_singleton.2 hjk))
          · exact Or.inl ((List.mem_erase_of_ne hjk).2 harm)
        · exact Or.inr (List.mem_append_left _ htimer)
      armed := by
        intro j hj
        rcases hj with harm | htimer
        · exact h.tickets.armed j (Or.inl (List.mem_of_mem_erase harm))
        · rcases List.mem_append.1 htimer with htimer | htimer
          · exact h.tickets.armed j (Or.inr htimer)
          · rw [List.mem_singleton.1 htimer]
            exact h.tickets.armed k (Or.inl hk) }
    books := { h.books with } }

theorem singleAcquire_keeps (h : SingleOk S w) {inner issued : Bool}
    (hstep : w.acquire r inner issued = some w') : SingleOk S w' := by
  unfold SingleWorld.acquire at hstep
  split at hstep
  case h_3 => cases hstep
  case h_1 gated a hpc ha =>
    split at hstep
    · cases hstep
      exact h.moved (.wire gated) hpc ha rfl rfl rfl (fun b hb => by cases hb) rfl
        (count_more w.innerOps a.handle) fun _ => rfl
    · cases hstep
      exact h.walked hpc rfl rfl rfl rfl rfl rfl rfl
  case h_2 a hpc ha =>
    split at hstep
    · cases hstep
      exact h.moved .relay hpc ha rfl rfl rfl (fun b hb => by cases hb) rfl
        (count_more w.innerOps a.handle) fun _ => rfl
    · cases hstep
      exact h.answered hpc rfl fun _ _ => trivial

theorem singleFail_keeps (h : SingleOk S w) (hstep : w.fail S r = some w') : SingleOk S w' := by
  unfold SingleWorld.fail at hstep
  split at hstep
  case h_2 => cases hstep
  case h_1 gated a hpc ha =>
  cases hstep
  have htickets := h.tickets.endGate (SingleWorld.gateOf S a gated)
  rw [endGate_eq] at htickets ⊢
  exact ⟨h.marks.answered hpc ha rfl rfl rfl rfl trivial (fun _ hr => hr) h.marks.kept rfl,
    htickets.moved ⟨rfl, rfl, rfl, rfl, rfl⟩ (fun _ _ hb => hb) hpc rfl rfl rfl rfl
      fun _ => Or.inl rfl,
    h.books.walked hpc ha rfl rfl rfl (h.books.ended hpc ha rfl) (fun _ => rfl) fun _ => rfl⟩

theorem singleFailOpen_keeps (h : SingleOk S w) (hstep : w.failOpen S r = some w') :
    SingleOk S w' := by
  unfold SingleWorld.failOpen at hstep
  split at hstep
  case h_2 => cases hstep
  case h_1 gated a hpc ha =>
  cases hstep
  have htickets := h.tickets.endGate (SingleWorld.gateOf S a gated)
  rw [endGate_eq] at htickets ⊢
  exact ⟨h.marks.walked hpc ha rfl (fun b hb => by cases hb) rfl rfl rfl rfl rfl rfl,
    htickets.moved ⟨rfl, rfl, rfl, rfl, rfl⟩ (fun _ _ hb => hb) hpc rfl rfl rfl rfl
      fun _ => Or.inl rfl,
    h.books.walked hpc ha rfl rfl rfl (h.books.ended hpc ha rfl) (fun _ => rfl) fun _ => rfl⟩

/-! ### The fetch comes back -/

theorem singleReply_keeps (h : SingleOk S w) {bytes : Option (List UInt8)}
    (hlegal : SingleLegal S w (.reply r bytes)) (hstep : w.reply S r bytes = some w') :
    SingleOk S w' := by
  unfold SingleWorld.reply at hstep
  split at hstep
  case h_2 => cases hstep
  case h_1 gated a hpc ha =>
  have hless := count_less w.innerOps (h.books.held hpc ha rfl)
  cases bytes with
  | none =>
      cases hstep
      exact h.moved (.uncovered gated) hpc ha rfl rfl rfl (fun b hb => by cases hb) rfl hless
        fun _ => rfl
  | some b =>
      cases hstep
      by_cases hcovers : SingleWorld.covers S a b.length = true
      · rw [if_pos hcovers]
        refine h.moved (.landed gated b) hpc ha rfl rfl rfl (fun b' hb' => ?_) rfl hless
          fun _ => rfl
        cases hb'
        exact ⟨hlegal a ha, hcovers⟩
      · rw [if_neg hcovers]
        exact h.moved (.uncovered gated) hpc ha rfl rfl rfl (fun b hb => by cases hb) rfl hless
          fun _ => rfl

theorem singleReserve_keeps (h : SingleOk S w) (hstep : w.reserve r = some w') :
    SingleOk S w' := by
  unfold SingleWorld.reserve at hstep
  split at hstep
  case h_2 => cases hstep
  case h_1 gated b a hpc ha =>
  cases hstep
  refine h.moved (.reserved gated b) hpc ha rfl rfl rfl (fun b' hb' => ?_) rfl (fun _ => rfl)
    (count_more w.pendingPersists a.handle)
  cases hb'
  exact h.marks.brought r a b ha (by rw [hpc]; rfl)

/-- What a fetch that covers a request brings for it. -/
theorem right_of_covers (ha : w.asks r = some a) (hrange : a.off < S.fileSize) {b : List UInt8}
    (hb : b = S.bytes (a.span S).1 b.length) (hcovers : SingleWorld.covers S a b.length = true) :
    w.Right S r (.data ((b.drop (a.off - (a.span S).1)).take (a.served S))) := by
  simp only [SingleWorld.covers, Bool.and_eq_true, decide_eq_true_eq] at hcovers
  apply right_of_bytes ha hrange
  rw [hb, bytes_part S (by omega), Nat.add_sub_of_le hcovers.1]

theorem singleComplete_keeps (h : SingleOk S w) (hstep : w.complete S r = some w') :
    SingleOk S w' := by
  unfold SingleWorld.complete at hstep
  split at hstep
  case h_2 => cases hstep
  case h_1 gated b a hpc ha =>
  have hrange := h.marks.range r a ha (by rw [hpc]; rfl)
  obtain ⟨hb, hcovers⟩ := h.marks.brought r a b ha (by rw [hpc]; rfl)
  cases hstep
  refine ⟨h.marks.answered hpc ha rfl rfl rfl rfl
      ((right_of_covers ha hrange hb hcovers).mono (fun _ _ hb => hb) fun _ hr => hr)
      (fun _ hr => hr) (fun x hx => ?_) rfl,
    h.tickets.moved ⟨rfl, rfl, rfl, rfl, rfl⟩ (fun _ _ hb => hb) hpc rfl rfl rfl rfl
      fun _ => Or.inl rfl,
    h.books.moved hpc ha rfl rfl (fun g => ?_) (fun _ => rfl) fun i => ?_⟩
  · rcases List.mem_append.1 hx with hx | hx
    · exact h.marks.kept x hx
    · rw [List.mem_singleton.1 hx]
      exact hb
  · show oneIf (w.gate g).isSome + _ + _ =
      oneIf (w.gate g).isSome + _ + (w.keeps ++ [_]).countP (KeepTask.owns g)
    rw [List.countP_append]
    by_cases hg : a.span S = g
    · cases gated with
      | false => simp [SingleWorld.gateOf, KeepTask.owns, SinglePc.gated, oneIf]
      | true =>
          simp only [hg, SingleWorld.gateOf, KeepTask.owns, SinglePc.gated, oneIf,
            List.countP_singleton, decide_true, Bool.and_self, if_true, ne_eq, reduceCtorEq,
            not_false_eq_true, Bool.false_and, Bool.false_eq_true, if_false]
          omega
    · cases gated <;> simp [hg, SingleWorld.gateOf, KeepTask.owns, SinglePc.gated, oneIf]
  · show w.pendingPersists i + _ + _ = w.pendingPersists i + _ +
      (w.keeps ++ [_]).countP fun x : KeepTask => decide (x.handle = i)
    rw [List.countP_append]
    by_cases hi : a.handle = i
    · simp only [hi, SinglePc.reserving, oneIf, List.countP_singleton, decide_true,
        Bool.and_self, if_true, Bool.false_and, Bool.false_eq_true, if_false]
      omega
    · simp [hi, SinglePc.reserving, oneIf]

theorem singleRelayReply_keeps (h : SingleOk S w) {x : SingleAnswer}
    (hlegal : SingleLegal S w (.relayReply r x)) (hstep : w.relayReply r x = some w') :
    SingleOk S w' := by
  unfold SingleWorld.relayReply at hstep
  split at hstep
  case h_2 => cases hstep
  case h_1 a hpc ha =>
  cases hstep
  refine ⟨h.marks.answered hpc ha rfl rfl rfl rfl ?_ (fun _ hr => List.mem_append_left _ hr)
      h.marks.kept rfl,
    h.tickets.moved ⟨rfl, rfl, rfl, rfl, rfl⟩ (fun _ _ hb => hb) hpc rfl rfl rfl rfl
      fun _ => Or.inl rfl,
    h.books.walked hpc ha rfl rfl rfl (fun _ => rfl)
      (count_less w.innerOps (h.books.held hpc ha rfl)) fun _ => rfl⟩
  cases x with
  | error => trivial
  | data b =>
      obtain ⟨hb, hle⟩ := hlegal a ha
      refine ⟨a, ha, hb, hle, fun hr => absurd ?_ hr⟩
      exact List.mem_append_right _ (List.mem_singleton.2 rfl)

/-! ### The callbacks and the tasks -/

/-- A callback is called: a reader that is parked on it is sent on. -/
theorem SingleOk.redispatched (h : SingleOk S w) (hk : k < w.made) :
    SingleOk S (w.redispatch k) := by
  have htickets := h.tickets.redispatched hk
  unfold SingleWorld.redispatch at htickets ⊢
  split
  · exact h
  case isFalse hfired =>
  rw [if_neg hfired] at htickets
  have hpc := h.tickets.fresh k hk (Bool.not_eq_true _ ▸ hfired)
  obtain ⟨a, ha⟩ := h.marks.asked hpc SinglePc.noConfusion
  exact ⟨h.marks.walked hpc ha rfl (fun b hb => by cases hb) rfl rfl rfl rfl rfl rfl, htickets,
    h.books.walked hpc ha rfl rfl rfl (fun _ => rfl) (fun _ => rfl) fun _ => rfl⟩

/-- It leaves the list it was on. -/
theorem SingleOk.struck (h : SingleOk S w) (hfired : w.fired k = true) {calls timers : List Nat}
    (hcalls : ∀ j, j ≠ k → j ∈ w.calls → j ∈ calls)
    (htimers : ∀ j, j ≠ k → j ∈ w.timers → j ∈ timers) (hless : ∀ j ∈ calls, j ∈ w.calls)
    (hless' : ∀ j ∈ timers, j ∈ w.timers) :
    SingleOk S { w with calls := calls, timers := timers } where
  marks := { h.marks with }
  tickets := h.tickets.struck hfired hcalls htimers hless hless'
  books := { h.books with }

theorem redispatch_lists (w : SingleWorld) (k : Nat) :
    (w.redispatch k).calls = w.calls ∧ (w.redispatch k).timers = w.timers := by
  unfold SingleWorld.redispatch
  split <;> exact ⟨rfl, rfl⟩

theorem singleCall_keeps (h : SingleOk S w) (hstep : w.call k = some w') : SingleOk S w' := by
  unfold SingleWorld.call at hstep
  split at hstep
  case isFalse => cases hstep
  case isTrue hk =>
  cases hstep
  rw [← (redispatch_lists w k).1]
  exact (h.redispatched (h.tickets.taken k hk)).struck (fired_redispatch w k)
    (fun _ hj => (List.mem_erase_of_ne hj).2) (fun _ _ hmem => hmem)
    (fun _ => List.mem_of_mem_erase) fun _ hmem => hmem

theorem singleFire_keeps (h : SingleOk S w) (hstep : w.fire k = some w') : SingleOk S w' := by
  unfold SingleWorld.fire at hstep
  split at hstep
  case isFalse => cases hstep
  case isTrue hk =>
  cases hstep
  rw [← (redispatch_lists w k).2]
  exact (h.redispatched (h.tickets.armed k (Or.inr hk))).struck (fired_redispatch w k)
    (fun _ _ hmem => hmem) (fun _ hj => (List.mem_erase_of_ne hj).2) (fun _ hmem => hmem)
    fun _ => List.mem_of_mem_erase

/-- A task's part in a count, when it changes. -/
theorem countP_set {l : List KeepTask} {y : KeepTask} (hi : l[i]? = some x) (p : KeepTask → Bool) :
    oneIf (p x) + (l.set i y).countP p = oneIf (p y) + l.countP p := by
  have hperm := (perm_set (y := y) hi).countP_eq p
  simp only [List.countP_cons, oneIf] at hperm ⊢
  omega

theorem countP_eraseIdx {l : List KeepTask} (hi : l[i]? = some x) (p : KeepTask → Bool) :
    l.countP p = oneIf (p x) + (l.eraseIdx i).countP p := by
  have hperm := (perm_eraseIdx hi).countP_eq p
  simp only [List.countP_cons, oneIf] at hperm ⊢
  omega

/-- What the tasks have stays the origin's bytes when one of them goes on. -/
theorem SingleMarks.set_kept (h : SingleMarks S w) (hi : w.keeps[i]? = some x) {stage : KeepStage} :
    ∀ y ∈ w.keeps.set i { x with stage := stage }, y.bytes = S.bytes y.off y.bytes.length := by
  intro y hy
  rcases List.mem_or_eq_of_mem_set hy with hy | rfl
  · exact h.kept y hy
  · exact h.kept x (List.mem_of_getElem? hi)

/-- The handle's persists stay counted when a task goes on. -/
theorem set_handle (l : List KeepTask) (hi : l[i]? = some x) (stage : KeepStage) (j : Nat) :
    (l.set i { x with stage := stage }).countP (fun y => decide (y.handle = j)) =
      l.countP fun y => decide (y.handle = j) := by
  have hset : oneIf (decide (x.handle = j)) + _ = oneIf (decide (x.handle = j)) + _ :=
    countP_set (y := { x with stage := stage }) hi fun y => decide (y.handle = j)
  omega

/-- A task goes on to its next stage, with its gate and its handle. -/
theorem SingleOk.staged (h : SingleOk S w) (hi : w.keeps[i]? = some x) {stage : KeepStage}
    (howner : ∀ g, KeepTask.owns g { x with stage := stage } = x.owns g)
    {stored : List (Nat × List UInt8)}
    (hstored : ∀ p ∈ stored, p ∈ w.stored ∨ p = (x.off, x.bytes)) :
    SingleOk S { w with keeps := w.keeps.set i { x with stage := stage }, stored := stored } where
  marks := { h.marks with
    kept := h.marks.set_kept hi
    stored := by
      intro p hp
      rcases hstored p hp with hp | rfl
      · exact h.marks.stored p hp
      · exact h.marks.kept x (List.mem_of_getElem? hi) }
  tickets := { h.tickets with }
  books := by
    refine h.books.kept rfl rfl rfl (fun g => ?_) fun j => ?_
    · have hset := countP_set (y := { x with stage := stage }) hi (KeepTask.owns g)
      rw [howner g] at hset
      show oneIf (w.gate g).isSome + _ = _ + (w.keeps.set i { x with stage := stage }).countP _
      omega
    · rw [set_handle _ hi]

/-- The task ends its gate. -/
theorem SingleOk.taskEnded (h : SingleOk S w) (hi : w.keeps[i]? = some x)
    (hstage : x.stage = .written) :
    SingleOk S { w.endGate x.gate with keeps := w.keeps.set i { x with stage := .ended } } := by
  have htickets := h.tickets.endGate x.gate
  rw [endGate_eq] at htickets ⊢
  refine ⟨{ h.marks with kept := h.marks.set_kept hi }, { htickets with },
    h.books.kept rfl rfl rfl (fun g => ?_) fun j => ?_⟩
  · have hset := countP_set (y := { x with stage := .ended }) hi (KeepTask.owns g)
    have hno : KeepTask.owns g { x with stage := .ended } = false := by simp [KeepTask.owns]
    rw [hno] at hset
    show oneIf ((w.endGate x.gate).gate g).isSome + _ = _ + (w.keeps.set i _).countP _
    rw [endGate_gate]
    by_cases hg : x.gate = some g
    · have howns : x.owns g = true := by simp [KeepTask.owns, hg, hstage]
      have hshut := h.books.shutBy hi howns
      rw [howns] at hset
      rw [if_pos hg, hshut]
      simp only [oneIf, if_true, Bool.false_eq_true, if_false, Option.isSome_none] at hset ⊢
      omega
    · have hnot : x.owns g = false := by simp [KeepTask.owns, hg]
      rw [hnot] at hset
      rw [if_neg hg]
      omega
  · rw [set_handle _ hi]

/-- The task is done and counted off. -/
theorem SingleOk.taskDone (h : SingleOk S w) (hi : w.keeps[i]? = some x)
    (hstage : x.stage = .ended) :
    SingleOk S { w with
      keeps := w.keeps.eraseIdx i
      pendingPersists :=
        Function.update w.pendingPersists x.handle (w.pendingPersists x.handle - 1) } where
  marks := { h.marks with
    kept := fun y hy => h.marks.kept y (List.mem_of_mem_eraseIdx hy) }
  tickets := { h.tickets with }
  books := by
    refine h.books.kept rfl rfl rfl (fun g => ?_) fun j => ?_
    · have herase := countP_eraseIdx hi (KeepTask.owns g)
      have hno : x.owns g = false := by simp [KeepTask.owns, hstage]
      rw [hno] at herase
      show oneIf (w.gate g).isSome + _ = _ + (w.keeps.eraseIdx i).countP _
      simp only [oneIf, Bool.false_eq_true, if_false] at herase ⊢
      omega
    · have herase := countP_eraseIdx hi fun y => decide (y.handle = j)
      have hpos : 1 ≤ w.pendingPersists x.handle := by
        obtain ⟨n, -, hcount⟩ := h.books.persists x.handle
        have hone := countP_eraseIdx hi fun y => decide (y.handle = x.handle)
        simp only [decide_true, oneIf, if_true] at hone
        omega
      have hless := count_less w.pendingPersists hpos j
      show Function.update w.pendingPersists x.handle (w.pendingPersists x.handle - 1) j + _ =
        _ + (w.keeps.eraseIdx i).countP _
      omega

theorem singleKeep_keeps (h : SingleOk S w) (hstep : w.keep i = some w') : SingleOk S w' := by
  unfold SingleWorld.keep at hstep
  split at hstep
  case h_1 => cases hstep
  case h_2 x hi =>
  split at hstep
  case h_1 hstage =>
    cases hstep
    exact h.staged hi (fun g => by simp [KeepTask.owns, hstage]) fun p hp => Or.inl hp
  case h_2 hstage =>
    cases hstep
    refine h.staged hi (fun g => by simp [KeepTask.owns, hstage]) ?_
    intro p hp
    exact (List.mem_append.1 hp).imp id List.mem_singleton.1
  case h_3 hstage =>
    cases hstep
    exact h.taskEnded hi hstage
  case h_4 hstage =>
    cases hstep
    exact h.taskDone hi hstage

theorem singleOk_step (h : SingleOk S w) {act : SingleAct} (hlegal : SingleLegal S w act)
    (hstep : w.step S act = some w') : SingleOk S w' := by
  cases act with
  | ask r a => exact singleAsk_keeps h hstep
  | lookup r present => exact singleLookup_keeps h hstep
  | ruled r data => exact singleRuled_keeps h hstep
  | serve r bytes => exact singleServe_keeps h hlegal hstep
  | begin r => exact singleBegin_keeps h hstep
  | arm k => exact singleArm_keeps h hstep
  | acquire r inner issued => exact singleAcquire_keeps h hstep
  | fail r => exact singleFail_keeps h hstep
  | reply r bytes => exact singleReply_keeps h hlegal hstep
  | reserve r => exact singleReserve_keeps h hstep
  | complete r => exact singleComplete_keeps h hstep
  | failOpen r => exact singleFailOpen_keeps h hstep
  | relayReply r x => exact singleRelayReply_keeps h hlegal hstep
  | call k => exact singleCall_keeps h hstep
  | fire k => exact singleFire_keeps h hstep
  | keep i => exact singleKeep_keeps h hstep

theorem singleOk_start : SingleOk S {} where
  marks :=
    { idle := fun _ => ⟨fun _ => rfl, fun _ => rfl⟩
      once := List.nodup_nil
      done := fun r => ⟨fun h => (by cases h), fun h => (by cases h)⟩
      right := fun r x h => by cases h
      range := fun r a h => by cases h
      brought := fun r a b h => by cases h
      kept := fun x h => by cases h
      stored := fun p h => by cases h }
  tickets :=
    { parked := fun r k h => by cases h
      fresh := fun k h => absurd h (Nat.not_lt_zero k)
      timed := fun k h => absurd h (Nat.not_lt_zero k)
      called := fun k h => absurd h (Nat.not_lt_zero k)
      taken := fun k h => by cases h
      armed := fun k h => by rcases h with h | h <;> cases h
      waiting := fun g ws h => by cases h }
  books :=
    { gates := fun g => ⟨0, Total.zero.congr fun r => rfl, rfl⟩
      ops := fun i => Total.zero.congr fun r => rfl
      persists := fun i => ⟨0, Total.zero.congr fun r => rfl, rfl⟩ }

/-! ### Where nothing more happens -/

namespace SingleWorld

/-- No thread, timer, task or reply that is due can do anything. -/
def Still (S : SingleSetup) (w : SingleWorld) : Prop := ∀ a : SingleAct, a.Own → w.step S a = none

variable {k : Nat}

theorem Still.keeps (h : w.Still S) : w.keeps = [] := by
  cases hkeeps : w.keeps with
  | nil => rfl
  | cons x l =>
      have hkeep := h (.keep 0) trivial
      simp only [step, keep, hkeeps, List.getElem?_cons_zero] at hkeep
      split at hkeep <;> cases hkeep

/-- A read that was asked for is answered: at every other place it can move. -/
theorem Still.done (h : w.Still S) (htickets : SingleTickets S w) (ha : w.asks r = some a)
    (hidle : w.pc r ≠ .idle) : w.pc r = .done := by
  cases hpc : w.pc r with
  | idle => exact absurd hpc hidle
  | done => rfl
  | asked =>
      have hact := h (.lookup r true) trivial
      simp [step, lookup, hpc] at hact
  | hit =>
      have hact := h (.serve r none) trivial
      simp [step, serve, hpc] at hact
  | missing =>
      have hact := h (.ruled r true) trivial
      simp [step, ruled, hpc] at hact
  | toFetch =>
      have hact := h (.begin r) trivial
      simp only [step, begin, hpc, ha] at hact
      split at hact <;> cases hact
  | parked k =>
      obtain ⟨hlt, hfired, -⟩ := htickets.parked r k hpc
      rcases htickets.timed k hlt hfired with harm | htimer
      · have hact := h (.arm k) trivial
        simp [step, arm, harm] at hact
      · have hact := h (.fire k) trivial
        simp [step, fire, htimer] at hact
  | again =>
      have hact := h (.serve r none) trivial
      simp [step, serve, hpc] at hact
  | owner gated =>
      have hact := h (.acquire r true true) trivial
      simp [step, acquire, hpc, ha] at hact
  | wire gated =>
      have hact := h (.reply r none) trivial
      simp [step, reply, hpc, ha] at hact
  | failed gated =>
      have hact := h (.fail r) trivial
      simp [step, fail, hpc, ha] at hact
  | landed gated b =>
      have hact := h (.reserve r) trivial
      simp [step, reserve, hpc, ha] at hact
  | reserved gated b =>
      have hact := h (.complete r) trivial
      simp [step, complete, hpc, ha] at hact
  | uncovered gated =>
      have hact := h (.failOpen r) trivial
      simp [step, failOpen, hpc, ha] at hact
  | toRelay =>
      have hact := h (.acquire r true true) trivial
      simp [step, acquire, hpc, ha] at hact
  | relay =>
      have hact := h (.relayReply r .error) trivial
      simp [step, relayReply, hpc, ha] at hact

end SingleWorld

/-- With every read answered nothing is counted. -/
theorem total_weigh_zero {n : Nat} (h : Total (w.weigh p q) n)
    (hdone : ∀ r a, w.asks r = some a → w.pc r = .done) (hp : p .done = false) : n = 0 := by
  apply Total.unique h
  apply Total.zero.congr
  intro r
  cases ha : w.asks r with
  | none => simp [SingleWorld.weigh, ha]
  | some a => simp [SingleWorld.weigh, ha, hdone r a ha, hp]

theorem SingleOk.safe (h : SingleOk S w) : SingleSafe S w where
  once := h.marks.once
  right := h.marks.right
  stored := h.marks.stored
  gates := h.books.gates
  ops := h.books.ops
  persists := h.books.persists
  parked := by
    intro r k hpc
    obtain ⟨hlt, hfired, hticket⟩ := h.tickets.parked r k hpc
    refine ⟨hfired, ?_⟩
    rw [← hticket]
    exact h.tickets.called k hlt hfired
  settled := by
    intro hstill
    have hstill' : w.Still S := hstill
    have hkeeps := hstill'.keeps
    have hdone : ∀ r a, w.asks r = some a → w.pc r = .done := by
      intro r a ha
      apply hstill'.done h.tickets ha
      intro hidle
      rw [(h.marks.idle r).2 hidle] at ha
      cases ha
    refine ⟨?_, hkeeps, ?_, ?_, ?_⟩
    · intro r a ha
      obtain ⟨⟨r', x⟩, hx, rfl⟩ := List.mem_map.1 ((h.marks.done r).2 (hdone r a ha))
      exact ⟨x, hx⟩
    · intro g
      obtain ⟨n, hn, hcount⟩ := h.books.gates g
      rw [total_weigh_zero hn hdone rfl, hkeeps] at hcount
      cases hg : w.gate g with
      | none => rfl
      | some waiters => simp [hg] at hcount
    · exact fun i => total_weigh_zero (h.books.ops i) hdone rfl
    · intro i
      obtain ⟨n, hn, hcount⟩ := h.books.persists i
      rw [total_weigh_zero hn hdone rfl, hkeeps] at hcount
      exact hcount.symm

/-- [SRC UCacheFile.cc:1899-2060, 737-916] -/
theorem single_reads_answered {acts : List SingleAct}
    (hlegal : Along (SingleWorld.step S) (SingleLegal S) {} acts)
    (hrun : exec (SingleWorld.step S) {} acts = some w) : SingleSafe S w := by
  have h : SingleOk S w := by
    apply exec_invariant_along (SingleOk S) _ singleOk_start hlegal hrun
    intro s a t hs ha hstep
    exact singleOk_step hs ha hstep
  exact h.safe

/-- A file of ten bytes. -/
def tenBytes : SingleSetup where
  pageSize := 4
  fileSize := 10
  origin := fun i => UInt8.ofNat i

/-- Two handles read within one page: the second is parked behind the first, whose fetch comes back;
it is sent on when the page is kept, and served from the cache. -/
def parkedBehind : List SingleAct :=
  [.ask 0 ⟨0, 5, 2⟩, .ask 1 ⟨1, 6, 2⟩, .lookup 0 false, .lookup 1 false, .ruled 0 false,
    .ruled 1 false, .begin 0, .begin 1, .acquire 0 true true, .arm 0, .reply 0 (some [4, 5, 6, 7]),
    .reserve 0, .complete 0, .keep 0, .keep 0, .keep 0, .call 0, .keep 0, .serve 1 (some [6, 7]),
    .fire 0]

def parkedCheck (w : SingleWorld) : SingleAct → Bool
  | .serve r (some b) => (w.asks r).all fun a => b == tenBytes.bytes a.off (a.served tenBytes)
  | .reply r (some b) => (w.asks r).all fun a => b == tenBytes.bytes (a.span tenBytes).1 b.length
  | .relayReply _ _ => false
  | _ => true

theorem parkedCheck_sound {act : SingleAct} (h : parkedCheck w act = true) :
    SingleLegal tenBytes w act := by
  cases act with
  | serve r bytes =>
      cases bytes with
      | none => trivial
      | some b =>
          intro a ha
          simpa [parkedCheck, ha] using h
  | reply r bytes =>
      cases bytes with
      | none => trivial
      | some b =>
          intro a ha
          simpa [parkedCheck, ha] using h
  | relayReply r x => cases h
  | _ => trivial

/-- A read parked behind another's fetch is answered too. -/
theorem parked_behind_answered : ∃ w, exec (SingleWorld.step tenBytes) {} parkedBehind = some w ∧
    SingleSafe tenBytes w ∧ w.answers = [(0, .data [5, 6]), (1, .data [6, 7])] := by
  have hanswers : (exec (SingleWorld.step tenBytes) {} parkedBehind).map SingleWorld.answers =
      some [(0, .data [5, 6]), (1, .data [6, 7])] := by
    decide
  obtain ⟨w, hw, hlist⟩ := Option.map_eq_some_iff.1 hanswers
  refine ⟨w, hw, ?_, hlist⟩
  apply single_reads_answered _ hw
  apply along_of_check (fun _ => True) (fun _ => True)
  · intro s a t _ _ _
    trivial
  · intro s a _ _ hcheck
    exact parkedCheck_sound hcheck
  · trivial
  · intro a _
    trivial
  · decide

end UCache
