/-
Module: UCache.Plugin.ColdAnswers
Purpose: How a read of a file in a slot layout ends.  A counter of what is out is let go of by wire
  callbacks, conversions, other requests' threads and the code that issues; whoever lets go last
  posts `finish`, which calls the user's handler or serves the same chunks again.  Every change of
  the counter is a step of its own.  What the byte cache, the slots and the wire answer, and which
  records are copied, is left open.
Trusted boundary: none
Main exports: ServeCode, OutPiece, slot_request_answers_once
-/
import UCache.Lib.Run
import UCache.Plugin.ColdRequest

namespace UCache

open Lib

/-! ### One request object -/

/-- [SRC ColdRun.cc:1495-1652] Where `serveRequest` stands. -/
inductive ServeCode where
  | classify (c k : Nat)
  | park
  /-- waits for read-ahead; the timer is still to be set -/
  | arming
  | parked
  | claim (todo : List Nat)
  /-- counted, before `claimOrWait` -/
  | claiming (i : Nat) (todo : List Nat)
  /-- claimed or ready: counted per conversion instead -/
  | uncount (todo : List Nat)
  | fetch (todo : List Nat) (items : List PartItem)
  /-- counted, before the conversion is posted -/
  | posting (i : Nat) (todo : List Nat) (items : List PartItem)
  | issue (parts : List (List PartItem))
  /-- counted, before the vector read -/
  | sending (part : List PartItem) (parts : List (List PartItem))
  /-- the vector read was not taken -/
  | refused (parts : List (List PartItem))
  | returned

/-- Something a request has out, with its share of the counter. -/
inductive OutPiece where
  /-- registered with a slot that somebody else fetches -/
  | waiter (i : Nat)
  | part (items : List PartItem)
  /-- its answer is here, item by item -/
  | delivering (items : List PartItem)
  /-- a conversion of the part is counted, and is to be posted -/
  | counted (i : Nat) (items : List PartItem)
  | conversion (i : Nat)
  /-- only `done` is left -/
  | finished

/-- [SRC ColdRun.cc:1048-1140] Where a `finish` that was posted stands. -/
inductive FinishCode where
  | posted
  | giveBack (todo : List Nat)
  | copy (todo : List Nat)

/-- [SRC ColdRun.cc:879-951] A request object: the user's, or one that serves the same chunks again.
`armed` counts who may still call `again` of a parked one, of which the first alone starts it. -/
structure ColdAttempt where
  attempt : Nat := 0
  mayPark : Bool := true
  code : ServeCode := .classify 0 0
  slotPieces : List Nat := []
  origPieces : List (Nat × Nat) := []
  need : List Nat := []
  claimed : List Nat := []
  converted : List Nat := []
  outstanding : Int := 1
  failed : Bool := false
  retry : Bool := false
  fired : Bool := false
  armed : Nat := 0
  pieces : List OutPiece := []
  finishes : List FinishCode := []

/-- What a step does outside the object. -/
inductive AttemptEffect where
  | none
  /-- copies into the user's buffers -/
  | writes
  /-- posts an object that serves the same chunks, and does not park -/
  | again (attempt : Nat)
  /-- calls the user's handler -/
  | answers (ok : Bool)
deriving DecidableEq, Repr

/-- What the outside answers at a step of `serveRequest`. -/
structure ServeAnswer where
  /-- the slots that are ready now -/
  ready : Nat → Bool := fun _ => false
  /-- `waitForInFlight` took the request -/
  parks : Bool := false
  claim : ColdFill.Claim := .claimed
  /-- the byte cache has the range -/
  cached : Bool := false
  /-- the vector read was taken -/
  sent : Bool := true

namespace ColdAttempt

/-- [SRC ColdRun.cc:941-947] The last hold released finishes the request. -/
def done (r : ColdAttempt) : ColdAttempt :=
  { r with
    outstanding := r.outstanding - 1
    finishes := if r.outstanding = 1 then r.finishes ++ [.posted] else r.finishes }

def slotItem (cx : ColdCx) (i : Nat) : PartItem :=
  let s := cx.slot i
  let span := roundSpan cx.pageSize cx.L.originSize s.origSeek s.origLen
  { slot := true, index := i, off := s.origSeek, len := s.origLen, rs := span.1, re := span.2 }

def origItem (cx : ColdCx) (k : Nat) (p : Nat × Nat) : PartItem :=
  let span := roundSpan cx.pageSize cx.L.originSize p.1 p.2
  { slot := false, index := k, off := p.1, len := p.2, rs := span.1, re := span.2 }

/-- [SRC ColdRun.cc:1429-1493] One turn of `classify` at byte `k` of chunk `c`.  `readCached` may
have written before it says no. -/
def classifyTurn (cx : ColdCx) (r : ColdAttempt) (c k : Nat) (ch : Chunk) (a : ServeAnswer) :
    ColdAttempt × AttemptEffect :=
  match classifyAt cx.L (ch.off + k) (ch.off + ch.len) with
  | (.written _, n) => ({ r with code := .classify c (k + n) }, .writes)
  | (.orig off, n) =>
      ({ r with
          origPieces := if a.cached then r.origPieces else r.origPieces ++ [(off, n)]
          code := .classify c (k + n) },
        .writes)
  | (.slot i _, n) =>
      ({ r with
          slotPieces := r.slotPieces ++ [i]
          need := if a.ready i then r.need else r.need ++ [i]
          code := .classify c (k + n) },
        .none)

/-- [SRC ColdRun.cc:1495-1652] The next step of `serveRequest`. -/
def serveTurn (cx : ColdCx) (chunks : List Chunk) (r : ColdAttempt) (a : ServeAnswer) :
    Option (ColdAttempt × AttemptEffect) :=
  match r.code with
  | .classify c k =>
      match chunks[c]? with
      | none =>
          let need := (r.need.mergeSort fun x y => decide (x ≤ y)).dedup
          some ({ r with need := need.filter fun i => !a.ready i, code := .park }, .none)
      | some ch =>
          if ch.len ≤ k then some ({ r with code := .classify (c + 1) 0 }, .none)
          else some (r.classifyTurn cx c k ch a)
  | .park =>
      if r.mayPark && !r.need.isEmpty && a.parks then
        some ({ r with code := .arming, armed := r.armed + 1 }, .none)
      else some ({ r with code := .claim r.need }, .none)
  -- a lost wakeup must not hang the read
  | .arming => some ({ r with code := .parked, armed := r.armed + 1 }, .none)
  | .parked => none
  | .claim [] => some ({ r with code := .fetch r.claimed [] }, .none)
  | .claim (i :: todo) =>
      some ({ r with outstanding := r.outstanding + 1, code := .claiming i todo }, .none)
  | .claiming i todo =>
      match a.claim with
      | .claimed => some ({ r with claimed := r.claimed ++ [i], code := .uncount todo }, .none)
      | .ready => some ({ r with code := .uncount todo }, .none)
      | .waiting => some ({ r with pieces := r.pieces ++ [.waiter i], code := .claim todo }, .none)
  | .uncount todo => some ({ r with outstanding := r.outstanding - 1, code := .claim todo }, .none)
  | .fetch [] items =>
      let orig := r.origPieces.mapIdx (origItem cx)
      some ({ r with code := .issue (formParts (items ++ orig)) }, .none)
  | .fetch (i :: todo) items =>
      if a.cached then
        some ({ r with outstanding := r.outstanding + 1, code := .posting i todo items }, .none)
      else some ({ r with code := .fetch todo (items ++ [slotItem cx i]) }, .none)
  | .posting i todo items =>
      some ({ r with pieces := r.pieces ++ [.conversion i], code := .fetch todo items }, .none)
  -- the issuing stage's own hold
  | .issue [] => some ({ r with code := .returned }.done, .none)
  | .issue (p :: ps) =>
      some ({ r with outstanding := r.outstanding + 1, code := .sending p ps }, .none)
  | .sending p ps =>
      if a.sent then some ({ r with pieces := r.pieces ++ [.part p], code := .issue ps }, .none)
      else some ({ r with failed := true, code := .refused ps }, .none)
  | .refused ps => some ({ r with code := .issue ps }.done, .none)
  | .returned => none

def setPiece (r : ColdAttempt) (j : Nat) (p : OutPiece) : ColdAttempt :=
  { r with pieces := r.pieces.set j p }

/-- [SRC ColdRun.cc:1146-1257, 1298-1364, 1581-1587] The next step of something that is out; `ok`
says whether what it does at that step succeeds. -/
def pieceTurn (r : ColdAttempt) (j : Nat) (ok : Bool) : Option (ColdAttempt × AttemptEffect) :=
  match r.pieces[j]? with
  | none => none
  | some (.waiter _) => some ({ r.setPiece j .finished with retry := r.retry || !ok }, .none)
  | some (.part items) =>
      if ok then some (r.setPiece j (.delivering items), .none)
      else some ({ r.setPiece j .finished with failed := true }, .none)
  | some (.delivering []) => some (r.setPiece j .finished, .none)
  | some (.delivering (it :: items)) =>
      if !ok then some ({ r.setPiece j (.delivering items) with failed := true }, .none)
      else if it.slot then
        some ({ r.setPiece j (.counted it.index items) with outstanding := r.outstanding + 1 },
          .none)
      else some (r.setPiece j (.delivering items), .writes)
  | some (.counted i items) =>
      some ({ r with pieces := r.pieces.set j (.delivering items) ++ [.conversion i] }, .none)
  | some (.conversion i) =>
      if ok then some ({ r.setPiece j .finished with converted := r.converted ++ [i] }, .none)
      else some ({ r.setPiece j .finished with failed := true }, .none)
  | some .finished => some ({ r with pieces := r.pieces.eraseIdx j }.done, .none)

def setFinish (r : ColdAttempt) (j : Nat) (f : FinishCode) : ColdAttempt :=
  { r with finishes := r.finishes.set j f }

/-- The `finish` returns. -/
def finished (r : ColdAttempt) (j : Nat) : ColdAttempt :=
  { r with finishes := r.finishes.eraseIdx j }

/-- [SRC ColdRun.cc:1093-1099] A slot fell through. -/
def lose (r : ColdAttempt) (j : Nat) : ColdAttempt × AttemptEffect :=
  (r.finished j, if r.attempt < 2 then .again (r.attempt + 1) else .answers false)

/-- [SRC ColdRun.cc:1048-1140] The next step of a `finish`. -/
def finishTurn (r : ColdAttempt) (j : Nat) (ok : Bool) : Option (ColdAttempt × AttemptEffect) :=
  match r.finishes[j]? with
  | none => none
  | some .posted =>
      if r.failed then
        -- the claims this request still holds: those it never staged
        some (r.setFinish j (.giveBack (r.claimed.filter fun i => !r.converted.contains i)), .none)
      else if r.retry then some (r.lose j)
      else some (r.setFinish j (.copy r.slotPieces), .none)
  | some (.giveBack (_ :: todo)) => some (r.setFinish j (.giveBack todo), .none)
  | some (.giveBack []) => some (r.finished j, .answers false)
  | some (.copy (_ :: todo)) =>
      if ok then some (r.setFinish j (.copy todo), .writes) else some (r.lose j)
  | some (.copy []) => some (r.finished j, .answers true)

/-- [SRC ColdRun.cc:1553-1572] Read-ahead or the timer calls a parked request's `again`. -/
def wakeUp (r : ColdAttempt) : Option (ColdAttempt × AttemptEffect) :=
  if r.armed = 0 then none
  else
    some ({ r with armed := r.armed - 1, fired := true },
      if r.fired then .none else .again r.attempt)

end ColdAttempt

/-! ### A user's request -/

/-- A step of one object. -/
inductive AttemptAct where
  | serve (a : ServeAnswer)
  | piece (j : Nat) (ok : Bool)
  | finish (j : Nat) (ok : Bool)
  | wakeUp

def ColdAttempt.step (cx : ColdCx) (chunks : List Chunk) (r : ColdAttempt) :
    AttemptAct → Option (ColdAttempt × AttemptEffect)
  | .serve a => r.serveTurn cx chunks a
  | .piece j ok => r.pieceTurn j ok
  | .finish j ok => r.finishTurn j ok
  | .wakeUp => r.wakeUp

/-- The objects made for one read, how often the user's buffers were written, and the calls of the
user's handler. -/
structure AnswerWorld where
  attempts : List ColdAttempt := [{}]
  writes : Nat := 0
  answers : List Bool := []

namespace AnswerWorld

def apply (w : AnswerWorld) : AttemptEffect → AnswerWorld
  | .none => w
  | .writes => { w with writes := w.writes + 1 }
  | .again attempt => { w with attempts := w.attempts ++ [{ attempt := attempt, mayPark := false }] }
  | .answers ok => { w with answers := w.answers ++ [ok] }

def step (cx : ColdCx) (chunks : List Chunk) (w : AnswerWorld) (a : Nat × AttemptAct) :
    Option AnswerWorld :=
  (w.attempts[a.1]?).bind fun r =>
    (r.step cx chunks a.2).map fun t =>
      { w with attempts := w.attempts.set a.1 t.1 }.apply t.2

end AnswerWorld

/-! ### The counter -/

variable {ps : List OutPiece}

/-- What the code of a request holds of its counter. -/
def ServeCode.holds : ServeCode → Int
  | .claiming _ _ => 2
  | .uncount _ => 2
  | .posting _ _ _ => 2
  | .sending _ _ => 2
  | .refused _ => 2
  | .returned => 0
  | _ => 1

/-- The code runs, and not only to set the timer of a request that waits for read-ahead. -/
def ServeCode.running : ServeCode → Bool
  | .arming => false
  | .parked => false
  | .returned => false
  | _ => true

/-- Before anything is out. -/
def ServeCode.early : ServeCode → Bool
  | .classify _ _ => true
  | .park => true
  | _ => false

theorem ServeCode.holds_pos {c : ServeCode} (h : c.running = true) : 0 < c.holds := by
  cases c <;> simp_all [running, holds]

theorem ServeCode.holds_nonneg (c : ServeCode) : 0 ≤ c.holds := by
  cases c <;> simp [holds]

def OutPiece.holds : OutPiece → Int
  | .counted _ _ => 2
  | _ => 1

theorem OutPiece.holds_pos (p : OutPiece) : 0 < p.holds := by
  cases p <;> simp [holds]

/-- What a list of pieces holds. -/
def heldBy (ps : List OutPiece) : Int := (ps.map OutPiece.holds).sum

@[simp] theorem heldBy_nil : heldBy [] = 0 := rfl

@[simp] theorem heldBy_cons (p : OutPiece) (ps : List OutPiece) :
    heldBy (p :: ps) = p.holds + heldBy ps := by
  simp [heldBy]

@[simp] theorem heldBy_append (ps qs : List OutPiece) :
    heldBy (ps ++ qs) = heldBy ps + heldBy qs := by
  simp [heldBy]

theorem heldBy_perm {qs : List OutPiece} (h : ps.Perm qs) : heldBy ps = heldBy qs :=
  (h.map OutPiece.holds).sum_eq

theorem heldBy_nonneg (ps : List OutPiece) : 0 ≤ heldBy ps := by
  induction ps with
  | nil => exact le_refl 0
  | cons p ps ih =>
      have := p.holds_pos
      rw [heldBy_cons]
      omega

theorem heldBy_eq_zero (h : heldBy ps = 0) : ps = [] := by
  cases ps with
  | nil => rfl
  | cons p ps =>
      have := p.holds_pos
      have := heldBy_nonneg ps
      rw [heldBy_cons] at h
      omega

/-- The pieces without the one at `j`. -/
theorem heldBy_eraseIdx {j : Nat} {p : OutPiece} (h : ps[j]? = some p) :
    heldBy (ps.eraseIdx j) = heldBy ps - p.holds := by
  obtain ⟨hj, rfl⟩ := List.getElem?_eq_some_iff.1 h
  have := heldBy_perm (List.getElem_cons_eraseIdx_perm hj)
  rw [heldBy_cons] at this
  omega

/-- The pieces with another at `j`. -/
theorem heldBy_set {j : Nat} {p : OutPiece} (h : ps[j]? = some p) (q : OutPiece) :
    heldBy (ps.set j q) = heldBy ps - p.holds + q.holds := by
  obtain ⟨hj, -⟩ := List.getElem?_eq_some_iff.1 h
  have := heldBy_perm (List.set_perm_cons_eraseIdx hj q)
  rw [heldBy_cons, heldBy_eraseIdx h] at this
  omega

namespace ColdAttempt

/-- What is out of a request, with what its code holds. -/
def holds (r : ColdAttempt) : Int := r.code.holds + heldBy r.pieces

/-- The object waits for read-ahead, or does so but for its timer. -/
def Parked (r : ColdAttempt) : Prop := r.code = .arming ∨ r.code = .parked

/-- Nobody has taken over from the object: the counter is right, `finish` is posted once nothing is
out, and one that is parked will be woken. -/
structure Live (r : ColdAttempt) : Prop where
  count : r.outstanding = r.holds
  finish : r.finishes.length = if r.holds = 0 then 1 else 0
  fresh : r.code.early = true → r.pieces = [] ∧ r.fired = false
  parked : r.Parked → r.pieces = [] ∧ r.fired = false ∧ 0 < r.armed ∧ r.mayPark = true
  awake : ¬ r.Parked → r.armed = 0

/-- The object has answered, or another has taken over. -/
structure Over (r : ColdAttempt) : Prop where
  pieces : r.pieces = []
  finishes : r.finishes = []
  code : r.code = .returned ∧ r.armed = 0 ∨ r.Parked ∧ r.fired = true

/-- How many objects may still come after this one. -/
def spare (r : ColdAttempt) : Nat := 2 - r.attempt + if r.mayPark then 1 else 0

/-! ### One step of an object -/

variable {r r' : ColdAttempt} {e : AttemptEffect}

namespace Live

/-- Nothing posted `finish` while something is out. -/
theorem finishes_nil (h : Live r) (hpos : r.holds ≠ 0) : r.finishes = [] := by
  have := h.finish
  rw [if_neg hpos] at this
  exact List.length_eq_zero_iff.1 this

/-- The object goes on with something out, and is not parked. -/
theorem goes (h : Live r) (hawake : ¬ r.Parked) (hpos : r.holds ≠ 0)
    (hcount : r'.outstanding = r'.holds) (hpos' : r'.holds ≠ 0)
    (hfinishes : r'.finishes = r.finishes) (harmed : r'.armed = r.armed) (hawake' : ¬ r'.Parked)
    (hfresh : r'.code.early = true → r'.pieces = [] ∧ r'.fired = false) : Live r' where
  count := hcount
  fresh := hfresh
  finish := by rw [hfinishes, h.finishes_nil hpos, if_neg hpos', List.length_nil]
  parked hp := absurd hp hawake'
  awake _ := harmed.trans (h.awake hawake)

/-- A hold is let go. -/
theorem done (hcount : r.outstanding = r.holds + 1) (hfinishes : r.finishes = [])
    (hawake : ¬ r.Parked) (harmed : r.armed = 0) (hlate : r.code.early = false) :
    Live r.done where
  count := by
    show r.outstanding - 1 = r.holds
    omega
  finish := by
    have hlen : r.done.finishes.length = if r.outstanding = 1 then 1 else 0 := by
      unfold ColdAttempt.done
      rw [hfinishes]
      split <;> rfl
    rw [hlen]
    show _ = if r.holds = 0 then 1 else 0
    by_cases hzero : r.holds = 0
    · rw [if_pos (by omega), if_pos hzero]
    · rw [if_neg (by omega), if_neg hzero]
  fresh he := by
    rw [show r.done.code = r.code from rfl, hlate] at he
    cases he
  parked hp := absurd hp hawake
  awake _ := harmed

end Live

theorem not_parked (h : r.code.running = true) : ¬ r.Parked := by
  rintro (hc | hc)
  · rw [hc] at h
    cases h
  · rw [hc] at h
    cases h

/-- The code goes from one place to the next. -/
theorem Live.serves (h : Live r) {code : ServeCode} (hcode : r.code = code)
    (hrun : code.running = true) (hrun' : r'.code.running = true)
    (hcount : r'.outstanding = r'.holds) (hfinishes : r'.finishes = r.finishes)
    (harmed : r'.armed = r.armed)
    (hfresh : r'.code.early = true → r'.pieces = [] ∧ r'.fired = false) : Live r' := by
  subst hcode
  have hpos : ∀ {q : ColdAttempt}, q.code.running = true → q.holds ≠ 0 := by
    intro q hq
    have hcode := ServeCode.holds_pos hq
    have hpieces := heldBy_nonneg q.pieces
    unfold holds
    omega
  exact h.goes (not_parked hrun) (hpos hrun) hcount (hpos hrun') hfinishes harmed
    (not_parked hrun') hfresh

/-- A turn of `classify` moves on in the chunk and touches nothing that is counted. -/
theorem classifyTurn_spec (cx : ColdCx) (r : ColdAttempt) (c k : Nat) (ch : Chunk)
    (a : ServeAnswer) :
    ((r.classifyTurn cx c k ch a).2 = .none ∨ (r.classifyTurn cx c k ch a).2 = .writes) ∧
      ∃ k' orig slots need, (r.classifyTurn cx c k ch a).1 =
        { r with code := .classify c k', origPieces := orig, slotPieces := slots, need := need } := by
  unfold classifyTurn
  split
  · exact ⟨.inr rfl, _, _, _, _, rfl⟩
  · exact ⟨.inr rfl, _, _, _, _, rfl⟩
  · exact ⟨.inl rfl, _, _, _, _, rfl⟩

/-- The code goes on past the point where something may be out. -/
theorem Live.moves (h : Live r) {code : ServeCode} (hcode : r.code = code)
    (hrun : code.running = true) (hrun' : r'.code.running = true)
    (hlate : r'.code.early = false) (hcount : r'.outstanding = r'.code.holds + heldBy r'.pieces)
    (hfinishes : r'.finishes = r.finishes) (harmed : r'.armed = r.armed) : Live r' := by
  apply h.serves hcode hrun hrun' hcount hfinishes harmed
  intro he
  rw [hlate] at he
  cases he

/-- The code lets go of a hold. -/
theorem Live.lets (h : Live r) {code code' : ServeCode} (hcode : r.code = code)
    (hrun : code.running = true) (hlate : code'.early = false)
    (hawake : code' ≠ .arming ∧ code' ≠ .parked)
    (hcount : r.outstanding = code'.holds + heldBy r.pieces + 1) :
    Live { r with code := code' }.done := by
  subst hcode
  have hpos := ServeCode.holds_pos hrun
  have hpieces := heldBy_nonneg r.pieces
  have hnil : r.finishes = [] := by
    apply h.finishes_nil
    unfold holds
    omega
  refine Live.done hcount hnil ?_ (h.awake (not_parked hrun)) hlate
  rintro (hc | hc)
  · exact hawake.1 hc
  · exact hawake.2 hc

/-- `waitForInFlight` has taken the object, or its timer is set. -/
theorem Live.parks (h : Live r) {code : ServeCode} (hcode : code = .arming ∨ code = .parked)
    (hcount : r.outstanding = 1) (hpieces : r.pieces = []) (hfired : r.fired = false)
    (hmay : r.mayPark = true) : Live { r with code := code, armed := r.armed + 1 } := by
  have hone : code.holds = 1 := by
    rcases hcode with rfl | rfl
    · rfl
    · rfl
  have hholds : r.holds ≠ 0 := by
    rw [← h.count, hcount]
    decide
  exact
    { count := by simp [holds, hone, hpieces, hcount]
      finish := by simp [h.finishes_nil hholds, holds, hone, hpieces]
      fresh := fun he => by rcases hcode with rfl | rfl <;> cases he
      parked := fun _ => ⟨hpieces, hfired, Nat.succ_pos _, hmay⟩
      awake := fun hawake => absurd hcode hawake }

/-- A step of `serveRequest`: it copies at most, and the object stays. -/
theorem Live.serveTurn {cx : ColdCx} {chunks : List Chunk} {a : ServeAnswer} (h : Live r)
    (hstep : r.serveTurn cx chunks a = some (r', e)) :
    (e = .none ∨ e = .writes) ∧ Live r' := by
  have hcount : r.outstanding = r.code.holds + heldBy r.pieces := h.count
  have hfresh := h.fresh
  unfold ColdAttempt.serveTurn at hstep
  cases hcode : r.code with
  | classify c k =>
      rw [hcode] at hcount hfresh
      simp only [hcode] at hstep
      split at hstep
      · cases hstep
        exact ⟨.inl rfl, h.serves hcode rfl rfl hcount rfl rfl hfresh⟩
      · rename_i ch hch
        split at hstep
        · cases hstep
          exact ⟨.inl rfl, h.serves hcode rfl rfl hcount rfl rfl hfresh⟩
        · obtain ⟨heff, k', orig, slots, need, heq⟩ := classifyTurn_spec cx r c k ch a
          rw [Option.some.injEq] at hstep
          rw [hstep] at heff heq
          obtain rfl : r' = _ := heq
          exact ⟨heff, h.serves hcode rfl rfl hcount rfl rfl hfresh⟩
  | park =>
      rw [hcode] at hcount hfresh
      simp only [hcode] at hstep
      obtain ⟨hpieces, hfired⟩ := hfresh rfl
      split at hstep
      · rename_i hpark
        cases hstep
        simp only [Bool.and_eq_true] at hpark
        rw [hpieces] at hcount
        exact ⟨.inl rfl, h.parks (.inl rfl) hcount hpieces hfired hpark.1.1⟩
      · cases hstep
        exact ⟨.inl rfl, h.moves hcode rfl rfl rfl hcount rfl rfl⟩
  | arming =>
      simp only [hcode] at hstep
      cases hstep
      obtain ⟨hpieces, hfired, -, hmay⟩ := h.parked (.inl hcode)
      rw [hcode, hpieces] at hcount
      exact ⟨.inl rfl, h.parks (.inr rfl) hcount hpieces hfired hmay⟩
  | parked =>
      simp only [hcode] at hstep
      cases hstep
  | claim todo =>
      rw [hcode] at hcount
      simp only [ServeCode.holds] at hcount
      cases todo with
      | nil =>
          simp only [hcode] at hstep
          cases hstep
          exact ⟨.inl rfl, h.moves hcode rfl rfl rfl hcount rfl rfl⟩
      | cons i todo =>
          simp only [hcode] at hstep
          cases hstep
          refine ⟨.inl rfl, h.moves hcode rfl rfl rfl ?_ rfl rfl⟩
          simp only [ServeCode.holds]
          omega
  | claiming i todo =>
      rw [hcode] at hcount
      simp only [hcode] at hstep
      split at hstep
      · cases hstep
        exact ⟨.inl rfl, h.moves hcode rfl rfl rfl hcount rfl rfl⟩
      · cases hstep
        exact ⟨.inl rfl, h.moves hcode rfl rfl rfl hcount rfl rfl⟩
      · cases hstep
        refine ⟨.inl rfl, h.moves hcode rfl rfl rfl ?_ rfl rfl⟩
        simp only [ServeCode.holds, OutPiece.holds, heldBy_append, heldBy_cons, heldBy_nil] at hcount ⊢
        omega
  | uncount todo =>
      rw [hcode] at hcount
      simp only [hcode] at hstep
      cases hstep
      refine ⟨.inl rfl, h.moves hcode rfl rfl rfl ?_ rfl rfl⟩
      simp only [ServeCode.holds] at hcount ⊢
      omega
  | fetch todo items =>
      rw [hcode] at hcount
      cases todo with
      | nil =>
          simp only [hcode] at hstep
          cases hstep
          exact ⟨.inl rfl, h.moves hcode rfl rfl rfl hcount rfl rfl⟩
      | cons i todo =>
          simp only [hcode] at hstep
          split at hstep
          · cases hstep
            refine ⟨.inl rfl, h.moves hcode rfl rfl rfl ?_ rfl rfl⟩
            simp only [ServeCode.holds] at hcount ⊢
            omega
          · cases hstep
            exact ⟨.inl rfl, h.moves hcode rfl rfl rfl hcount rfl rfl⟩
  | posting i todo items =>
      rw [hcode] at hcount
      simp only [hcode] at hstep
      cases hstep
      refine ⟨.inl rfl, h.moves hcode rfl rfl rfl ?_ rfl rfl⟩
      simp only [ServeCode.holds, OutPiece.holds, heldBy_append, heldBy_cons, heldBy_nil] at hcount ⊢
      omega
  | issue parts =>
      rw [hcode] at hcount
      simp only [ServeCode.holds] at hcount
      cases parts with
      | nil =>
          simp only [hcode] at hstep
          cases hstep
          refine ⟨.inl rfl, h.lets hcode rfl rfl ⟨nofun, nofun⟩ ?_⟩
          simp only [ServeCode.holds]
          omega
      | cons p ps =>
          simp only [hcode] at hstep
          cases hstep
          refine ⟨.inl rfl, h.moves hcode rfl rfl rfl ?_ rfl rfl⟩
          simp only [ServeCode.holds]
          omega
  | sending p ps =>
      rw [hcode] at hcount
      simp only [hcode] at hstep
      split at hstep
      · cases hstep
        refine ⟨.inl rfl, h.moves hcode rfl rfl rfl ?_ rfl rfl⟩
        simp only [ServeCode.holds, OutPiece.holds, heldBy_append, heldBy_cons, heldBy_nil] at hcount ⊢
        omega
      · cases hstep
        exact ⟨.inl rfl, h.moves hcode rfl rfl rfl hcount rfl rfl⟩
  | refused ps =>
      rw [hcode] at hcount
      simp only [hcode] at hstep
      cases hstep
      refine ⟨.inl rfl, h.lets hcode rfl rfl ⟨nofun, nofun⟩ ?_⟩
      simp only [ServeCode.holds] at hcount ⊢
      omega
  | returned =>
      simp only [hcode] at hstep
      cases hstep

/-- What a request with something out is not: parked, or before its claims. -/
theorem Live.out (h : Live r) (hout : r.pieces ≠ []) :
    ¬ r.Parked ∧ r.code.early = false ∧ r.holds ≠ 0 := by
  refine ⟨fun hp => hout (h.parked hp).1, ?_, ?_⟩
  · cases he : r.code.early with
    | false => rfl
    | true => exact absurd (h.fresh he).1 hout
  · intro hzero
    have hcode := r.code.holds_nonneg
    have hpieces := heldBy_nonneg r.pieces
    unfold holds at hzero
    exact hout (heldBy_eq_zero (by omega))

/-- A piece goes on; the counter goes with what is out. -/
theorem Live.piece (h : Live r) (hout : r.pieces ≠ []) (hcode : r'.code = r.code)
    (hcount : r'.outstanding = r.code.holds + heldBy r'.pieces) (hout' : 0 < heldBy r'.pieces)
    (hfinishes : r'.finishes = r.finishes) (harmed : r'.armed = r.armed) : Live r' := by
  obtain ⟨hawake, hlate, hpos⟩ := h.out hout
  have hcode₀ := r.code.holds_nonneg
  refine h.goes hawake hpos ?_ ?_ hfinishes harmed ?_ ?_
  · unfold holds
    rw [hcode]
    exact hcount
  · unfold holds
    rw [hcode]
    omega
  · unfold Parked
    rw [hcode]
    exact hawake
  · rw [hcode, hlate]
    nofun

/-- A step of something that is out: it copies at most, and the object stays. -/
theorem Live.pieceTurn {j : Nat} {ok : Bool} (h : Live r)
    (hstep : r.pieceTurn j ok = some (r', e)) : (e = .none ∨ e = .writes) ∧ Live r' := by
  have hcount : r.outstanding = r.code.holds + heldBy r.pieces := h.count
  unfold ColdAttempt.pieceTurn at hstep
  cases hp : r.pieces[j]? with
  | none =>
      simp only [hp] at hstep
      cases hstep
  | some p =>
      have hout : r.pieces ≠ [] := by
        rintro hnil
        simp [hnil] at hp
      have hset := heldBy_set hp
      have hrest : 0 ≤ heldBy r.pieces - p.holds := by
        rw [← heldBy_eraseIdx hp]
        exact heldBy_nonneg _
      -- the piece becomes another that holds as much
      have hswap : ∀ (q : OutPiece) {r' : ColdAttempt}, q.holds = p.holds →
          r'.pieces = r.pieces.set j q → r'.code = r.code → r'.outstanding = r.outstanding →
          r'.finishes = r.finishes → r'.armed = r.armed → Live r' := by
        intro q r' hq hpieces hcode hsame hfinishes harmed
        have hpos := q.holds_pos
        refine h.piece hout hcode ?_ ?_ hfinishes harmed
        · rw [hpieces, hset q]
          omega
        · rw [hpieces, hset q]
          omega
      cases p with
      | waiter i =>
          simp only [hp] at hstep
          cases hstep
          exact ⟨.inl rfl, hswap .finished rfl rfl rfl rfl rfl rfl⟩
      | part items =>
          simp only [hp] at hstep
          split at hstep
          · cases hstep
            exact ⟨.inl rfl, hswap (.delivering items) rfl rfl rfl rfl rfl rfl⟩
          · cases hstep
            exact ⟨.inl rfl, hswap .finished rfl rfl rfl rfl rfl rfl⟩
      | delivering items =>
          cases items with
          | nil =>
              simp only [hp] at hstep
              cases hstep
              exact ⟨.inl rfl, hswap .finished rfl rfl rfl rfl rfl rfl⟩
          | cons it items =>
              simp only [hp] at hstep
              split at hstep
              · cases hstep
                exact ⟨.inl rfl, hswap (.delivering items) rfl rfl rfl rfl rfl rfl⟩
              · split at hstep
                · cases hstep
                  have hcounted := hset (.counted it.index items)
                  simp only [OutPiece.holds] at hcounted hrest
                  refine ⟨.inl rfl, h.piece hout rfl ?_ ?_ rfl rfl⟩
                  · show r.outstanding + 1 = _ + heldBy (r.pieces.set j _)
                    omega
                  · show 0 < heldBy (r.pieces.set j _)
                    omega
                · cases hstep
                  exact ⟨.inr rfl, hswap (.delivering items) rfl rfl rfl rfl rfl rfl⟩
      | counted i items =>
          simp only [hp] at hstep
          cases hstep
          have hposted := hset (.delivering items)
          simp only [OutPiece.holds] at hposted hrest
          refine ⟨.inl rfl, h.piece hout rfl ?_ ?_ rfl rfl⟩
          · simp only [heldBy_append, heldBy_cons, heldBy_nil, OutPiece.holds]
            omega
          · simp only [heldBy_append, heldBy_cons, heldBy_nil, OutPiece.holds]
            omega
      | conversion i =>
          simp only [hp] at hstep
          split at hstep
          · cases hstep
            exact ⟨.inl rfl, hswap .finished rfl rfl rfl rfl rfl rfl⟩
          · cases hstep
            exact ⟨.inl rfl, hswap .finished rfl rfl rfl rfl rfl rfl⟩
      | finished =>
          simp only [hp] at hstep
          cases hstep
          obtain ⟨hawake, hlate, hpos⟩ := h.out hout
          have herase := heldBy_eraseIdx hp
          simp only [OutPiece.holds] at herase
          refine ⟨.inl rfl, Live.done ?_ (h.finishes_nil hpos) hawake (h.awake hawake) hlate⟩
          show r.outstanding = r.code.holds + heldBy (r.pieces.eraseIdx j) + 1
          omega

/-- The object is handed on: it has answered, or the same chunks are served again. -/
def Handed (r : ColdAttempt) (e : AttemptEffect) : Prop :=
  (∃ ok, e = .answers ok) ∨ ∃ n, e = .again n ∧ n ≤ 2 ∧ 2 - n < r.spare

theorem lose_handed (hattempt : r.attempt ≤ 2) (j : Nat) : Handed r (r.lose j).2 := by
  unfold lose
  simp only
  split
  · refine .inr ⟨r.attempt + 1, rfl, by omega, ?_⟩
    unfold spare
    split <;> omega
  · exact .inl ⟨false, rfl⟩

/-- A step of a `finish`: it is over when it answers or starts again, and else the object stays. -/
theorem Live.finishTurn {j : Nat} {ok : Bool} (h : Live r) (hattempt : r.attempt ≤ 2)
    (hstep : r.finishTurn j ok = some (r', e)) :
    (e = .none ∨ e = .writes) ∧ Live r' ∨ Handed r e ∧ Over r' := by
  unfold ColdAttempt.finishTurn at hstep
  cases hf : r.finishes[j]? with
  | none =>
      simp only [hf] at hstep
      cases hstep
  | some f =>
      -- a `finish` was posted, so nothing is out
      have hlen := h.finish
      have hnonempty : r.finishes.length ≠ 0 := by
        intro hzero
        simp [List.length_eq_zero_iff.1 hzero] at hf
      have hzero : r.holds = 0 := by
        by_contra hne
        rw [if_neg hne] at hlen
        exact hnonempty hlen
      rw [if_pos hzero] at hlen
      have hcode := r.code.holds_nonneg
      have hpieces := heldBy_nonneg r.pieces
      unfold holds at hzero
      have hnil : r.pieces = [] := heldBy_eq_zero (by omega)
      have hreturned : r.code = .returned := by
        have : r.code.holds = 0 := by omega
        cases hc : r.code <;> simp_all [ServeCode.holds]
      have hawake : ¬ r.Parked := by simp [Parked, hreturned]
      obtain ⟨f', hone⟩ := List.length_eq_one_iff.1 hlen
      obtain ⟨rfl, rfl⟩ : j = 0 ∧ f = f' := by
        rw [hone] at hf
        cases j with
        | zero => exact ⟨rfl, by simpa using hf.symm⟩
        | succ j => simp at hf
      have hstays : ∀ g, Live (r.setFinish 0 g) := by
        intro g
        exact
          { count := h.count
            finish := by
              have hlen : (r.setFinish 0 g).finishes.length = r.finishes.length := by
                simp [setFinish]
              rw [hlen]
              exact h.finish
            fresh := h.fresh
            parked := h.parked
            awake := h.awake }
      have hover : Over (r.finished 0) :=
        ⟨hnil, by simp [ColdAttempt.finished, hone], .inl ⟨hreturned, h.awake hawake⟩⟩
      cases f with
      | posted =>
          simp only [hf] at hstep
          split at hstep
          · cases hstep
            exact .inl ⟨.inl rfl, hstays _⟩
          · split at hstep
            · cases hstep
              exact .inr ⟨lose_handed hattempt 0, hover⟩
            · cases hstep
              exact .inl ⟨.inl rfl, hstays _⟩
      | giveBack todo =>
          cases todo with
          | nil =>
              simp only [hf] at hstep
              cases hstep
              exact .inr ⟨.inl ⟨_, rfl⟩, hover⟩
          | cons i todo =>
              simp only [hf] at hstep
              cases hstep
              exact .inl ⟨.inl rfl, hstays _⟩
      | copy todo =>
          cases todo with
          | nil =>
              simp only [hf] at hstep
              cases hstep
              exact .inr ⟨.inl ⟨_, rfl⟩, hover⟩
          | cons i todo =>
              simp only [hf] at hstep
              split at hstep
              · cases hstep
                exact .inl ⟨.inr rfl, hstays _⟩
              · cases hstep
                exact .inr ⟨lose_handed hattempt 0, hover⟩

/-- The first to wake a parked object starts it again. -/
theorem Live.wakeUp (h : Live r) (hattempt : r.attempt ≤ 2)
    (hstep : r.wakeUp = some (r', e)) : Handed r e ∧ Over r' := by
  unfold ColdAttempt.wakeUp at hstep
  split at hstep
  · cases hstep
  · rename_i harmed
    have hparked : r.Parked := by
      by_contra hawake
      exact harmed (h.awake hawake)
    obtain ⟨hpieces, hfired, -, hmay⟩ := h.parked hparked
    cases hstep
    have hpos : r.holds ≠ 0 := by
      rcases hparked with hc | hc <;> simp [holds, hc, ServeCode.holds, hpieces]
    refine ⟨.inr ⟨r.attempt, by simp [hfired], hattempt, ?_⟩, hpieces, h.finishes_nil hpos,
      .inr ⟨hparked, rfl⟩⟩
    simp [spare, hmay]

/-- An object that is over copies nothing, starts nothing and answers nothing. -/
theorem Over.step {cx : ColdCx} {chunks : List Chunk} {a : AttemptAct} (h : Over r)
    (hstep : r.step cx chunks a = some (r', e)) : e = .none ∧ Over r' := by
  cases a with
  | serve a =>
      simp only [ColdAttempt.step, ColdAttempt.serveTurn] at hstep
      rcases h.code with ⟨hc, -⟩ | ⟨hc | hc, hfired⟩
      · rw [hc] at hstep
        cases hstep
      · rw [hc] at hstep
        cases hstep
        exact ⟨rfl, h.pieces, h.finishes, .inr ⟨.inr rfl, hfired⟩⟩
      · rw [hc] at hstep
        cases hstep
  | piece j ok =>
      simp [ColdAttempt.step, ColdAttempt.pieceTurn, h.pieces] at hstep
  | finish j ok =>
      simp [ColdAttempt.step, ColdAttempt.finishTurn, h.finishes] at hstep
  | wakeUp =>
      simp only [ColdAttempt.step, ColdAttempt.wakeUp] at hstep
      split at hstep
      · cases hstep
      · rename_i harmed
        rcases h.code with ⟨-, hzero⟩ | ⟨hparked, hfired⟩
        · exact absurd hzero harmed
        · cases hstep
          exact ⟨by simp [hfired], h.pieces, h.finishes, .inr ⟨hparked, rfl⟩⟩

/-- The four kinds of step of an object that is live. -/
theorem Live.step {cx : ColdCx} {chunks : List Chunk} {a : AttemptAct} (h : Live r)
    (hattempt : r.attempt ≤ 2) (hstep : r.step cx chunks a = some (r', e)) :
    (e = .none ∨ e = .writes) ∧ Live r' ∨ Handed r e ∧ Over r' := by
  cases a with
  | serve a => exact .inl (h.serveTurn hstep)
  | piece j ok => exact .inl (h.pieceTurn hstep)
  | finish j ok => exact h.finishTurn hattempt hstep
  | wakeUp => exact .inr (h.wakeUp hattempt hstep)

/-- Which attempt it is, and whether it may park, is set when an object is made. -/
theorem step_attempt {cx : ColdCx} {chunks : List Chunk} {a : AttemptAct}
    (hstep : r.step cx chunks a = some (r', e)) :
    r'.attempt = r.attempt ∧ r'.mayPark = r.mayPark := by
  cases a with
  | serve a =>
      simp only [ColdAttempt.step, ColdAttempt.serveTurn] at hstep
      split at hstep
      case h_1 c k hcode =>
        split at hstep
        · cases hstep
          exact ⟨rfl, rfl⟩
        · rename_i ch hch
          split at hstep
          · cases hstep
            exact ⟨rfl, rfl⟩
          · obtain ⟨-, k', orig, slots, need, heq⟩ := classifyTurn_spec cx r c k ch a
            rw [Option.some.injEq] at hstep
            rw [hstep] at heq
            obtain rfl : r' = _ := heq
            exact ⟨rfl, rfl⟩
      all_goals (repeat' split at hstep) <;> cases hstep <;> exact ⟨rfl, rfl⟩
  | piece j ok =>
      simp only [ColdAttempt.step, ColdAttempt.pieceTurn] at hstep
      (repeat' split at hstep) <;> cases hstep <;> exact ⟨rfl, rfl⟩
  | finish j ok =>
      simp only [ColdAttempt.step, ColdAttempt.finishTurn] at hstep
      (repeat' split at hstep) <;> cases hstep <;> exact ⟨rfl, rfl⟩
  | wakeUp =>
      simp only [ColdAttempt.step, ColdAttempt.wakeUp] at hstep
      (repeat' split at hstep) <;> cases hstep <;> exact ⟨rfl, rfl⟩

end ColdAttempt

/-! ### Whole runs -/

namespace AnswerWorld

variable {w : AnswerWorld}

/-- All objects but the last are over, and so is the last once it has answered. -/
structure Inv (w : AnswerWorld) (past : List ColdAttempt) (last : ColdAttempt) : Prop where
  split : w.attempts = past ++ [last]
  ended : ∀ r ∈ past, r.Over
  answered : w.answers = [] ∧ last.Live ∨ w.answers.length = 1 ∧ last.Over
  few : past.length + 1 + last.spare ≤ 4
  attempts : ∀ r ∈ w.attempts, r.attempt ≤ 2

/-- An object just made. -/
theorem live_new (attempt : Nat) (mayPark : Bool) :
    ColdAttempt.Live { attempt := attempt, mayPark := mayPark } where
  count := rfl
  finish := rfl
  fresh _ := ⟨rfl, rfl⟩
  parked := by simp [ColdAttempt.Parked]
  awake _ := rfl

theorem init_inv : Inv {} [] {} where
  split := rfl
  ended := by simp
  answered := .inl ⟨rfl, live_new 0 true⟩
  few := by decide
  attempts := by simp

/-- A step of an object that is over changes nothing but that object. -/
theorem Inv.step_past {past : List ColdAttempt} {last r' : ColdAttempt} {k : Nat}
    (h : Inv w past last) (hk : k < past.length) (hover : r'.Over)
    (hattempts : ∀ q ∈ w.attempts.set k r', q.attempt ≤ 2) :
    Inv { w with attempts := w.attempts.set k r' } (past.set k r') last where
  split := by
    show w.attempts.set k r' = _
    rw [h.split, List.set_append_left k r' hk]
  ended q hq := by
    rcases List.mem_or_eq_of_mem_set hq with hq | rfl
    · exact h.ended q hq
    · exact hover
  answered := h.answered
  few := by
    rw [List.length_set]
    exact h.few
  attempts := hattempts

/-- The last object stays the last. -/
theorem Inv.step_last {past : List ColdAttempt} {last r' : ColdAttempt} (h : Inv w past last)
    (hspare : r'.spare = last.spare) (hattempts : ∀ q ∈ past ++ [r'], q.attempt ≤ 2) {writes : Nat}
    {answers : List Bool} (hanswered : answers = [] ∧ r'.Live ∨ answers.length = 1 ∧ r'.Over) :
    Inv { attempts := past ++ [r'], writes := writes, answers := answers } past r' where
  split := rfl
  ended := h.ended
  answered := hanswered
  few := by
    rw [hspare]
    exact h.few
  attempts := hattempts

theorem step_inv {cx : ColdCx} {chunks : List Chunk} {w' : AnswerWorld} {a : Nat × AttemptAct}
    (h : ∃ past last, Inv w past last) (hstep : w.step cx chunks a = some w') :
    ∃ past last, Inv w' past last := by
  obtain ⟨past, last, h⟩ := h
  obtain ⟨k, act⟩ := a
  obtain ⟨r, hr, hstep⟩ := Option.bind_eq_some_iff.1 hstep
  obtain ⟨⟨r', e⟩, hr', rfl⟩ := Option.map_eq_some_iff.1 hstep
  simp only at hr hr'
  have hmem : r ∈ w.attempts := List.mem_of_getElem? hr
  obtain ⟨hsame, hmay⟩ := ColdAttempt.step_attempt hr'
  have hattempts : ∀ q ∈ w.attempts.set k r', q.attempt ≤ 2 := by
    intro q hq
    rcases List.mem_or_eq_of_mem_set hq with hq | rfl
    · exact h.attempts q hq
    · rw [hsame]
      exact h.attempts r hmem
  by_cases hk : k < past.length
  · have hpast : r ∈ past := by
      rw [h.split, List.getElem?_append_left hk] at hr
      exact List.mem_of_getElem? hr
    obtain ⟨rfl, hover⟩ := (h.ended r hpast).step hr'
    exact ⟨_, _, h.step_past hk hover hattempts⟩
  · -- the step is one of the last object
    obtain ⟨rfl, rfl⟩ : k = past.length ∧ r = last := by
      rw [h.split, List.getElem?_append_right (by omega)] at hr
      have hidx : k - past.length = 0 := by
        by_contra hne
        rw [List.getElem?_eq_none (by simp; omega)] at hr
        cases hr
      rw [hidx] at hr
      exact ⟨by omega, by simpa using hr.symm⟩
    have hset : w.attempts.set past.length r' = past ++ [r'] := by
      rw [h.split, List.set_append_right _ _ (le_refl _)]
      simp
    have hspare : r'.spare = r.spare := by simp [ColdAttempt.spare, hsame, hmay]
    rw [hset] at hattempts
    simp only [hset]
    rcases h.answered with ⟨hnone, hlive⟩ | ⟨hone, hover⟩
    · rcases hlive.step (h.attempts r hmem) hr' with ⟨rfl | rfl, hlive'⟩ | ⟨hhanded, hover'⟩
      · exact ⟨past, r', h.step_last hspare hattempts (.inl ⟨hnone, hlive'⟩)⟩
      · exact ⟨past, r', h.step_last hspare hattempts (.inl ⟨hnone, hlive'⟩)⟩
      · rcases hhanded with ⟨ok, rfl⟩ | ⟨n, rfl, hn, hless⟩
        · refine ⟨past, r', h.step_last hspare hattempts (.inr ⟨?_, hover'⟩)⟩
          simp [hnone]
        · -- another object takes over
          refine ⟨past ++ [r'], { attempt := n, mayPark := false }, rfl, ?_, ?_, ?_, ?_⟩
          · intro q hq
            rcases List.mem_append.1 hq with hq | hq
            · exact h.ended q hq
            · obtain rfl : q = r' := by simpa using hq
              exact hover'
          · exact .inl ⟨hnone, live_new n false⟩
          · have hfew := h.few
            have hspareNew : ColdAttempt.spare { attempt := n, mayPark := false } = 2 - n := rfl
            rw [hspareNew, List.length_append, List.length_singleton]
            omega
          · intro q hq
            rcases List.mem_append.1 hq with hq | hq
            · exact hattempts q hq
            · obtain rfl : q = { attempt := n, mayPark := false } := by simpa using hq
              exact hn
    · obtain ⟨rfl, hover'⟩ := hover.step hr'
      exact ⟨past, r', h.step_last hspare hattempts (.inr ⟨hone, hover'⟩)⟩

/-- Once the user is answered, every object is over. -/
theorem Inv.all_over {past : List ColdAttempt} {last : ColdAttempt} (h : Inv w past last)
    (hanswered : w.answers ≠ []) : ∀ r ∈ w.attempts, r.Over := by
  have hlast : last.Over := by
    rcases h.answered with ⟨hnone, -⟩ | ⟨-, hover⟩
    · exact absurd hnone hanswered
    · exact hover
  intro r hr
  rw [h.split] at hr
  rcases List.mem_append.1 hr with hr | hr
  · exact h.ended r hr
  · obtain rfl : r = last := by simpa using hr
    exact hlast

end AnswerWorld

/-- Nothing of the object is left to run: nothing is out, no `finish` is posted, and its code has
returned and will not be woken. -/
def ColdAttempt.AtRest (r : ColdAttempt) : Prop :=
  r.pieces = [] ∧ r.finishes = [] ∧ (r.code = .returned ∨ r.code = .parked ∧ r.armed = 0)

/-- Nobody takes over from an object that is at rest, so it is not live. -/
theorem ColdAttempt.Live.not_atRest {r : ColdAttempt} (h : r.Live) : ¬ r.AtRest := by
  rintro ⟨hpieces, hfinishes, hcode | ⟨hcode, harmed⟩⟩
  · have hfinish := h.finish
    simp [hfinishes, holds, hcode, ServeCode.holds, hpieces] at hfinish
  · obtain ⟨-, -, hpos, -⟩ := h.parked (.inr hcode)
    omega

/-- A slot request answers its user exactly once.  In every order of part completions and failures,
conversions, waiter callbacks, wake-ups beside the timer, and retries: the handler is called at most
once; when everything that was out has finished and no code is left to run it has been called; when
it has been called, no part, conversion or waiter of the request is out, and no step that follows
copies into the user's buffers; and the chunks are served at most four times, once parked and twice
again. -/
theorem slot_request_answers_once (cx : ColdCx) (chunks : List Chunk)
    {acts : List (Nat × AttemptAct)} {w : AnswerWorld}
    (hrun : exec (AnswerWorld.step cx chunks) {} acts = some w) :
    w.answers.length ≤ 1 ∧
    ((∀ r ∈ w.attempts, r.AtRest) → w.answers.length = 1) ∧
    (w.answers ≠ [] → (∀ r ∈ w.attempts, r.pieces = []) ∧
      ∀ a w', w.step cx chunks a = some w' → w'.writes = w.writes) ∧
    w.attempts.length ≤ 4 ∧ ∀ r ∈ w.attempts, r.attempt ≤ 2 := by
  obtain ⟨past, last, h⟩ := exec_invariant (fun w => ∃ past last, AnswerWorld.Inv w past last)
    (fun _ _ _ h hstep => AnswerWorld.step_inv h hstep) ⟨[], {}, AnswerWorld.init_inv⟩ hrun
  have hfew := h.few
  refine ⟨?_, ?_, ?_, ?_, h.attempts⟩
  · rcases h.answered with ⟨hnone, -⟩ | ⟨hone, -⟩
    · simp [hnone]
    · omega
  · intro hrest
    rcases h.answered with ⟨hnone, hlive⟩ | ⟨hone, -⟩
    · exact absurd (hrest last (by simp [h.split])) hlive.not_atRest
    · exact hone
  · intro hanswered
    have hover := h.all_over hanswered
    refine ⟨fun r hr => (hover r hr).pieces, ?_⟩
    intro a w' hstep
    obtain ⟨r, hr, hstep⟩ := Option.bind_eq_some_iff.1 hstep
    obtain ⟨⟨r', e⟩, hr', rfl⟩ := Option.map_eq_some_iff.1 hstep
    obtain ⟨rfl, -⟩ := (hover r (List.mem_of_getElem? hr)).step hr'
    rfl
  · rw [h.split, List.length_append, List.length_singleton]
    omega

/-- A file of one basket, and a read of the slot it has. -/
def oneSlotCx : ColdCx where
  D := ⟨fun _ _ => none, fun _ _ => none, fun _ _ => none, fun _ _ => none⟩
  hash _ := 0
  rnt := false
  L :=
    { originSize := 100
      virtualSize := 300
      metaSeek := 100
      slotsBegin := 200
      slots := [{ origSeek := 10, origLen := 50, vSeek := 200, vLen := 100 }] }
  pages := []
  codecs := []
  pageSize := 64

/-- The request parks, and read-ahead wakes it before its timer is set.  The basket is fetched, the
conversion fails after the part is done, and the timer fires last. -/
def parkedThenFailed : List (Nat × AttemptAct) :=
  [(0, .serve {}), (0, .serve {}), (0, .serve {}), (0, .serve { parks := true }), (0, .wakeUp),
    (0, .serve {}), (1, .serve {}), (1, .serve {}), (1, .serve {}), (1, .serve { parks := true }),
    (1, .serve {}), (1, .serve { claim := .claimed }), (1, .serve {}), (1, .serve {}),
    (1, .serve {}), (1, .serve {}), (1, .serve {}), (1, .serve {}), (1, .serve {}),
    (1, .piece 0 true), (1, .piece 0 true), (1, .piece 0 true), (1, .piece 0 true),
    (1, .piece 0 true), (1, .piece 0 false), (1, .piece 0 true), (1, .finish 0 true),
    (1, .finish 0 true), (1, .finish 0 true), (0, .wakeUp)]

/-- Two objects, one answer, and nothing left. -/
theorem parked_request_answers_once :
    ∃ w, exec (AnswerWorld.step oneSlotCx [⟨200, 50⟩]) {} parkedThenFailed = some w ∧
      w.attempts.length = 2 ∧ w.answers = [false] ∧ w.answers.length ≤ 1 ∧
      ∀ a w', w.step oneSlotCx [⟨200, 50⟩] a = some w' → w'.writes = w.writes := by
  have hmap : (exec (AnswerWorld.step oneSlotCx [⟨200, 50⟩]) {} parkedThenFailed).map
      (fun w => (w.attempts.length, w.answers)) = some (2, [false]) := by decide +kernel
  obtain ⟨w, hrun, hw⟩ := Option.map_eq_some_iff.1 hmap
  obtain ⟨hlen, hanswers⟩ := Prod.mk.injEq .. ▸ hw
  have honce := slot_request_answers_once oneSlotCx [⟨200, 50⟩] hrun
  refine ⟨w, hrun, hlen, hanswers, honce.1, ?_⟩
  exact (honce.2.2.1 (by simp [hanswers])).2

end UCache
