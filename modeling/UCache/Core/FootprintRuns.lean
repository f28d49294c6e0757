/-
Module: UCache.Core.FootprintRuns
Purpose: A footprint shared by any number of threads: every call turn by turn under its lock, and
  what the answers of a run are, in whatever order the turns come.
Trusted boundary: none
Main exports: FootprintCall, FootprintCall.result, footprints_compare_reads
-/
import UCache.Core.ReadFootprint
import UCache.Lib.Locked

namespace UCache

open Lib

/-! ### The calls -/

/-- The calls of a footprint. -/
inductive FootprintCall where
  | note (off len : Nat)
  | empty
  | poison
  | poisoned
  | count (limitBytes : Nat)
  | buckets (limitBytes : Nat)
  | sigAndCount (limitBytes : Nat)
  | sig (limitBytes : Nat)
deriving DecidableEq

/-- What a call gives back; `both none` is a `sigAndCount` that says no. -/
inductive FootprintAnswer where
  | done
  | flag (b : Bool)
  | number (n : Nat)
  | list (buckets : List Nat)
  | text (sg : Bytes)
  | both (pair : Option (Bytes × Nat))
deriving DecidableEq

/-- A call that nothing interferes with. -/
def FootprintCall.result : FootprintCall → ReadFootprint → ReadFootprint × FootprintAnswer
  | .note off len, fp => (fp.note off len, .done)
  | .empty, fp => (fp, .flag fp.empty)
  | .poison, fp => (fp.poison, .done)
  | .poisoned, fp => (fp, .flag fp.poisoned)
  | .count limitBytes, fp => (fp, .number (fp.count limitBytes))
  | .buckets limitBytes, fp => (fp, .list (fp.buckets limitBytes))
  | .sigAndCount limitBytes, fp => (fp, .both (fp.sigAndCount limitBytes))
  | .sig limitBytes, fp => (fp, .text (fp.sig limitBytes))

/-! ### Their turns -/

/-- Where a call stands that holds the lock.  The walks are at word `i`; `sg` is the signature that
`sigAndCount` has when it counts, and `pair` says that it is `sigAndCount` which signs. -/
inductive FootprintPlace where
  | growing (first last : Nat)
  | setting (b last : Nat)
  | testing (i : Nat)
  | poisoning
  | counting (limitBytes i n : Nat) (sg : Option Bytes)
  | listing (limitBytes i : Nat) (out : List Nat)
  | signing (limitBytes i : Nat) (s : UInt64 × Bool) (pair : Bool)
  | leaving (a : FootprintAnswer)

namespace ReadFootprint

/-- The answer of a walk that has counted all the words. -/
def counted (n : Nat) : Option Bytes → FootprintAnswer
  | none => .number n
  | some sg => .both (some (sg, n))

/-- What a walk that has hashed all the words goes on to: only the pair is still to be counted. -/
def signed (limitBytes : Nat) (sg : Bytes) (pair : Bool) : FootprintPlace :=
  if pair then if sg = [] then .leaving (.both none) else .counting limitBytes 0 0 (some sg)
  else .leaving (.text sg)

/-- One turn under the lock: a word of a walk, a bucket that is set, or a statement. -/
def turn : ReadFootprint × FootprintPlace → ReadFootprint × FootprintPlace
  | (fp, .growing first last) =>
      ({ fp with bits := growTo fp.bits (last / 64 + 1) }, .setting first last)
  | (fp, .setting b last) =>
      if b ≤ last then ({ fp with bits := setBit fp.bits b }, .setting (b + 1) last)
      else (fp, .leaving .done)
  | (fp, .testing i) =>
      if i < fp.bits.length then
        if fp.bits.getD i 0#64 = 0#64 then (fp, .testing (i + 1)) else (fp, .leaving (.flag false))
      else (fp, .leaving (.flag true))
  | (fp, .poisoning) => (fp.poison, .leaving .done)
  | (fp, .counting limitBytes i n sg) =>
      if i < fp.bits.length then
        let w := fp.bits.getD i 0#64
        let n' := walkWord (countTurn (lastBucket limitBytes)) (i * 64) 64 w n
        (fp, .counting limitBytes (i + 1) n' sg)
      else (fp, .leaving (counted n sg))
  | (fp, .listing limitBytes i out) =>
      if i < fp.bits.length then
        let w := fp.bits.getD i 0#64
        let out' := walkWord (listTurn (lastBucket limitBytes)) (i * 64) 64 w out
        (fp, .listing limitBytes (i + 1) out')
      else (fp, .leaving (.list out))
  | (fp, .signing limitBytes i s pair) =>
      if i < fp.bits.length then
        let w := fp.bits.getD i 0#64
        let s' := walkWord (signTurn (lastBucket limitBytes)) (i * 64) 64 w s
        (fp, .signing limitBytes (i + 1) s' pair)
      else (fp, signed limitBytes (signText s) pair)
  | (fp, .leaving a) => (fp, .leaving a)

/-- What a call does first, once it has the lock. -/
def enter : FootprintCall → ReadFootprint → FootprintPlace
  | .note off len, _ =>
      match notedBuckets off len with
      | some (first, last) => .growing first last
      | none => .leaving .done
  | .empty, _ => .testing 0
  | .poison, _ => .poisoning
  | .poisoned, fp => .leaving (.flag fp.poisoned)
  | .count limitBytes, fp =>
      if fp.poisoned then .leaving (.number 0) else .counting limitBytes 0 0 none
  | .buckets limitBytes, _ => .listing limitBytes 0 []
  | .sigAndCount limitBytes, fp =>
      if fp.poisoned then .leaving (.both none)
      else .signing limitBytes 0 (sigBasis, false) true
  | .sig limitBytes, fp =>
      if fp.poisoned then .leaving (.text [])
      else .signing limitBytes 0 (sigBasis, false) false

/-- [SRC ReadFootprint.cc:7-139] A footprint and its lock.  A range that is not noted is refused
before the lock is asked for. -/
def shared : Locked ReadFootprint FootprintCall FootprintAnswer FootprintPlace where
  refused
    | .note off len => if notedBuckets off len = none then some .done else none
    | _ => none
  enter := enter
  turn := turn
  leave
    | .leaving a => some a
    | _ => none

/-! ### Every section does what its call means -/

variable {fp : ReadFootprint}

theorem finishes_leaving (a : FootprintAnswer) :
    shared.Finishes (fp, .leaving a) (fp, a) := .leave rfl

theorem finishes_counting (limitBytes : Nat) (sg : Option Bytes) :
    shared.Finishes (fp, .counting limitBytes 0 0 sg)
      (fp, counted (fp.countLocked limitBytes) sg) := by
  refine Locked.Finishes.loop (G := shared) (P := fun i => (fp, FootprintPlace.counting limitBytes i
    (walkFirst (countTurn (lastBucket limitBytes)) fp.bits i 0) sg)) (n := fp.bits.length) ?_ ?_
  · intro i hi
    refine ⟨rfl, ?_⟩
    rw [walkFirst_succ]
    exact if_pos hi
  · exact .turn_to rfl (if_neg (Nat.lt_irrefl _)) (finishes_leaving _)

theorem finishes_listing (limitBytes : Nat) :
    shared.Finishes (fp, .listing limitBytes 0 []) (fp, .list (fp.buckets limitBytes)) := by
  refine Locked.Finishes.loop (G := shared) (P := fun i => (fp, FootprintPlace.listing limitBytes i
    (walkFirst (listTurn (lastBucket limitBytes)) fp.bits i []))) (n := fp.bits.length) ?_ ?_
  · intro i hi
    refine ⟨rfl, ?_⟩
    rw [walkFirst_succ]
    exact if_pos hi
  · exact .turn_to rfl (if_neg (Nat.lt_irrefl _)) (finishes_leaving _)

theorem finishes_signing (limitBytes : Nat) (pair : Bool) {a : FootprintAnswer}
    (hrest : shared.Finishes (fp, signed limitBytes (fp.sigLocked limitBytes) pair) (fp, a)) :
    shared.Finishes (fp, .signing limitBytes 0 (sigBasis, false) pair) (fp, a) := by
  refine Locked.Finishes.loop (G := shared) (P := fun i => (fp, FootprintPlace.signing limitBytes i
    (walkFirst (signTurn (lastBucket limitBytes)) fp.bits i (sigBasis, false)) pair))
    (n := fp.bits.length) ?_ ?_
  · intro i hi
    refine ⟨rfl, ?_⟩
    rw [walkFirst_succ]
    exact if_pos hi
  · exact .turn_to rfl (if_neg (Nat.lt_irrefl _)) hrest

theorem finishes_setting {first last : Nat} :
    shared.Finishes (fp, .setting first last)
      ({ fp with bits := (List.range' first (last + 1 - first)).foldl setBit fp.bits }, .done) := by
  refine Locked.Finishes.loop (G := shared) (P := fun i =>
    ({ fp with bits := (List.range' first i).foldl setBit fp.bits },
      FootprintPlace.setting (first + i) last)) (n := last + 1 - first) ?_ ?_
  · intro i hi
    refine ⟨rfl, ?_⟩
    rw [List.range'_concat, List.foldl_append, Nat.one_mul]
    exact if_pos (by omega)
  · exact .turn_to rfl (if_neg (by omega)) (finishes_leaving _)

/-- The words before `i` are all zero. -/
theorem finishes_testing {i : Nat} (hle : i ≤ fp.bits.length)
    (hzero : ∀ j < i, fp.bits.getD j 0#64 = 0#64) :
    shared.Finishes (fp, .testing i) (fp, .flag fp.empty) := by
  refine .turn rfl ?_
  change shared.Finishes (turn (fp, .testing i)) _
  by_cases hi : i < fp.bits.length
  · have hturn : turn (fp, .testing i) =
        if fp.bits.getD i 0#64 = 0#64 then (fp, .testing (i + 1))
        else (fp, .leaving (.flag false)) := if_pos hi
    rw [hturn]
    split
    · rename_i hword
      refine finishes_testing hi fun j hj => ?_
      rcases Nat.lt_succ_iff_lt_or_eq.1 hj with hj | rfl
      · exact hzero j hj
      · exact hword
    · rename_i hword
      have hsome : fp.empty = false := by
        unfold empty
        rw [List.all_eq_false]
        refine ⟨fp.bits[i], List.getElem_mem hi, ?_⟩
        rw [List.getD_eq_getElem _ _ hi] at hword
        simpa using hword
      exact hsome ▸ finishes_leaving _
  · have hturn : turn (fp, .testing i) = (fp, .leaving (.flag true)) := if_neg hi
    have hnone : fp.empty = true := by
      unfold empty
      rw [List.all_eq_true]
      intro w hw
      obtain ⟨j, hj, rfl⟩ := List.mem_iff_getElem.1 hw
      have hword := hzero j (by omega)
      rw [List.getD_eq_getElem _ _ hj] at hword
      exact decide_eq_true hword
    rw [hturn, hnone]
    exact finishes_leaving _
termination_by fp.bits.length - i

/-- Turn by turn under the lock, every call does what it means. -/
theorem shared_means : shared.Means FootprintCall.result where
  refused := by
    intro c a href fp
    cases c with
    | note off len =>
        change (if notedBuckets off len = none then some FootprintAnswer.done else none) =
          some a at href
        split at href
        · rename_i hnone
          cases href
          simp [FootprintCall.result, note, hnone]
        · cases href
    | _ => cases href
  finishes := by
    intro c href fp
    cases c with
    | note off len =>
        change (if notedBuckets off len = none then some FootprintAnswer.done else none) =
          none at href
        split at href
        · cases href
        · rename_i hsome
          obtain ⟨⟨first, last⟩, hbuckets⟩ := Option.ne_none_iff_exists'.1 hsome
          have henter : enter (.note off len) fp = .growing first last := by
            simp only [enter, hbuckets]
          have hnote : fp.note off len =
              { fp with
                bits := (List.range' first (last + 1 - first)).foldl setBit
                  (growTo fp.bits (last / 64 + 1)) } := by
            simp only [note, hbuckets]
          change shared.Finishes (fp, enter (.note off len) fp) (fp.note off len, .done)
          rw [henter, hnote]
          exact .turn_to rfl rfl finishes_setting
    | empty => exact finishes_testing (Nat.zero_le _) fun j hj => absurd hj (Nat.not_lt_zero j)
    | poison => exact .turn rfl (finishes_leaving _)
    | poisoned => exact finishes_leaving _
    | count limitBytes =>
        change shared.Finishes
          (fp, if fp.poisoned then .leaving (.number 0) else .counting limitBytes 0 0 none)
          (fp, .number (if fp.poisoned then 0 else fp.countLocked limitBytes))
        split
        · exact finishes_leaving _
        · exact finishes_counting limitBytes none
    | buckets limitBytes => exact finishes_listing limitBytes
    | sigAndCount limitBytes =>
        change shared.Finishes
          (fp, if fp.poisoned then .leaving (.both none)
            else .signing limitBytes 0 (sigBasis, false) true)
          (fp, .both (if fp.poisoned then none
            else if fp.sigLocked limitBytes = [] then none
            else some (fp.sigLocked limitBytes, fp.countLocked limitBytes)))
        split
        · exact finishes_leaving _
        · refine finishes_signing limitBytes true ?_
          simp only [signed, if_true]
          split
          · exact finishes_leaving _
          · exact finishes_counting limitBytes (some _)
    | sig limitBytes =>
        change shared.Finishes
          (fp, if fp.poisoned then .leaving (.text [])
            else .signing limitBytes 0 (sigBasis, false) false)
          (fp, .text (if fp.poisoned then [] else fp.sigLocked limitBytes))
        split
        · exact finishes_leaving _
        · exact finishes_signing limitBytes false (finishes_leaving _)

end ReadFootprint

/-! ### Runs -/

/-- A footprint that some call has poisoned stays so. -/
theorem result_poisoned {fp : ReadFootprint} (h : fp.poisoned = true) (c : FootprintCall) :
    (c.result fp).1.poisoned = true := by
  cases c with
  | note off len => exact (note_poisoned fp off len).trans h
  | poison => rfl
  | _ => exact h

theorem replay_poisoned {past : List (Locked.Entry FootprintCall FootprintAnswer)}
    (fp : ReadFootprint) (h : fp.poisoned = true ∨ ∃ e ∈ past, e.call = .poison) :
    (replay FootprintCall.result fp past).poisoned = true := by
  induction past generalizing fp with
  | nil =>
      rcases h with h | ⟨e, he, -⟩
      · exact h
      · cases he
  | cons e past ih =>
      refine ih _ ?_
      rcases h with h | ⟨e', he, hpoison⟩
      · exact .inl (result_poisoned h e.call)
      · rcases List.mem_cons.1 he with rfl | he
        · refine .inl ?_
          change (e'.call.result fp).1.poisoned = true
          rw [hpoison]
          rfl
        · exact .inr ⟨e', he, hpoison⟩

/-- What a footprint says of the ranges it has noted. -/
structure OrderFree (ns : List (Nat × Nat)) (limit : Nat) : Prop where
  /-- Other ranges, in any order and number, that touch the same buckets up to the limit. -/
  same : ∀ ms limit', EndsBelow ms →
    (∀ b, b ≤ lastBucket limit ∧ Touched ns b ↔ b ≤ lastBucket limit' ∧ Touched ms b) →
      SameAnswers (noteAll ns {}) (noteAll ms {}) limit limit'
  split : ∀ before after off a b, ns = before ++ (off, a + b) :: after →
    SameAnswers (noteAll ns {}) (noteAll (before ++ (off, a) :: (off + a, b) :: after) {})
      limit limit
  counted : (noteAll ns {}).count limit = ((noteAll ns {}).buckets limit).length
  listed : ∀ b, b ∈ (noteAll ns {}).buckets limit ↔ b ≤ lastBucket limit ∧ Touched ns b

/-- What the answers of a run are. -/
structure RunAnswers (acts : List (Locked.Act FootprintCall))
    (w : Locked.State ReadFootprint FootprintCall FootprintAnswer FootprintPlace) : Prop where
  /-- Behind a poison there is no signature. -/
  silent : ∀ past e rest, w.log = past ++ e :: rest → (∃ p ∈ past, p.call = .poison) →
    ∀ limit, (e.call = .sig limit → e.answer = .text []) ∧
      (e.call = .sigAndCount limit → e.answer = .both none)
  /-- A pair is the signature and the count of the footprint as it was at one moment, when the call
  had the lock. -/
  pair : ∀ e ∈ w.log, ∀ limit sg n, e.call = .sigAndCount limit →
    e.answer = .both (some (sg, n)) → ∃ past m, past <+: acts ∧
      exec ReadFootprint.shared.step { obj := {} } past = some m ∧ m.holder = some e.thread ∧
      sg = m.obj.sig limit ∧ n = m.obj.count limit
  /-- The answers are those of the calls made one after the other. -/
  ordered : ∀ past e rest, w.log = past ++ e :: rest →
    e.answer = (e.call.result (replay FootprintCall.result {} past)).2

theorem noteAll_orderFree {ns : List (Nat × Nat)} (hns : EndsBelow ns) (limit : Nat) :
    OrderFree ns limit where
  same := fun ms limit' hms h => noteAll_same hns hms h
  split := by
    rintro before after off a b rfl
    have hsame := touched_split before after off a b
    refine noteAll_same hns ?_ fun c => and_congr_right fun _ => hsame c
    intro r hr
    have hwhole := hns (off, a + b) (by simp)
    simp only [List.mem_append, List.mem_cons] at hr
    rcases hr with hr | rfl | rfl | hr
    · exact hns r (by simp [hr])
    · simp only at hwhole ⊢
      omega
    · simp only at hwhole ⊢
      omega
    · exact hns r (by simp [hr])
  counted := by
    rw [ReadFootprint.count, noteAll_poisoned, ReadFootprint.buckets_eq,
      ← ReadFootprint.countLocked_eq]
    rfl
  listed := by
    intro b
    rw [ReadFootprint.buckets_eq, ReadFootprint.mem_listed, hasBit_noteAll hns, hasBit_nil]
    simp

theorem sigAndCount_eq_some {fp : ReadFootprint} {limit n : Nat} {sg : Bytes}
    (h : fp.sigAndCount limit = some (sg, n)) : sg = fp.sig limit ∧ n = fp.count limit := by
  unfold ReadFootprint.sigAndCount at h
  unfold ReadFootprint.sig ReadFootprint.count
  split at h
  · cases h
  · rename_i hclean
    simp only at h
    split at h
    · cases h
    · cases h
      rw [if_neg hclean, if_neg hclean]
      exact ⟨rfl, rfl⟩

/-- [SRC ReadFootprint.cc:7-139] What is said of the ranges noted depends on the buckets they touch
up to the limit and on nothing else; and whatever any threads do with one footprint, no signature
follows a poison and every pair is of one moment. -/
theorem footprints_compare_reads :
    (∀ ns limit, EndsBelow ns → OrderFree ns limit) ∧
      ∀ acts w, exec ReadFootprint.shared.step { obj := {} } acts = some w → RunAnswers acts w := by
  refine ⟨fun ns limit hns => noteAll_orderFree hns limit, fun acts w hrun => ?_⟩
  have hordered := Locked.run_ordered ReadFootprint.shared_means hrun
  constructor
  · intro past e rest hlog hpoison limit
    have hanswer := hordered.answers past e rest hlog
    have hsilent := replay_poisoned {} (.inr hpoison)
    constructor
    · intro hcall
      rw [hanswer, hcall]
      simp [FootprintCall.result, ReadFootprint.sig, hsilent]
    · intro hcall
      rw [hanswer, hcall]
      simp [FootprintCall.result, ReadFootprint.sigAndCount, hsilent]
  · intro e he limit sg n hcall hanswer
    have href : ReadFootprint.shared.refused e.call = none := by
      rw [hcall]
      rfl
    obtain ⟨past, m, fp, hpast, hexec, hhold, hresult⟩ :=
      Locked.answered_inside ReadFootprint.shared_means hrun e he href
    rw [hcall, hanswer] at hresult
    obtain ⟨hobj, hpair⟩ := Prod.mk.inj hresult
    have hsome : m.obj.sigAndCount limit = some (sg, n) := by
      rw [hobj]
      exact (FootprintAnswer.both.inj hpair).symm
    exact ⟨past, m, hpast, hexec, hhold, sigAndCount_eq_some hsome⟩
  · exact hordered.answers

/-- A thread notes two buckets while another waits to ask for both, and a third then poisons. -/
def twoBucketsRun : List (Locked.Act FootprintCall) :=
  [.call 0 (.note 0 (2 ^ 21)), .turn 0, .call 1 (.sigAndCount 0), .turn 0, .turn 0, .turn 0,
    .turn 0, .turn 0, .turn 1, .call 2 .poison, .turn 1, .turn 1, .turn 1, .turn 1, .turn 1,
    .turn 2, .turn 2, .turn 2]

/-- A read over two buckets, and three calls taking the lock in turn. -/
theorem two_buckets_compared :
    OrderFree [(0, 2 ^ 21)] 0 ∧
      ∃ w, exec ReadFootprint.shared.step { obj := {} } twoBucketsRun = some w ∧
        w.log.map (fun e => e.thread) = [0, 1, 2] ∧ RunAnswers twoBucketsRun w := by
  have hlog : (exec ReadFootprint.shared.step { obj := {} } twoBucketsRun).map
      (fun w => w.log.map fun e => e.thread) = some [0, 1, 2] := by decide +kernel
  obtain ⟨w, hrun, hthreads⟩ := Option.map_eq_some_iff.1 hlog
  exact ⟨footprints_compare_reads.1 [(0, 2 ^ 21)] 0 (by simp [EndsBelow]), w, hrun, hthreads,
    footprints_compare_reads.2 _ w hrun⟩

end UCache
