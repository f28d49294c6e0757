/-
Module: UCache.Lib.WordSets
Purpose: A set of numbers kept as the bits of an array of words: adding members, growing the array,
  and the walk that visits the members of each word from the lowest up.
Trusted boundary: none
Main exports: dropLowest, walkWord, walkWords
-/
import Mathlib.Data.List.GetD
import UCache.Lib.SortedLists

namespace UCache.Lib

universe u

variable {S : Type u} {w : Nat}

/-! ### The lowest bit of a word -/

/-- `x & (x - 1)`. -/
def dropLowest (x : BitVec w) : BitVec w := x &&& (x - 1#w)

/-- Above its lowest bit a number and the one before it are the same, and below it the number has
no bits. -/
theorem testBit_and_pred {x t : Nat} (hlow : ∀ j < t, x.testBit j = false)
    (hbit : x.testBit t = true) (i : Nat) :
    (x &&& (x - 1)).testBit i = (x.testBit i && decide (i ≠ t)) := by
  have hmod : x % 2 ^ t = 0 := by
    apply Nat.eq_of_testBit_eq
    intro j
    rw [Nat.testBit_mod_two_pow, Nat.zero_testBit]
    by_cases hj : j < t
    · rw [hlow j hj, Bool.and_false]
    · rw [decide_eq_false hj, Bool.false_and]
  have hodd : x / 2 ^ t % 2 = 1 := by
    rw [Nat.testBit_eq_decide_div_mod_eq] at hbit
    exact of_decide_eq_true hbit
  obtain ⟨q, hq⟩ : ∃ q, x / 2 ^ t = 2 * q + 1 := ⟨x / 2 ^ t / 2, by omega⟩
  have hpos : 0 < 2 ^ t := Nat.two_pow_pos t
  have hx : x = 2 ^ t * (2 * q + 1) := by
    rw [← hq]
    have := Nat.div_add_mod x (2 ^ t)
    omega
  have hpred : x - 1 = 2 ^ t * (2 * q) + (2 ^ t - 1) := by
    rw [hx, Nat.mul_add, Nat.mul_one]
    omega
  rw [Nat.testBit_and, hpred, Nat.testBit_two_pow_mul_add _ (by omega), hx, Nat.testBit_two_pow_mul]
  rcases Nat.lt_trichotomy i t with hlt | rfl | hgt
  · simp [Nat.not_le.2 hlt]
  · simp
  · obtain ⟨d, rfl⟩ : ∃ d, i = t + (d + 1) := ⟨i - t - 1, by omega⟩
    have hsub : t + (d + 1) - t = d + 1 := by omega
    rw [if_neg (by omega), hsub]
    simp [Nat.testBit_succ, Nat.mul_add_div]

theorem ctz_lt {x : BitVec w} (hx : x ≠ 0#w) : x.ctz.toNat < w := by
  have hlt := BitVec.ctz_lt_iff_ne_zero.2 hx
  rw [BitVec.lt_def, BitVec.natCast_eq_ofNat, BitVec.toNat_ofNat, Nat.mod_two_pow_self] at hlt
  exact hlt

theorem getLsbD_dropLowest {x : BitVec w} (hx : x ≠ 0#w) (i : Nat) :
    (dropLowest x).getLsbD i = (x.getLsbD i && decide (i ≠ x.ctz.toNat)) := by
  have hw : 0 < w := Nat.zero_lt_of_lt (ctz_lt hx)
  have hpos : x.toNat ≠ 0 := fun h => hx (BitVec.eq_of_toNat_eq (by simp [h]))
  have hone : (1#w).toNat = 1 := by
    rw [BitVec.toNat_ofNat]
    exact Nat.mod_eq_of_lt (Nat.one_lt_two_pow (by omega))
  have hpred : (x - 1#w).toNat = x.toNat - 1 := by
    rw [BitVec.toNat_sub_of_le (by rw [BitVec.le_def, hone]; omega), hone]
  have hlow : ∀ j < x.ctz.toNat, x.toNat.testBit j = false :=
    fun j hj => BitVec.getLsbD_false_of_lt_ctz hj
  have hbit : x.toNat.testBit x.ctz.toNat = true := BitVec.getLsbD_true_ctz_of_ne_zero hx
  have hand := testBit_and_pred hlow hbit i
  rw [← hpred, ← BitVec.toNat_and] at hand
  exact hand

/-! ### The walk -/

variable {bits : List (BitVec w)}

/-- `while (x) { body(base + ctz(x)); x &= x - 1; }`, for at most so many turns. -/
def walkWord (body : S → Nat → S) (base : Nat) : Nat → BitVec w → S → S
  | 0, _, s => s
  | turns + 1, x, s =>
      if x = 0#w then s
      else walkWord body base turns (dropLowest x) (body s (base + x.ctz.toNat))

/-- The walk over the first `n` words: as many turns for a word as it has bits. -/
def walkFirst (body : S → Nat → S) (bits : List (BitVec w)) (n : Nat) (s : S) : S :=
  (List.range n).foldl (fun s i => walkWord body (i * w) w (bits.getD i 0#w) s) s

/-- The walk over all the words. -/
def walkWords (body : S → Nat → S) (bits : List (BitVec w)) (s : S) : S :=
  walkFirst body bits bits.length s

theorem walkFirst_succ (body : S → Nat → S) (bits : List (BitVec w)) (n : Nat) (s : S) :
    walkFirst body bits (n + 1) s =
      walkWord body (n * w) w (bits.getD n 0#w) (walkFirst body bits n s) := by
  unfold walkFirst
  rw [List.range_succ, List.foldl_append]
  rfl

/-- Is number `b` in the set? -/
def hasBit (bits : List (BitVec w)) (b : Nat) : Bool := (bits.getD (b / w) 0#w).getLsbD (b % w)

/-- The numbers in the set, the least first. -/
def members (bits : List (BitVec w)) : List Nat :=
  (List.range (bits.length * w)).filter (hasBit bits)

/-- The turns of a word visit its bits from the lowest up: after those below `low` as many are left
as the word has places. -/
theorem walkWord_eq (body : S → Nat → S) (base : Nat) {turns low : Nat} {x : BitVec w} (s : S)
    (hlow : ∀ j < low, x.getLsbD j = false) (hturns : w - low ≤ turns) :
    walkWord body base turns x s =
      ((List.range' low (w - low)).filter x.getLsbD).foldl (fun s j => body s (base + j)) s := by
  induction turns generalizing low x s with
  | zero =>
      rw [Nat.le_zero.1 hturns]
      rfl
  | succ turns ih =>
      rw [walkWord]
      split
      · rename_i hzero
        subst hzero
        have hnone : (List.range' low (w - low)).filter (0#w).getLsbD = [] := by
          rw [List.filter_eq_nil_iff]
          intro j _
          simp
        rw [hnone, List.foldl_nil]
      · rename_i hx
        have hbit := BitVec.getLsbD_true_ctz_of_ne_zero hx
        have hlt := ctz_lt hx
        have hbelow : ∀ j < x.ctz.toNat, x.getLsbD j = false :=
          fun j hj => BitVec.getLsbD_false_of_lt_ctz hj
        generalize hct : x.ctz.toNat = t at *
        have hge : low ≤ t := by
          by_contra hcon
          rw [hlow t (by omega)] at hbit
          cases hbit
        have hdrop := fun i => hct ▸ getLsbD_dropLowest hx i
        -- The places are those below the lowest bit, the bit itself, and the ones above.
        have hsplit : List.range' low (w - low) =
            List.range' low (t - low) ++ t :: List.range' (t + 1) (w - (t + 1)) := by
          have hlen : w - low = (t - low) + ((w - (t + 1)) + 1) := by omega
          have hmid : low + (t - low) = t := by omega
          rw [hlen, ← List.range'_append_1, hmid, List.range'_succ]
        have hnone : (List.range' low (t - low)).filter x.getLsbD = [] := by
          rw [List.filter_eq_nil_iff]
          intro j hj
          rw [List.mem_range'_1] at hj
          simp [hbelow j (by omega)]
        have habove : (List.range' (t + 1) (w - (t + 1))).filter (dropLowest x).getLsbD =
            (List.range' (t + 1) (w - (t + 1))).filter x.getLsbD := by
          apply List.filter_congr
          intro j hj
          rw [List.mem_range'_1] at hj
          rw [hdrop, decide_eq_true (by omega : j ≠ t), Bool.and_true]
        have hnext : ∀ j < t + 1, (dropLowest x).getLsbD j = false := by
          intro j hj
          rw [hdrop]
          rcases Nat.lt_succ_iff_lt_or_eq.1 hj with hj | rfl
          · rw [hbelow j hj, Bool.false_and]
          · simp
        rw [ih _ hnext (by omega), habove, hsplit, List.filter_append, hnone, List.nil_append,
          List.filter_cons_of_pos hbit, List.foldl_cons]

/-- The members below the first `n` words' end. -/
theorem walkFirst_eq (body : S → Nat → S) (bits : List (BitVec w)) (n : Nat) (s : S) :
    walkFirst body bits n s =
      ((List.range (n * w)).filter (hasBit bits)).foldl body s := by
  induction n with
  | zero => simp [walkFirst]
  | succ n ih =>
      have hbits : ((List.range w).map (n * w + ·)).filter (hasBit bits) =
          ((List.range w).filter (bits.getD n 0#w).getLsbD).map (n * w + ·) := by
        rw [List.filter_map]
        congr 1
        apply List.filter_congr
        intro j hj
        have hlt := List.mem_range.1 hj
        have hdiv : (n * w + j) / w = n := by
          rw [Nat.mul_comm, Nat.mul_add_div (by omega), Nat.div_eq_of_lt hlt, Nat.add_zero]
        have hmod : (n * w + j) % w = j := by
          rw [Nat.mul_add_mod_of_lt hlt]
        simp only [Function.comp_apply, hasBit, hdiv, hmod]
      have hword := walkWord_eq body (n * w) (x := bits.getD n 0#w)
        (((List.range (n * w)).filter (hasBit bits)).foldl body s)
        (fun _ hj => absurd hj (Nat.not_lt_zero _)) (Nat.le_refl w)
      rw [Nat.sub_zero, ← List.range_eq_range'] at hword
      rw [walkFirst_succ, ih, hword, Nat.succ_mul, List.range_add, List.filter_append,
        List.foldl_append, hbits, List.foldl_map]

/-- The walk visits the members in their order. -/
theorem walkWords_eq (body : S → Nat → S) (bits : List (BitVec w)) (s : S) :
    walkWords body bits s = (members bits).foldl body s :=
  walkFirst_eq body bits bits.length s

theorem hasBit_of_le {b : Nat} (h : bits.length ≤ b / w) : hasBit bits b = false := by
  unfold hasBit
  rw [List.getD_eq_default _ _ h]
  simp

theorem mem_members {b : Nat} : b ∈ members bits ↔ hasBit bits b = true := by
  unfold members
  rw [List.mem_filter, List.mem_range]
  refine ⟨fun h => h.2, fun h => ⟨?_, h⟩⟩
  by_contra hge
  rcases Nat.eq_zero_or_pos w with rfl | hw
  · simp [hasBit] at h
  · rw [hasBit_of_le ((Nat.le_div_iff_mul_le hw).2 (Nat.not_lt.1 hge))] at h
    cases h

theorem members_ascending (bits : List (BitVec w)) : Ascending (members bits) :=
  List.pairwise_lt_range.filter _

/-! ### Adding members -/

/-- `bits[b / w] |= 1 << (b % w)`. -/
def setBit (bits : List (BitVec w)) (b : Nat) : List (BitVec w) :=
  bits.modify (b / w) (· ||| 1#w <<< (b % w))

/-- `if (bits.size() < n) bits.resize(n, 0)`. -/
def growTo (bits : List (BitVec w)) (n : Nat) : List (BitVec w) :=
  bits ++ List.replicate (n - bits.length) 0#w

@[simp] theorem length_setBit (bits : List (BitVec w)) (b : Nat) :
    (setBit bits b).length = bits.length := List.length_modify ..

@[simp] theorem length_growTo (bits : List (BitVec w)) (n : Nat) :
    (growTo bits n).length = max bits.length n := by
  unfold growTo
  rw [List.length_append, List.length_replicate]
  omega

@[simp] theorem hasBit_growTo (bits : List (BitVec w)) (n b : Nat) :
    hasBit (growTo bits n) b = hasBit bits b := by
  unfold hasBit growTo
  congr 1
  rcases Nat.lt_or_ge (b / w) bits.length with hlt | hge
  · rw [List.getD_append _ _ _ _ hlt]
  · rw [List.getD_append_right _ _ _ _ hge, List.getD_eq_default bits _ hge,
      List.getD_eq_getElem?_getD, List.getElem?_replicate]
    split <;> rfl

/-- A member is added, and no other number, where the array reaches that far. -/
theorem hasBit_setBit {b : Nat} (hb : b / w < bits.length) (hw : 0 < w) (c : Nat) :
    hasBit (setBit bits b) c = (decide (c = b) || hasBit bits c) := by
  unfold hasBit setBit
  rw [List.getD_eq_getElem?_getD, List.getElem?_modify]
  have hmod : b % w < w := Nat.mod_lt _ hw
  have hcmod : c % w < w := Nat.mod_lt _ hw
  by_cases hword : b / w = c / w
  · have hone : (1#w <<< (b % w)).getLsbD (c % w) = decide (c = b) := by
      rw [BitVec.getLsbD_shiftLeft, BitVec.getLsbD_one]
      have hb' := Nat.div_add_mod b w
      have hc' := Nat.div_add_mod c w
      rw [← hword] at hc'
      by_cases hcb : c = b
      · subst hcb
        simp [hcmod, hw]
      · have hne : c % w ≠ b % w := fun h => hcb (by omega)
        rw [decide_eq_false hcb]
        simp only [Bool.and_eq_false_iff, decide_eq_false_iff_not, Bool.not_eq_false',
          decide_eq_true_eq]
        omega
    rw [← hword, List.getElem?_eq_getElem hb, List.getD_eq_getElem?_getD,
      List.getElem?_eq_getElem hb]
    simp only [if_true, Option.map_eq_map, Option.map_some, Option.getD_some]
    rw [BitVec.getLsbD_or, hone, Bool.or_comm]
  · have hcb : c ≠ b := fun h => hword (by rw [h])
    simp only [if_neg hword]
    rw [decide_eq_false hcb, Bool.false_or, List.getD_eq_getElem?_getD]
    simp

/-- All the numbers of a list are added. -/
theorem hasBit_setBits {l : List Nat} (hw : 0 < w) (hl : ∀ b ∈ l, b / w < bits.length) (c : Nat) :
    hasBit (l.foldl setBit bits) c = (decide (c ∈ l) || hasBit bits c) := by
  induction l generalizing bits with
  | nil => simp
  | cons b l ih =>
      have hrest : ∀ b' ∈ l, b' / w < (setBit bits b).length :=
        fun b' hb' => by rw [length_setBit]; exact hl b' (List.mem_cons_of_mem _ hb')
      rw [List.foldl_cons, ih hrest, hasBit_setBit (hl b (List.mem_cons_self ..)) hw,
        ← Bool.or_assoc, ← Bool.decide_or]
      congr 2
      exact propext (by rw [List.mem_cons]; exact or_comm)

@[simp] theorem hasBit_nil (b : Nat) : hasBit ([] : List (BitVec w)) b = false := by
  unfold hasBit
  simp

end UCache.Lib
