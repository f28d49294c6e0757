/-
Module: UCache.Core.PageBits
Purpose: The presence bitmap and its running popcount: every operation keeps the count equal to
  the number of set bits, and the bytes the bits are kept in follow the bitmap as long as no index
  is out of range.
Trusted boundary: none
Main exports: PageBitmap.Counted, RawBitmap.get?, RawBitmap.set?
-/
import UCache.Core.SidecarCodec

namespace UCache

open Lib

/-! ### Counting over the pages -/

theorem countP_range_update {p : Nat → Bool} {n i : Nat} (hi : i < n) (hp : p i = false) :
    (List.range n).countP (Function.update p i true) = (List.range n).countP p + 1 := by
  induction n with
  | zero => exact absurd hi (Nat.not_lt_zero i)
  | succ n ih =>
      rw [List.range_succ, List.countP_append, List.countP_append, List.countP_singleton,
        List.countP_singleton]
      rcases Nat.lt_succ_iff_lt_or_eq.1 hi with hlt | rfl
      · rw [ih hlt, Function.update_of_ne (Nat.ne_of_gt hlt)]
        omega
      · -- Below the page itself nothing changes.
        have hsame : (List.range i).countP (Function.update p i true) = (List.range i).countP p := by
          apply List.countP_congr
          intro j hj
          rw [Function.update_of_ne (Nat.ne_of_lt (List.mem_range.1 hj))]
        rw [hsame, Function.update_self, hp]
        simp

namespace PageBitmap

/-- The running popcount of a bitmap of `n` pages is right, and nothing is set past them. -/
structure Counted (n : Nat) (b : PageBitmap) : Prop where
  npages : b.npages = n
  below : ∀ i, b.get i = true → i < n
  count : b.count = (List.range n).countP b.get

namespace Counted

variable {n i : Nat} {b : PageBitmap}

theorem reset (n : Nat) : Counted n (PageBitmap.reset n) := by
  refine ⟨rfl, by simp, ?_⟩
  change 0 = (List.range n).countP fun _ => false
  simp

theorem clearAll (h : Counted n b) : Counted n b.clearAll := by
  refine ⟨h.npages, by simp, ?_⟩
  change 0 = (List.range n).countP fun _ => false
  simp

theorem set (h : Counted n b) (hi : i < n) : Counted n (b.set i) := by
  by_cases hbit : b.get i = true
  · have hsame : b.set i = b := if_pos hbit
    rw [hsame]
    exact h
  · have hset : b.set i = { b with bit := Function.update b.bit i true, count := b.count + 1 } :=
      if_neg hbit
    refine ⟨by rw [hset]; exact h.npages, ?_, ?_⟩
    · intro j hj
      rw [get_set, Bool.or_eq_true, decide_eq_true_eq] at hj
      exact hj.elim (fun hji => hji ▸ hi) (h.below j)
    · rw [hset]
      change b.count + 1 = (List.range n).countP (Function.update b.get i true)
      rw [countP_range_update hi (Bool.eq_false_iff.2 hbit), h.count]

theorem clear (h : Counted n b) (hi : i < n) : Counted n (b.clear i) := by
  by_cases hbit : b.get i = true
  · have hclear : b.clear i =
        { b with bit := Function.update b.bit i false, count := b.count - 1 } := if_pos hbit
    refine ⟨by rw [hclear]; exact h.npages, ?_, ?_⟩
    · intro j hj
      rw [get_clear, Bool.and_eq_true] at hj
      exact h.below j hj.2
    · rw [hclear]
      change b.count - 1 = (List.range n).countP (Function.update b.bit i false)
      -- Setting the bit again gives back what was counted.
      have hback : Function.update (Function.update b.bit i false) i true = b.get := by
        rw [Function.update_idem]
        exact Function.update_eq_self_iff.2 hbit.symm
      have hcount := countP_range_update (p := Function.update b.bit i false) hi
        (Function.update_self ..)
      rw [hback, ← h.count] at hcount
      omega
  · have hsame : b.clear i = b := if_neg hbit
    rw [hsame]
    exact h

theorem recount (hn : b.npages = n) (hbelow : ∀ i, b.get i = true → i < n) :
    Counted n b.recount :=
  ⟨hn, hbelow, by rw [← hn]; rfl⟩

/-- A loop over the pages keeps the count. -/
theorem updateRange (h : Counted n b) (f : Nat → Option Bool) : Counted n (b.updateRange n f) := by
  unfold PageBitmap.updateRange
  refine List.foldlRecOn _ _ h fun b hb i hi => ?_
  have hi : i < n := List.mem_range.1 hi
  cases f i with
  | none => exact hb
  | some v =>
      cases v with
      | true => exact hb.set hi
      | false => exact hb.clear hi

/-- The count says whether every page is present. -/
theorem count_eq_iff (h : Counted n b) : b.count = n ↔ ∀ i < n, b.get i = true := by
  have hlen : (List.range n).countP b.get = (List.range n).length ↔
      ∀ i ∈ List.range n, b.get i = true := List.countP_eq_length
  rw [List.length_range, ← h.count] at hlen
  rw [hlen]
  exact forall_congr' fun i => by rw [List.mem_range]

/-- What a commit sets the complete flag by. -/
theorem full_iff (h : Counted n b) : (decide (n ≠ 0) && decide (b.count = n)) = true ↔
    0 < n ∧ ∀ i < n, b.get i = true := by
  rw [Bool.and_eq_true, decide_eq_true_eq, decide_eq_true_eq, h.count_eq_iff, Nat.pos_iff_ne_zero]

theorem recount_eq (h : Counted n b) : b.recount = b := by
  have hcount : (List.range b.npages).countP b.bit = b.count := by
    rw [h.count, h.npages]
    rfl
  unfold PageBitmap.recount
  rw [hcount]

theorem count_pos (h : Counted n b) (hi : b.get i = true) : 0 < b.count := by
  rw [h.count]
  exact List.countP_pos_iff.2 ⟨i, List.mem_range.2 (h.below i hi), hi⟩

theorem count_le (h : Counted n b) : b.count ≤ n := by
  rw [h.count]
  exact List.countP_le_length.trans_eq List.length_range

end Counted

end PageBitmap

/-! ### The bytes -/

namespace SidecarCodec.RawBitmap

/-- [SRC PageBitmap.h:32] `1u << (i & 7)`. -/
def mask (i : Nat) : UInt8 := UInt8.ofNat (2 ^ (i % 8))

/-- [SRC PageBitmap.h:29] Bit `i`; there is none past the pages, nor past the bytes. -/
def get? (b : RawBitmap) (i : Nat) : Option Bool :=
  if i < b.npages ∧ i / 8 < b.bits.length then some (PageBitmap.rawBit b.bits i) else none

/-- [SRC PageBitmap.h:31-37] -/
def set? (b : RawBitmap) (i : Nat) : Option RawBitmap :=
  (b.get? i).map fun present =>
    if present then b
    else
      { b with
        bits := b.bits.set (i / 8) (b.bits.getD (i / 8) 0 ||| mask i)
        count := b.count + 1 }

/-- [SRC PageBitmap.h:39-45] A count of zero is never counted down. -/
def clear? (b : RawBitmap) (i : Nat) : Option RawBitmap :=
  (b.get? i).bind fun present =>
    if present then
      if b.count = 0 then none
      else
        some { b with
          bits := b.bits.set (i / 8) (b.bits.getD (i / 8) 0 &&& ~~~mask i)
          count := b.count - 1 }
    else some b

/-- [SRC PageBitmap.h:47-50] -/
def clearAll (b : RawBitmap) : RawBitmap :=
  { b with bits := List.replicate b.bits.length 0, count := 0 }

/-- The bytes show the bitmap.  What the spare bits of the last byte are is left open. -/
structure Shows (raw : RawBitmap) (b : PageBitmap) : Prop where
  npages : raw.npages = b.npages
  size : raw.bits.length = (b.npages + 7) / 8
  bits : ∀ i < b.npages, PageBitmap.rawBit raw.bits i = b.get i
  count : raw.count = b.count

theorem toNat_mask (i : Nat) : (mask i).toNat = 2 ^ (i % 8) := by
  have hlt : 2 ^ (i % 8) < 2 ^ 8 := Nat.pow_lt_pow_right (by decide) (Nat.mod_lt i (by decide))
  rw [mask, UInt8.toNat_ofNat', Nat.mod_eq_of_lt hlt]

theorem testBit_or_mask (byte : UInt8) (i k : Nat) :
    (byte ||| mask i).toNat.testBit k = (decide (k = i % 8) || byte.toNat.testBit k) := by
  rw [UInt8.toNat_or, Nat.testBit_or, toNat_mask, Nat.testBit_two_pow, Bool.or_comm]
  simp only [eq_comm]

theorem testBit_and_not_mask (byte : UInt8) (i : Nat) {k : Nat} (hk : k < 8) :
    (byte &&& ~~~mask i).toNat.testBit k = (!decide (k = i % 8) && byte.toNat.testBit k) := by
  have hlt : 2 ^ (i % 8) < 2 ^ 8 := Nat.pow_lt_pow_right (by decide) (Nat.mod_lt i (by decide))
  have hnot : (~~~mask i).toNat = 2 ^ 8 - (2 ^ (i % 8) + 1) := by
    rw [UInt8.toNat_not, toNat_mask]
    simp only [UInt8.size]
    omega
  rw [UInt8.toNat_and, Nat.testBit_and, hnot, Nat.testBit_two_pow_sub_succ hlt,
    Nat.testBit_two_pow, Bool.and_comm, decide_eq_true hk, Bool.true_and]
  simp only [eq_comm]

/-- Writing one byte changes the bits of that byte. -/
theorem rawBit_set (raw : Bytes) {i : Nat} (hi : i / 8 < raw.length) (byte : UInt8) (j : Nat) :
    PageBitmap.rawBit (raw.set (i / 8) byte) j =
      if j / 8 = i / 8 then byte.toNat.testBit (j % 8) else PageBitmap.rawBit raw j := by
  unfold PageBitmap.rawBit
  rw [List.getD_eq_getElem?_getD, List.getElem?_set]
  by_cases hj : j / 8 = i / 8
  · rw [if_pos hj.symm, if_pos (by omega), if_pos hj]
    rfl
  · rw [if_neg (Ne.symm hj), if_neg hj, List.getD_eq_getElem?_getD]

namespace Shows

variable {raw : RawBitmap} {b : PageBitmap} {n i : Nat}

theorem get? (h : Shows raw b) (hi : i < b.npages) : raw.get? i = some (b.get i) := by
  have hin : i < raw.npages ∧ i / 8 < raw.bits.length := by
    rw [h.npages, h.size]
    omega
  rw [RawBitmap.get?, if_pos hin, h.bits i hi]

theorem set? (h : Shows raw b) (hi : i < b.npages) :
    ∃ raw', raw.set? i = some raw' ∧ Shows raw' (b.set i) := by
  rw [RawBitmap.set?, h.get? hi, Option.map_some]
  have hn : (b.set i).npages = b.npages := by unfold PageBitmap.set; split <;> rfl
  refine ⟨_, rfl, ?_⟩
  by_cases hbit : b.get i = true
  · have hsame : b.set i = b := if_pos hbit
    rw [if_pos hbit, hsame]
    exact h
  · rw [if_neg hbit]
    refine ⟨h.npages.trans hn.symm, ?_, ?_, ?_⟩
    · rw [hn, List.length_set, h.size]
    · intro j hj
      rw [hn] at hj
      have hin : i / 8 < raw.bits.length := by
        rw [h.size]
        omega
      rw [rawBit_set _ hin, testBit_or_mask, PageBitmap.get_set, ← h.bits j hj]
      by_cases hbyte : j / 8 = i / 8
      · rw [if_pos hbyte, PageBitmap.rawBit, hbyte]
        have hji : j % 8 = i % 8 ↔ j = i := by omega
        rw [decide_eq_decide.2 hji]
      · rw [if_neg hbyte]
        have hji : j ≠ i := fun hji => hbyte (by rw [hji])
        rw [decide_eq_false hji, Bool.false_or]
    · have hset : b.set i = { b with bit := Function.update b.bit i true, count := b.count + 1 } :=
        if_neg hbit
      rw [hset]
      exact congrArg (· + 1) h.count

theorem clear? (h : Shows raw b) (hb : b.Counted n) (hi : i < b.npages) :
    ∃ raw', raw.clear? i = some raw' ∧ Shows raw' (b.clear i) := by
  rw [RawBitmap.clear?, h.get? hi, Option.bind_some]
  by_cases hbit : b.get i = true
  · have hpos : raw.count ≠ 0 := by
      have := hb.count_pos hbit
      rw [h.count]
      omega
    have hclear : b.clear i =
        { b with bit := Function.update b.bit i false, count := b.count - 1 } := if_pos hbit
    have hn : (b.clear i).npages = b.npages := by rw [hclear]
    rw [if_pos hbit, if_neg hpos]
    refine ⟨_, rfl, h.npages.trans hn.symm, ?_, ?_, ?_⟩
    · rw [hn, List.length_set, h.size]
    · intro j hj
      rw [hn] at hj
      have hin : i / 8 < raw.bits.length := by
        rw [h.size]
        omega
      rw [rawBit_set _ hin, testBit_and_not_mask _ _ (Nat.mod_lt j (by decide)),
        PageBitmap.get_clear, ← h.bits j hj]
      by_cases hbyte : j / 8 = i / 8
      · rw [if_pos hbyte, PageBitmap.rawBit, hbyte]
        have hji : j % 8 = i % 8 ↔ j = i := by omega
        rw [decide_eq_decide.2 hji]
      · rw [if_neg hbyte]
        have hji : j ≠ i := fun hji => hbyte (by rw [hji])
        rw [decide_eq_false hji, Bool.not_false, Bool.true_and]
    · rw [hclear]
      exact congrArg (· - 1) h.count
  · have hsame : b.clear i = b := if_neg hbit
    rw [if_neg hbit, hsame]
    exact ⟨raw, rfl, h⟩

theorem clearAll (h : Shows raw b) : Shows raw.clearAll b.clearAll := by
  refine ⟨h.npages, ?_, ?_, rfl⟩
  · exact (List.length_replicate ..).trans h.size
  · intro i hi
    have hzero : (List.replicate raw.bits.length (0 : UInt8)).getD (i / 8) 0 = 0 := by
      rw [List.getD_eq_getElem?_getD, List.getElem?_replicate]
      split <;> rfl
    rw [PageBitmap.get_clearAll, RawBitmap.clearAll, PageBitmap.rawBit, hzero]
    exact Nat.zero_testBit _

/-- What the bytes count is the number of set bits below the pages. -/
theorem counts (h : Shows raw b) (hb : b.Counted n) :
    raw.count = (List.range raw.npages).countP (PageBitmap.rawBit raw.bits) := by
  rw [h.count, hb.count, h.npages, hb.npages]
  apply List.countP_congr
  intro i hi
  rw [h.bits i (hb.npages.symm ▸ List.mem_range.1 hi)]

/-- The bytes a bitmap is stored as show it. -/
theorem stored (b : PageBitmap) :
    Shows ⟨(List.range ((b.npages + 7) / 8)).map b.rawByte, b.npages, b.count⟩ b := by
  refine ⟨rfl, by simp, fun i hi => ?_, rfl⟩
  exact PageBitmap.rawBit_raw b (by omega)

/-- The bytes a reader copies from an image are counted anew. -/
theorem recount (h : Shows raw b) (hb : b.Counted n) (count : Nat) :
    RawBitmap.recount { raw with count := count } = .ok raw := by
  have hfits : raw.npages ≤ 8 * raw.bits.length := by
    rw [h.size, h.npages]
    omega
  have hcount : (List.range raw.npages).countP (PageBitmap.rawBit raw.bits) = raw.count :=
    (h.counts hb).symm
  unfold RawBitmap.recount
  rw [if_pos hfits, hcount]

end Shows

end SidecarCodec.RawBitmap

end UCache
