/-
Module: UCache.Core.ReadFootprint
Purpose: Which buckets of a file a run has read: the words the ranges are noted in, and the list,
  the count and the signature that are taken from them, which are functions of the set of buckets.
Trusted boundary: none
Main exports: ReadFootprint, ReadFootprint.note, ReadFootprint.buckets
-/
import UCache.Core.ObsRecord
import UCache.Lib.Endian
import UCache.Lib.WordSets

namespace UCache

open Lib

/-- [SRC ReadFootprint.h:55] -/
def kBucket : Nat := 1024 * 1024

/-- [SRC ReadFootprint.cc:18] -/
def kMaxBucket : Nat := 2 ^ 24

/-- [SRC ReadFootprint.h:103-104] -/
structure ReadFootprint where
  bits : List (BitVec 64) := []
  poisoned : Bool := false
deriving DecidableEq

/-- [SRC ReadFootprint.cc:38-41] -/
def lastBucket (limitBytes : Nat) : Nat :=
  if limitBytes = 0 then 2 ^ 64 - 1 else (limitBytes - 1) / kBucket

/-- [SRC ReadFootprint.cc:8-20] The first and the last bucket of a range, unless it is refused; no
lock is held here. -/
def notedBuckets (off len : Nat) : Option (Nat × Nat) :=
  if len = 0 then none
  else
    let first := off / kBucket
    let last := sub64 (add64 off len) 1 / kBucket
    if last < first ∨ kMaxBucket < last then none else some (first, last)

/-- [SRC ReadFootprint.cc:127-130] A bucket's eight bytes go into the hash, the lowest first. -/
def hashBucket (h : UInt64) (b : Nat) : UInt64 :=
  (List.range 8).foldl
    (fun h s => (h ^^^ UInt64.ofNat (b >>> (8 * s) % 256)) * 1099511628211) h

/-- [SRC ReadFootprint.cc:117] Where the hash starts. -/
def sigBasis : UInt64 := 1469598103934665603

/-! ### What the walks do with a bucket -/

/-- [SRC ReadFootprint.cc:71-72] -/
def countTurn (last n b : Nat) : Nat := if b ≤ last then n + 1 else n

/-- [SRC ReadFootprint.cc:87-88] -/
def listTurn (last : Nat) (out : List Nat) (b : Nat) : List Nat :=
  if b ≤ last then out ++ [b] else out

/-- [SRC ReadFootprint.cc:124-130] -/
def signTurn (last : Nat) (s : UInt64 × Bool) (b : Nat) : UInt64 × Bool :=
  if last < b then s else (hashBucket s.1 b, true)

/-- [SRC ReadFootprint.cc:133-138] -/
def signText (s : UInt64 × Bool) : Bytes := if s.2 then sigText s.1 else []

namespace ReadFootprint

variable (fp : ReadFootprint)

/-- [SRC ReadFootprint.cc:7-27] -/
def note (off len : Nat) : ReadFootprint :=
  match notedBuckets off len with
  | none => fp
  | some (first, last) =>
      let grown := growTo fp.bits (last / 64 + 1)
      { fp with bits := (List.range' first (last + 1 - first)).foldl setBit grown }

/-- [SRC ReadFootprint.cc:29-35] -/
def empty : Bool := fp.bits.all (· = 0#64)

/-- [SRC ReadFootprint.cc:44-47] -/
def poison : ReadFootprint := { fp with poisoned := true }

/-- [SRC ReadFootprint.cc:63-76] -/
def countLocked (limitBytes : Nat) : Nat :=
  walkWords (countTurn (lastBucket limitBytes)) fp.bits 0

/-- [SRC ReadFootprint.cc:54-59] -/
def count (limitBytes : Nat) : Nat := if fp.poisoned then 0 else fp.countLocked limitBytes

/-- [SRC ReadFootprint.cc:78-92] -/
def buckets (limitBytes : Nat) : List Nat :=
  walkWords (listTurn (lastBucket limitBytes)) fp.bits []

/-- [SRC ReadFootprint.cc:115-139] -/
def sigLocked (limitBytes : Nat) : Bytes :=
  signText (walkWords (signTurn (lastBucket limitBytes)) fp.bits (sigBasis, false))

/-- [SRC ReadFootprint.cc:107-112] -/
def sig (limitBytes : Nat) : Bytes := if fp.poisoned then [] else fp.sigLocked limitBytes

/-- [SRC ReadFootprint.cc:94-105] What the call writes out; nothing when it answers no. -/
def sigAndCount (limitBytes : Nat) : Option (Bytes × Nat) :=
  if fp.poisoned then none
  else
    let sg := fp.sigLocked limitBytes
    if sg = [] then none else some (sg, fp.countLocked limitBytes)

/-- What the calls have to say of the bits, in terms of the buckets that are listed. -/
def listed (limitBytes : Nat) : List Nat :=
  (members fp.bits).filter fun b => decide (b ≤ lastBucket limitBytes)

end ReadFootprint

/-- The signature of the buckets listed. -/
def sigOf (listed : List Nat) : Bytes :=
  if listed = [] then [] else sigText (listed.foldl hashBucket sigBasis)

/-! ### The walks -/

theorem foldl_countTurn (last : Nat) (l : List Nat) (n : Nat) :
    l.foldl (countTurn last) n = n + (l.filter fun b => decide (b ≤ last)).length := by
  induction l generalizing n with
  | nil => rfl
  | cons b l ih =>
      rw [List.foldl_cons, ih, List.filter_cons, countTurn]
      by_cases hb : b ≤ last
      · rw [if_pos hb, if_pos (decide_eq_true hb), List.length_cons]
        omega
      · rw [if_neg hb, if_neg (by simpa using hb)]

theorem foldl_listTurn (last : Nat) (l out : List Nat) :
    l.foldl (listTurn last) out = out ++ l.filter fun b => decide (b ≤ last) := by
  induction l generalizing out with
  | nil => simp
  | cons b l ih =>
      rw [List.foldl_cons, ih, List.filter_cons, listTurn]
      by_cases hb : b ≤ last
      · rw [if_pos hb, if_pos (decide_eq_true hb), List.append_assoc, List.singleton_append]
      · rw [if_neg hb, if_neg (by simpa using hb)]

/-- The hash goes over the buckets listed, and the flag says whether there was one. -/
theorem foldl_signTurn (last : Nat) (l : List Nat) (h : UInt64) (any : Bool) :
    l.foldl (signTurn last) (h, any) =
      ((l.filter fun b => decide (b ≤ last)).foldl hashBucket h,
        any || !(l.filter fun b => decide (b ≤ last)).isEmpty) := by
  induction l generalizing h any with
  | nil => simp
  | cons b l ih =>
      rw [List.foldl_cons, List.filter_cons, signTurn]
      by_cases hb : b ≤ last
      · rw [if_neg (by omega), if_pos (decide_eq_true hb), ih]
        simp
      · rw [if_pos (by omega), if_neg (by simpa using hb), ih]

namespace ReadFootprint

variable (fp : ReadFootprint) (limitBytes : Nat)

theorem buckets_eq : fp.buckets limitBytes = fp.listed limitBytes := by
  unfold buckets listed
  rw [walkWords_eq, foldl_listTurn, List.nil_append]

theorem countLocked_eq : fp.countLocked limitBytes = (fp.listed limitBytes).length := by
  unfold countLocked listed
  rw [walkWords_eq, foldl_countTurn, Nat.zero_add]

theorem sigLocked_eq : fp.sigLocked limitBytes = sigOf (fp.listed limitBytes) := by
  unfold sigLocked sigOf signText listed
  rw [walkWords_eq, foldl_signTurn, Bool.false_or]
  generalize (members fp.bits).filter (fun b => decide (b ≤ lastBucket limitBytes)) = l
  cases l <;> simp

/-- A bucket is listed when its bit is set and it is not behind the limit's last one. -/
theorem mem_listed {b : Nat} :
    b ∈ fp.listed limitBytes ↔ b ≤ lastBucket limitBytes ∧ hasBit fp.bits b = true := by
  unfold listed
  rw [List.mem_filter, mem_members, decide_eq_true_eq, and_comm]

theorem listed_ascending : Ascending (fp.listed limitBytes) := (members_ascending fp.bits).filter _

end ReadFootprint

/-! ### The ranges -/

/-- A byte of some range is in bucket `b`. -/
def Touched (ranges : List (Nat × Nat)) (b : Nat) : Prop :=
  ∃ r ∈ ranges, ∃ x, r.1 ≤ x ∧ x < r.1 + r.2 ∧ x / kBucket = b

/-- Every range ends by 16 TiB. -/
def EndsBelow (ranges : List (Nat × Nat)) : Prop := ∀ r ∈ ranges, r.1 + r.2 ≤ 2 ^ 44

/-- A footprint that has noted the ranges, in their order. -/
def noteAll (ranges : List (Nat × Nat)) (fp : ReadFootprint) : ReadFootprint :=
  ranges.foldl (fun fp r => fp.note r.1 r.2) fp

/-- No range that ends by 16 TiB is refused. -/
theorem notedBuckets_of_fit {off len : Nat} (hlen : len ≠ 0) (hfit : off + len ≤ 2 ^ 44) :
    notedBuckets off len = some (off / kBucket, (off + len - 1) / kBucket) := by
  have hlast : sub64 (add64 off len) 1 = off + len - 1 := by
    rw [add64_of_le hfit (by decide), sub64_of_le (by omega) (by omega)]
  have horder : off / kBucket ≤ (off + len - 1) / kBucket := Nat.div_le_div_right (by omega)
  have hmax : (off + len - 1) / kBucket ≤ kMaxBucket := by
    unfold kBucket kMaxBucket
    omega
  unfold notedBuckets
  rw [if_neg hlen]
  simp only [hlast]
  rw [if_neg (by omega)]

/-- The buckets between the first and the last are those a byte of the range is in. -/
theorem between_buckets {off len b : Nat} (hlen : len ≠ 0) :
    off / kBucket ≤ b ∧ b ≤ (off + len - 1) / kBucket ↔
      ∃ x, off ≤ x ∧ x < off + len ∧ x / kBucket = b := by
  constructor
  · rintro ⟨hfirst, hlast⟩
    unfold kBucket at *
    exact ⟨max off (b * (1024 * 1024)), by omega, by omega, by omega⟩
  · rintro ⟨x, hlo, hhi, rfl⟩
    exact ⟨Nat.div_le_div_right hlo, Nat.div_le_div_right (by omega)⟩

/-- Noting a range adds the buckets it touches. -/
theorem hasBit_note {off len : Nat} (hfit : off + len ≤ 2 ^ 44) (fp : ReadFootprint) (b : Nat) :
    hasBit (fp.note off len).bits b = true ↔
      (∃ x, off ≤ x ∧ x < off + len ∧ x / kBucket = b) ∨ hasBit fp.bits b = true := by
  rcases Nat.eq_zero_or_pos len with rfl | hpos
  · have hnone : notedBuckets off 0 = none := if_pos rfl
    have hempty : ¬∃ x, off ≤ x ∧ x < off + 0 ∧ x / kBucket = b := by
      rintro ⟨x, hlo, hhi, -⟩
      omega
    unfold ReadFootprint.note
    rw [hnone, or_iff_right hempty]
  · have hsome := notedBuckets_of_fit hpos.ne' hfit
    have horder : off / kBucket ≤ (off + len - 1) / kBucket := Nat.div_le_div_right (by omega)
    unfold ReadFootprint.note
    rw [hsome, ← between_buckets hpos.ne']
    simp only
    rw [hasBit_setBits (by decide), hasBit_growTo, Bool.or_eq_true, decide_eq_true_eq,
      List.mem_range'_1]
    · refine or_congr_left ?_
      omega
    · -- The array has been grown to the last bucket's word.
      intro c hc
      rw [List.mem_range'_1] at hc
      rw [length_growTo]
      omega

theorem note_poisoned (fp : ReadFootprint) (off len : Nat) :
    (fp.note off len).poisoned = fp.poisoned := by
  unfold ReadFootprint.note
  cases notedBuckets off len <;> rfl

theorem noteAll_poisoned (ranges : List (Nat × Nat)) (fp : ReadFootprint) :
    (noteAll ranges fp).poisoned = fp.poisoned := by
  induction ranges generalizing fp with
  | nil => rfl
  | cons r ranges ih => exact (ih _).trans (note_poisoned fp r.1 r.2)

theorem hasBit_noteAll {ranges : List (Nat × Nat)} (hends : EndsBelow ranges) (fp : ReadFootprint)
    (b : Nat) :
    hasBit (noteAll ranges fp).bits b = true ↔ Touched ranges b ∨ hasBit fp.bits b = true := by
  induction ranges generalizing fp with
  | nil => simp [noteAll, Touched]
  | cons r ranges ih =>
      have hrest := ih (fun s hs => hends s (List.mem_cons_of_mem _ hs)) (fp.note r.1 r.2)
      rw [hasBit_note (hends r (List.mem_cons_self ..)), ← or_assoc] at hrest
      refine hrest.trans (or_congr_left ?_)
      unfold Touched
      rw [List.exists_mem_cons_iff, or_comm]

/-- Splitting a range in two touches the same buckets. -/
theorem touched_split (before after : List (Nat × Nat)) (off a b c : Nat) :
    Touched (before ++ (off, a + b) :: after) c ↔
      Touched (before ++ (off, a) :: (off + a, b) :: after) c := by
  have hbytes : (∃ x, off ≤ x ∧ x < off + (a + b) ∧ x / kBucket = c) ↔
      (∃ x, off ≤ x ∧ x < off + a ∧ x / kBucket = c) ∨
        ∃ x, off + a ≤ x ∧ x < off + a + b ∧ x / kBucket = c := by
    constructor
    · rintro ⟨x, hlo, hhi, hx⟩
      rcases Nat.lt_or_ge x (off + a) with h | h
      · exact .inl ⟨x, hlo, h, hx⟩
      · exact .inr ⟨x, h, by omega, hx⟩
    · rintro (⟨x, hlo, hhi, hx⟩ | ⟨x, hlo, hhi, hx⟩)
      · exact ⟨x, hlo, by omega, hx⟩
      · exact ⟨x, by omega, by omega, hx⟩
  simp only [Touched, List.mem_append, List.mem_cons, or_and_right, exists_or, exists_eq_left,
    hbytes, or_assoc]

/-! ### What the calls depend on -/

/-- Footprints with the same buckets up to their limits' last ones list the same. -/
theorem listed_eq {fp fp' : ReadFootprint} {limit limit' : Nat}
    (h : ∀ b, b ≤ lastBucket limit ∧ hasBit fp.bits b = true ↔
      b ≤ lastBucket limit' ∧ hasBit fp'.bits b = true) :
    fp.listed limit = fp'.listed limit' := by
  apply Ascending.eq (fp.listed_ascending limit) (fp'.listed_ascending limit')
  intro b
  rw [fp.mem_listed, fp'.mem_listed]
  exact h b

/-- Two footprints that no call about the ranges tells apart. -/
structure SameAnswers (fp fp' : ReadFootprint) (limit limit' : Nat) : Prop where
  buckets : fp.buckets limit = fp'.buckets limit'
  count : fp.count limit = fp'.count limit'
  sig : fp.sig limit = fp'.sig limit'
  both : fp.sigAndCount limit = fp'.sigAndCount limit'

/-- What is said of two sequences of ranges is the same when they touch the same buckets up to the
limits' last ones. -/
theorem noteAll_same {ns ms : List (Nat × Nat)} (hns : EndsBelow ns) (hms : EndsBelow ms)
    {limit limit' : Nat}
    (h : ∀ b, b ≤ lastBucket limit ∧ Touched ns b ↔ b ≤ lastBucket limit' ∧ Touched ms b) :
    SameAnswers (noteAll ns {}) (noteAll ms {}) limit limit' := by
  have hbits : ∀ {ranges : List (Nat × Nat)}, EndsBelow ranges → ∀ b,
      hasBit (noteAll ranges {}).bits b = true ↔ Touched ranges b := by
    intro ranges hends b
    rw [hasBit_noteAll hends, hasBit_nil]
    simp
  have hlisted : (noteAll ns {}).listed limit = (noteAll ms {}).listed limit' := by
    apply listed_eq
    intro b
    rw [hbits hns, hbits hms]
    exact h b
  have hpoison : (noteAll ns {}).poisoned = (noteAll ms {}).poisoned :=
    (noteAll_poisoned ns {}).trans (noteAll_poisoned ms {}).symm
  constructor
  · rw [ReadFootprint.buckets_eq, ReadFootprint.buckets_eq, hlisted]
  · simp only [ReadFootprint.count, ReadFootprint.countLocked_eq, hlisted, hpoison]
  · simp only [ReadFootprint.sig, ReadFootprint.sigLocked_eq, hlisted, hpoison]
  · simp only [ReadFootprint.sigAndCount, ReadFootprint.sigLocked_eq,
      ReadFootprint.countLocked_eq, hlisted, hpoison]

end UCache
