/-
Module: UCache.Lib.Endian
Purpose: Fixed-width integers as bytes, in either byte order, signed or not, and reading them
  back.
Trusted boundary: none
Main exports: le, ofLe, be
-/
import Mathlib.Data.List.Basic
import Mathlib.Tactic.Positivity
import Mathlib.Tactic.Zify

namespace UCache.Lib

/-- The `n` low bytes of `v`, least significant first. -/
def le : Nat → Nat → List UInt8
  | 0, _ => []
  | n + 1, v => UInt8.ofNat v :: le n (v / 256)

/-- The integer the bytes stand for, least significant first. -/
def ofLe : List UInt8 → Nat
  | [] => 0
  | b :: bs => b.toNat + 256 * ofLe bs

@[simp] theorem length_le (n v : Nat) : (le n v).length = n := by
  induction n generalizing v with
  | zero => rfl
  | succ n ih => simp [le, ih]

/-- What was put is what is got, up to the width. -/
theorem ofLe_le (n v : Nat) : ofLe (le n v) = v % 256 ^ n := by
  induction n generalizing v with
  | zero => simp [le, ofLe, Nat.mod_one]
  | succ n ih =>
      rw [le, ofLe, ih, Nat.pow_succ', Nat.mod_mul]
      simp

theorem ofLe_lt (bs : List UInt8) : ofLe bs < 256 ^ bs.length := by
  induction bs with
  | nil => simp [ofLe]
  | cons b bs ih =>
      have hb : b.toNat < 256 := b.toNat_lt
      rw [ofLe, List.length_cons, Nat.pow_succ]
      omega

/-- Bytes are those of the integer they stand for. -/
theorem le_ofLe (bs : List UInt8) : le bs.length (ofLe bs) = bs := by
  induction bs with
  | nil => rfl
  | cons b bs ih =>
      have hb : b.toNat < 256 := b.toNat_lt
      have hrest : (b.toNat + 256 * ofLe bs) / 256 = ofLe bs := by omega
      have hfirst : UInt8.ofNat (b.toNat + 256 * ofLe bs) = b := by
        apply UInt8.toNat_inj.1
        rw [UInt8.toNat_ofNat']
        omega
      rw [List.length_cons, le, ofLe, hrest, ih, hfirst]

/-! ### Most significant byte first -/

/-- The `n` low bytes of `v`, most significant first. -/
def be (n v : Nat) : List UInt8 := (le n v).reverse

/-- The integer the bytes stand for, most significant first. -/
def ofBe (bs : List UInt8) : Nat := ofLe bs.reverse

@[simp] theorem length_be (n v : Nat) : (be n v).length = n := by
  simp [be]

theorem ofBe_be (n v : Nat) : ofBe (be n v) = v % 256 ^ n := by
  rw [ofBe, be, List.reverse_reverse, ofLe_le]

theorem be_ofBe (bs : List UInt8) : be bs.length (ofBe bs) = bs := by
  rw [be, ofBe, ← List.length_reverse, le_ofLe, List.reverse_reverse]

/-! ### Two's complement -/

/-- An `n`-byte integer read as a signed one. -/
def signed (n v : Nat) : Int := if 2 * v < 256 ^ n then v else (v : Int) - 256 ^ n

/-- A signed integer as `n` bytes, most significant first. -/
def beInt (n : Nat) (v : Int) : List UInt8 := be n (v % 256 ^ n).toNat

@[simp] theorem length_beInt (n : Nat) (v : Int) : (beInt n v).length = n := by
  simp [beInt]

/-- A signed integer that fits the width is read back. -/
theorem signed_beInt {n : Nat} {v : Int} (hlo : -(256 ^ n : Int) ≤ 2 * v)
    (hhi : 2 * v < 256 ^ n) : signed n (ofBe (beInt n v)) = v := by
  have hpow : ((256 ^ n : Nat) : Int) = (256 : Int) ^ n := by push_cast; rfl
  have hpos : (0 : Int) < 256 ^ n := by positivity
  have hval : ((v % 256 ^ n).toNat : Int) = v % 256 ^ n := Int.toNat_of_nonneg (by omega)
  have hlt : v % 256 ^ n < 256 ^ n := Int.emod_lt_of_pos _ hpos
  have hnat : (v % 256 ^ n).toNat % 256 ^ n = (v % 256 ^ n).toNat := by
    apply Nat.mod_eq_of_lt
    zify
    omega
  rw [signed, beInt, ofBe_be, hnat]
  by_cases hv : 0 ≤ v
  · have hmod : v % 256 ^ n = v := Int.emod_eq_of_lt hv (by omega)
    rw [if_pos (by zify; omega)]
    omega
  · have hmod : v % 256 ^ n = v + 256 ^ n := by
      rw [← Int.add_emod_right]
      exact Int.emod_eq_of_lt (by omega) (by omega)
    rw [if_neg (by zify; omega)]
    omega

/-! ### 64-bit sums -/

def add64 (a b : Nat) : Nat := (a + b) % 2 ^ 64

def sub64 (a b : Nat) : Nat := (a + 2 ^ 64 - b) % 2 ^ 64

theorem sub64_of_le {a b : Nat} (h : b ≤ a) (ha : a < 2 ^ 64) : sub64 a b = a - b := by
  unfold sub64
  omega

theorem add64_of_le {a b n : Nat} (h : a + b ≤ n) (hn : n < 2 ^ 64) : add64 a b = a + b :=
  Nat.mod_eq_of_lt (by omega)

/-- A sum that ends after a position at or after its start did not wrap. -/
theorem add64_of_lt {a n pos : Nat} (ha : a < 2 ^ 64) (hn : n < 2 ^ 64) (hpos : a ≤ pos)
    (hlt : pos < add64 a n) : add64 a n = a + n := by
  unfold add64 at hlt ⊢
  omega

end UCache.Lib
