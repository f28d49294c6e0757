/-
Module: UCache.Lib.Parse
Purpose: Readers that take bytes off the front of an input: fixed-width and variable-length
  integers, counted sequences, and the rules by which what was written is read back.
Trusted boundary: none
Main exports: Parser, Reads, Yields
-/
import Mathlib.Tactic.Ring
import UCache.Lib.Endian

namespace UCache.Lib

/-- A reader: the value it takes off the front of the input and the rest, or a failure. -/
abbrev Parser (α : Type) : Type := StateT (List UInt8) Option α

variable {α β : Type}

/-- Whatever follows the bytes `b`, the reader takes exactly them, and they stand for `x`. -/
def Reads (p : Parser α) (b : List UInt8) (x : α) : Prop :=
  ∀ rest, p.run (b ++ rest) = some (x, rest)

/-- Every value the reader can return has the property. -/
def Yields (p : Parser α) (P : α → Prop) : Prop :=
  ∀ b x rest, p.run b = some (x, rest) → P x

/-! ### Composition -/

variable {p : Parser α}

theorem Reads.pure (x : α) : Reads (Pure.pure x) [] x := by
  intro rest
  rfl

theorem Reads.bind {f : α → Parser β} {b c : List UInt8} {x : α} {y : β} (hp : Reads p b x)
    (hf : Reads (f x) c y) : Reads (p >>= f) (b ++ c) y := by
  intro rest
  rw [StateT.run_bind, List.append_assoc, hp (c ++ rest)]
  exact hf rest

/-- A check that passes takes nothing. -/
theorem Reads.check {c : Prop} [Decidable c] (h : c) : Reads (guard c) [] () := by
  intro rest
  rw [guard, if_pos h]
  rfl

theorem Yields.pure {x : α} {P : α → Prop} (h : P x) : Yields (Pure.pure x) P := by
  intro b y rest heq
  cases heq
  exact h

theorem Yields.bind {f : α → Parser β} {P : α → Prop} {Q : β → Prop} (hp : Yields p P)
    (hf : ∀ x, P x → Yields (f x) Q) : Yields (p >>= f) Q := by
  intro b y rest heq
  rw [StateT.run_bind] at heq
  obtain ⟨⟨x, mid⟩, hx, hy⟩ := Option.bind_eq_some_iff.1 heq
  exact hf x (hp b x mid hx) mid y rest hy

theorem Yields.mono {P Q : α → Prop} (hp : Yields p P) (h : ∀ x, P x → Q x) : Yields p Q :=
  fun b x rest heq => h x (hp b x rest heq)

theorem Yields.trivial (p : Parser α) : Yields p fun _ => True :=
  fun _ _ _ _ => True.intro

/-! ### Fixed widths -/

/-- An unsigned integer of `n` bytes, least significant first. -/
def getLe (n : Nat) : Parser Nat := fun b =>
  if n ≤ b.length then some (ofLe (b.take n), b.drop n) else none

/-- A stretch of `n` bytes. -/
def getBytes (n : Nat) : Parser (List UInt8) := fun b =>
  if n ≤ b.length then some (b.take n, b.drop n) else none

theorem reads_le {n v : Nat} (h : v < 256 ^ n) : Reads (getLe n) (le n v) v := by
  intro rest
  have hlen : n ≤ (le n v ++ rest).length := by simp
  have htake : (le n v ++ rest).take n = le n v := by
    rw [List.take_append_of_le_length (by simp), List.take_of_length_le (by simp)]
  have hdrop : (le n v ++ rest).drop n = rest := by
    rw [List.drop_append_of_le_length (by simp), List.drop_of_length_le (by simp), List.nil_append]
  show (if n ≤ _ then _ else none) = _
  rw [if_pos hlen, htake, hdrop, ofLe_le, Nat.mod_eq_of_lt h]

theorem yields_le (n : Nat) : Yields (getLe n) fun v => v < 256 ^ n := by
  intro b x rest h
  have h' : (if n ≤ b.length then some (ofLe (b.take n), b.drop n) else none) = some (x, rest) := h
  split at h'
  · rename_i hle
    cases h'
    have := ofLe_lt (b.take n)
    rwa [List.length_take, Nat.min_eq_left hle] at this
  · cases h'

theorem reads_bytes (v : List UInt8) : Reads (getBytes v.length) v v := by
  intro rest
  show (if v.length ≤ (v ++ rest).length then _ else none) = _
  rw [if_pos (by simp), List.take_left, List.drop_left]

theorem yields_bytes (n : Nat) : Yields (getBytes n) fun v => v.length = n := by
  intro b x rest h
  have h' : (if n ≤ b.length then some (b.take n, b.drop n) else none) = some (x, rest) := h
  split at h'
  · cases h'
    rw [List.length_take]
    omega
  · cases h'

/-! ### Counted sequences -/

/-- The reader `n` times. -/
def times (p : Parser α) : Nat → Parser (List α)
  | 0 => pure []
  | n + 1 => do
      let x ← p
      let xs ← times p n
      pure (x :: xs)

theorem Reads.times {put : α → List UInt8} {xs : List α} (h : ∀ x ∈ xs, Reads p (put x) x) :
    Reads (times p xs.length) (xs.flatMap put) xs := by
  induction xs with
  | nil => exact Reads.pure []
  | cons x xs ih =>
      have htail : Reads (do let ys ← UCache.Lib.times p xs.length; Pure.pure (x :: ys))
          (xs.flatMap put ++ []) (x :: xs) :=
        Reads.bind (ih fun y hy => h y (by simp [hy])) (Reads.pure _)
      rw [List.append_nil] at htail
      exact Reads.bind (h x (by simp)) htail

theorem Yields.times {P : α → Prop} (h : Yields p P) (n : Nat) :
    Yields (times p n) fun xs => xs.length = n ∧ ∀ x ∈ xs, P x := by
  induction n with
  | zero => exact Yields.pure ⟨rfl, by simp⟩
  | succ n ih =>
      refine Yields.bind h fun x hx => Yields.bind ih fun xs hxs => Yields.pure ⟨?_, ?_⟩
      · rw [List.length_cons, hxs.1]
      · intro y hy
        rcases List.mem_cons.1 hy with rfl | hmem
        · exact hx
        · exact hxs.2 y hmem

/-! ### Variable lengths

Seven bits a byte, the lowest first, and the top bit set on every byte but the last. -/

/-- The bytes of `v`, with at most `n` bytes before the last. -/
def putVarintFrom : Nat → Nat → List UInt8
  | 0, v => [UInt8.ofNat v]
  | n + 1, v =>
      if 128 ≤ v then UInt8.ofNat (v % 128 + 128) :: putVarintFrom n (v / 128)
      else [UInt8.ofNat v]

/-- A 64-bit integer, in ten bytes or fewer. -/
def putVarint (v : Nat) : List UInt8 := putVarintFrom 9 v

/-- The bytes from bit `shift` on, into a 64-bit integer. -/
def getVarintFrom : Nat → Nat → Nat → Parser Nat
  | 0, _, _ => failure
  | n + 1, shift, acc => do
      let c ← getLe 1
      let acc' := acc ||| (c % 128 * 2 ^ shift) % 2 ^ 64
      if c < 128 then pure acc' else getVarintFrom n (shift + 7) acc'

/-- Ten bytes at most, at the bits 0, 7, …, 63. -/
def getVarint : Parser Nat := getVarintFrom 10 0 0


/-- The bits below `shift` are in already: the next seven land above them. -/
theorem or_low_bits {acc w shift : Nat} (hacc : acc < 2 ^ shift) (hw : w * 2 ^ shift < 2 ^ 64) :
    acc ||| (w * 2 ^ shift) % 2 ^ 64 = acc + w * 2 ^ shift := by
  rw [Nat.mod_eq_of_lt hw, Nat.or_comm, Nat.mul_comm w, ← Nat.two_pow_add_eq_or_of_lt hacc,
    Nat.add_comm]

theorem reads_byte {v : Nat} (h : v < 256) : Reads (getLe 1) [UInt8.ofNat v] v :=
  reads_le (n := 1) (by omega)

/-- The byte that ends the integer. -/
theorem reads_varint_last {n shift acc v : Nat} (hacc : acc < 2 ^ shift)
    (hfit : acc + v * 2 ^ shift < 2 ^ 64) (hv : v < 128) :
    Reads (getVarintFrom (n + 1) shift acc) [UInt8.ofNat v] (acc + v * 2 ^ shift) := by
  refine Reads.bind (reads_byte (by omega)) (c := []) ?_
  simp only [hv, if_true, Nat.mod_eq_of_lt hv, or_low_bits hacc (by omega : v * 2 ^ shift < 2 ^ 64)]
  exact Reads.pure _

/-- A byte that has more after it. -/
theorem reads_varint_more {n shift acc v x : Nat} {bs : List UInt8} (hacc : acc < 2 ^ shift)
    (hfit : v % 128 * 2 ^ shift < 2 ^ 64)
    (h : Reads (getVarintFrom n (shift + 7) (acc + v % 128 * 2 ^ shift)) bs x) :
    Reads (getVarintFrom (n + 1) shift acc) (UInt8.ofNat (v % 128 + 128) :: bs) x := by
  refine Reads.bind (reads_byte (by omega)) (c := bs) ?_
  have hnot : ¬ v % 128 + 128 < 128 := by omega
  have hlow : (v % 128 + 128) % 128 = v % 128 := by omega
  simp only [hnot, if_false, hlow, or_low_bits hacc hfit]
  exact h

theorem reads_varintFrom {n shift acc v : Nat} (hacc : acc < 2 ^ shift)
    (hfit : acc + v * 2 ^ shift < 2 ^ 64) (hv : v < 128 ^ (n + 1)) :
    Reads (getVarintFrom (n + 1) shift acc) (putVarintFrom n v) (acc + v * 2 ^ shift) := by
  induction n generalizing shift acc v with
  | zero => exact reads_varint_last hacc hfit (by simpa using hv)
  | succ n ih =>
      rw [putVarintFrom]
      split
      · -- The value splits into its low seven bits and the rest.
        have hsplit : v % 128 * 2 ^ shift + v / 128 * 2 ^ (shift + 7) = v * 2 ^ shift := by
          have : 2 ^ (shift + 7) = 128 * 2 ^ shift := by ring
          rw [this, ← Nat.mul_assoc, ← Nat.add_mul, Nat.mul_comm (v / 128), Nat.mod_add_div]
        have hacc' : acc + v % 128 * 2 ^ shift < 2 ^ (shift + 7) := by
          have hpow : 2 ^ (shift + 7) = 127 * 2 ^ shift + 2 ^ shift := by ring
          have hle : v % 128 * 2 ^ shift ≤ 127 * 2 ^ shift := Nat.mul_le_mul_right _ (by omega)
          omega
        have hrest := @ih (shift + 7) (acc + v % 128 * 2 ^ shift) (v / 128) hacc' (by omega) (by
          rw [Nat.div_lt_iff_lt_mul (by omega), ← Nat.pow_succ]
          exact hv)
        rw [Nat.add_assoc, hsplit] at hrest
        exact reads_varint_more hacc (by omega) hrest
      · exact reads_varint_last hacc hfit (by omega)

theorem reads_varint {v : Nat} (h : v < 2 ^ 64) : Reads getVarint (putVarint v) v := by
  have := @reads_varintFrom 9 0 0 v (by omega) (by simpa using h) (by omega)
  simpa [getVarint, putVarint] using this

theorem putVarint_pos (v : Nat) : 0 < (putVarint v).length := by
  unfold putVarint putVarintFrom
  split <;> simp

/-! ### Signed integers of variable length

The sign goes to the lowest bit, so that numbers near zero stay short. -/

/-- `(v << 1) ^ (v >> 63)` of a 64-bit signed integer. -/
def zigzag (v : Int) : Nat := if 0 ≤ v then (2 * v).toNat else (-2 * v - 1).toNat

/-- `(u >> 1) ^ -(u & 1)`. -/
def unzigzag (u : Nat) : Int := if u % 2 = 0 then ((u / 2 : Nat) : Int) else -((u / 2 : Nat) : Int) - 1

def putSvarint (v : Int) : List UInt8 := putVarint (zigzag v)

def getSvarint : Parser Int := do
  let u ← getVarint
  pure (unzigzag u)

theorem unzigzag_zigzag (v : Int) : unzigzag (zigzag v) = v := by
  unfold unzigzag zigzag
  split <;> split <;> omega

/-- A 64-bit signed integer. -/
def Int64Range (v : Int) : Prop := -(2 ^ 63 : Int) ≤ v ∧ v < 2 ^ 63

theorem reads_svarint {v : Int} (h : Int64Range v) : Reads getSvarint (putSvarint v) v := by
  have hlt : zigzag v < 2 ^ 64 := by
    obtain ⟨hlo, hhi⟩ := h
    unfold zigzag
    split <;> omega
  have hread : Reads getSvarint (putSvarint v ++ []) (unzigzag (zigzag v)) :=
    Reads.bind (reads_varint hlt) (Reads.pure _)
  rwa [List.append_nil, unzigzag_zigzag] at hread

/-! ### Differences of unsigned integers -/

/-- A 64-bit difference read as signed. -/
def int64 (v : Int) : Int := v.bmod (2 ^ 64)

theorem int64Range_int64 (v : Int) : Int64Range (int64 v) := by
  have hlo := Int.le_bmod (x := v) (m := 2 ^ 64) (by omega)
  have hhi := Int.bmod_lt (x := v) (m := 2 ^ 64) (by omega)
  unfold Int64Range int64
  omega

/-- An integer of `w` bits, given by its distance from another. -/
def advance (w : Nat) (a : Nat) (d : Int) : Nat := ((a + d) % 2 ^ w).toNat

theorem advance_lt (w a : Nat) (d : Int) : advance w a d < 2 ^ w := by
  have hpos : (0 : Int) < 2 ^ w := by positivity
  have hlt := Int.emod_lt_of_pos (a + d) hpos
  have hnonneg := Int.emod_nonneg (a + d) hpos.ne'
  unfold advance
  zify
  omega

theorem advance_sub {w a b : Nat} (h : b < 2 ^ w) : advance w a ((b : Int) - a) = b := by
  have hlt : (b : Int) < 2 ^ w := by exact_mod_cast h
  unfold advance
  rw [add_sub_cancel, Int.emod_eq_of_lt (by omega) hlt]
  rfl

theorem advance_int64_sub {a b : Nat} (h : b < 2 ^ 64) :
    advance 64 a (int64 ((b : Int) - a)) = b := by
  have hmod : ((a : Int) + int64 (b - a)) % 2 ^ 64 = b := by
    have hb : int64 ((b : Int) - a) % 2 ^ 64 = ((b : Int) - a) % 2 ^ 64 := Int.bmod_emod
    rw [Int.add_emod, hb, ← Int.add_emod, add_sub_cancel]
    omega
  unfold advance
  rw [hmod]
  rfl

end UCache.Lib
