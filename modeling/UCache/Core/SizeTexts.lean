/-
Module: UCache.Core.SizeTexts
Purpose: The two readers of sizes in settings against the notation they are meant for: digits with an
  optional unit, nothing before or after, and a value that fits.
Trusted boundary: none
Main exports: WritesSize, parseBytes_eq, sizes_exact_iff
-/
import UCache.Core.MetaImage
import UCache.Core.Settings
import Mathlib.Data.Int.ModEq
import Mathlib.Data.Nat.Digits.Defs
import Mathlib.Data.List.TakeWhile

namespace UCache

namespace CText

/-! ### The notation -/

def byteUnit (c : UInt8) : Option Nat :=
  if c = 107 ∨ c = 75 then some (2 ^ 10)
  else if c = 109 ∨ c = 77 then some (2 ^ 20)
  else if c = 103 ∨ c = 71 then some (2 ^ 30)
  else if c = 116 ∨ c = 84 then some (2 ^ 40) else none

def pageUnit (c : UInt8) : Option Nat :=
  if c = 107 ∨ c = 75 then some 1024
  else if c = 109 ∨ c = 77 then some (1024 * 1024) else none

/-- The number a string of digits stands for. -/
def decimalValue (ds : Bytes) : Nat := Nat.ofDigits 10 (ds.reverse.map fun b => b.toNat - 48)

/-- The text is one or more digits and at most one unit, and `n` is their product. -/
def WritesSize (unit : UInt8 → Option Nat) (v : Bytes) (n : Nat) : Prop :=
  ∃ ds tail, v = ds ++ tail ∧ ds ≠ [] ∧ (∀ b ∈ ds, isDigit b = true) ∧
    (tail = [] ∧ n = decimalValue ds ∨
      ∃ c m, tail = [c] ∧ unit c = some m ∧ n = decimalValue ds * m)

/-! ### Digits at the head of a text -/

variable {v : Bytes}

theorem decimalValue_append (ds : Bytes) (b : UInt8) :
    decimalValue (ds ++ [b]) = 10 * decimalValue ds + (b.toNat - 48) := by
  simp only [decimalValue, List.reverse_append, List.reverse_cons, List.reverse_nil, List.nil_append,
    List.singleton_append, List.map_cons, Nat.ofDigits_cons]
  exact Nat.add_comm _ _

theorem ofDigits_eq (s : Bytes) : ofDigits s = decimalValue (s.takeWhile isDigit) := by
  unfold ofDigits
  induction s.takeWhile isDigit using List.reverseRecOn with
  | nil => rfl
  | append_singleton ds b ih =>
      rw [List.foldl_append, List.foldl_cons, List.foldl_nil, ih, decimalValue_append]

theorem isDigit_iff {b : UInt8} : isDigit b = true ↔ 48 ≤ b.toNat ∧ b.toNat ≤ 57 := by
  simp [isDigit, UInt8.le_iff_toNat_le]

theorem takeWhile_cString (s : Bytes) : (cString s).takeWhile isDigit = s.takeWhile isDigit := by
  induction s with
  | nil => rfl
  | cons b s ih =>
      unfold cString at ih ⊢
      by_cases hb : b = 0
      · subst hb
        rfl
      · rw [List.takeWhile_cons_of_pos (by simpa using hb), List.takeWhile_cons,
          List.takeWhile_cons, ih]

/-- A terminator after the digits is no unit. -/
theorem head?_dropWhile_cString (s : Bytes) (unit : UInt8 → Option Nat) (h0 : unit 0 = none) :
    ((cString s).dropWhile isDigit).head?.bind unit = (s.dropWhile isDigit).head?.bind unit := by
  induction s with
  | nil => rfl
  | cons b s ih =>
      unfold cString at ih ⊢
      by_cases hb : b = 0
      · subst hb
        exact h0.symm
      · rw [List.takeWhile_cons_of_pos (by simpa using hb), List.dropWhile_cons,
          List.dropWhile_cons]
        split
        · exact ih
        · rfl

/-- Units are no digits. -/
def UnitLetters (unit : UInt8 → Option Nat) : Prop :=
  ∀ c m, unit c = some m → isDigit c = false ∧ 0 < m

theorem byteUnit_letters : UnitLetters byteUnit := by
  intro c m h
  unfold byteUnit at h
  (split_ifs at h with h₁ h₂ h₃ h₄) <;> cases h
  · rcases h₁ with rfl | rfl <;> exact ⟨by decide, by decide⟩
  · rcases h₂ with rfl | rfl <;> exact ⟨by decide, by decide⟩
  · rcases h₃ with rfl | rfl <;> exact ⟨by decide, by decide⟩
  · rcases h₄ with rfl | rfl <;> exact ⟨by decide, by decide⟩

theorem pageUnit_letters : UnitLetters pageUnit := by
  intro c m h
  unfold pageUnit at h
  (split_ifs at h with h₁ h₂) <;> cases h
  · rcases h₁ with rfl | rfl <;> exact ⟨by decide, by decide⟩
  · rcases h₂ with rfl | rfl <;> exact ⟨by decide, by decide⟩

section Written

variable {unit : UInt8 → Option Nat} (hunit : UnitLetters unit)
include hunit

/-- A text is in the notation when what follows its digits is nothing or one unit. -/
theorem writesSize_iff {n : Nat} : WritesSize unit v n ↔
    v.takeWhile isDigit ≠ [] ∧
      (v.dropWhile isDigit = [] ∧ n = ofDigits v ∨
        ∃ c m, v.dropWhile isDigit = [c] ∧ unit c = some m ∧ n = ofDigits v * m) := by
  rw [ofDigits_eq]
  constructor
  · rintro ⟨ds, tail, rfl, hne, hds, htail⟩
    have hstop : tail.takeWhile isDigit = [] := by
      rcases htail with ⟨rfl, -⟩ | ⟨c, m, rfl, hc, -⟩
      · rfl
      · exact List.takeWhile_cons_of_neg (by simp [(hunit c m hc).1])
    have hdrop : tail.dropWhile isDigit = tail := by
      have happend := List.takeWhile_append_dropWhile (p := isDigit) (l := tail)
      rwa [hstop, List.nil_append] at happend
    rw [List.takeWhile_append_of_pos hds, List.dropWhile_append_of_pos hds, hstop, hdrop,
      List.append_nil]
    exact ⟨hne, htail⟩
  · rintro ⟨hne, htail⟩
    exact ⟨v.takeWhile isDigit, v.dropWhile isDigit, List.takeWhile_append_dropWhile.symm, hne,
      fun b hb => List.mem_takeWhile_imp hb, htail⟩

/-- The unit after the digits of a text in the notation, if there is one, and the value. -/
theorem WritesSize.value {n : Nat} (h : WritesSize unit v n) :
    v.takeWhile isDigit ≠ [] ∧
      n = ofDigits v * ((v.dropWhile isDigit).head?.bind unit).getD 1 ∧ ofDigits v ≤ n := by
  obtain ⟨hne, ⟨htail, rfl⟩ | ⟨c, m, htail, hc, rfl⟩⟩ := (writesSize_iff hunit).1 h
  · refine ⟨hne, ?_, Nat.le_refl _⟩
    rw [htail]
    exact (Nat.mul_one _).symm
  · refine ⟨hne, ?_, Nat.le_mul_of_pos_right _ (hunit c m hc).2⟩
    rw [htail]
    show _ = _ * (unit c).getD 1
    rw [hc]
    rfl

end Written

/-! ### Byte sizes -/

/-- What `parseBytes` computes: it reads the digits, saturating, and one character after them, and
never looks further. -/
theorem parseBytes_eq (v : Bytes) : parseBytes v =
    if v.takeWhile isDigit = [] then none
    else some (min (ofDigits v) (2 ^ 64 - 1) *
      ((v.dropWhile isDigit).head?.bind byteUnit).getD 1 % 2 ^ 64) := by
  have hdigits := takeWhile_cString v
  have hunit := head?_dropWhile_cString v byteUnit rfl
  rw [ofDigits_eq v, ← hunit, ← hdigits]
  unfold parseBytes
  cases cString v with
  | nil => rfl
  | cons b rest =>
      by_cases hb : isDigit b = true
      · rw [List.takeWhile_cons_of_pos hb, List.dropWhile_cons_of_pos hb, if_neg (by simp)]
        simp only [hb, Bool.not_true, Bool.false_eq_true, if_false]
        rw [ofDigits_eq, List.takeWhile_cons_of_pos hb]
        cases (rest.dropWhile isDigit).head? with
        | none => rfl
        | some c =>
            simp only [Option.bind_some, byteUnit]
            split_ifs <;> rfl
      · simp [hb]

/-- What is said of `parseBytes`: it succeeds on the sizes below 2^64 and gives their value. -/
def ReadsSize (v : Bytes) : Prop :=
  ∀ n, parseBytes v = some n ↔ WritesSize byteUnit v n ∧ n < 2 ^ 64

theorem parseBytes_of_writes {n : Nat} (h : WritesSize byteUnit v n) (hn : n < 2 ^ 64) :
    parseBytes v = some n := by
  obtain ⟨hne, hval, hle⟩ := h.value byteUnit_letters
  rw [parseBytes_eq, if_neg hne, Nat.min_eq_left (by omega), ← hval, Nat.mod_eq_of_lt hn]

theorem readsSize_iff : ReadsSize v ↔
    (∀ b ∈ v.head?, isDigit b = false) ∨ ∃ n, WritesSize byteUnit v n ∧ n < 2 ^ 64 := by
  have hhead : v.takeWhile isDigit = [] ↔ ∀ b ∈ v.head?, isDigit b = false := by
    cases v with
    | nil => simp
    | cons b rest => cases hb : isDigit b <;> simp [hb]
  rw [← hhead]
  constructor
  · intro h
    by_cases hne : v.takeWhile isDigit = []
    · exact .inl hne
    · exact .inr ⟨_, (h _).1 (by rw [parseBytes_eq, if_neg hne])⟩
  · rintro (hnil | ⟨n, hw, hn⟩) k
    · refine ⟨fun h => ?_, fun h => absurd hnil (h.1.value byteUnit_letters).1⟩
      rw [parseBytes_eq, if_pos hnil] at h
      cases h
    · refine ⟨fun h => ?_, fun h => parseBytes_of_writes h.1 h.2⟩
      rw [parseBytes_of_writes hw hn] at h
      cases h
      exact ⟨hw, hn⟩

/-! ### Page sizes -/

/-- The integer at the head of a text, after blanks and with its sign, of any size. -/
def headNumber (v : Bytes) : Int :=
  if (signed v).1 then -((signed v).2 : Int) else (signed v).2

/-- The unit right after the digits a text begins with. -/
def headUnit (v : Bytes) : Nat := ((v.dropWhile isDigit).head?.bind pageUnit).getD 1

theorem headUnit_cases (v : Bytes) : headUnit v = 1 ∨ headUnit v = 1024 ∨ headUnit v = 2 ^ 20 := by
  unfold headUnit
  cases (v.dropWhile isDigit).head? with
  | none => exact .inl rfl
  | some c =>
      simp only [Option.bind_some, pageUnit]
      split_ifs
      · exact .inr (.inl rfl)
      · exact .inr (.inr rfl)
      · exact .inl rfl

theorem strtoul_low (v : Bytes) : ((strtoul v % 2 ^ 32 : Nat) : Int) =
    if 2 ^ 64 ≤ (headNumber v).natAbs then 2 ^ 32 - 1 else headNumber v % 2 ^ 32 := by
  unfold strtoul headNumber
  obtain ⟨neg, n⟩ := signed v
  cases neg <;> simp only [Bool.false_eq_true, if_false, if_true, Int.natAbs_neg, Int.natAbs_natCast] <;>
    split <;> omega

/-- What `setPageSize` computes: the integer at the head, cut to 32 bits, times the unit, cut again. -/
theorem pageSizeOf_eq (v : Bytes) : pageSizeOf v =
    if 2 ^ 64 ≤ (headNumber v).natAbs then (2 ^ 32 - 1) * headUnit v % 2 ^ 32
    else (headNumber v * headUnit v % 2 ^ 32).toNat := by
  have hcut : pageSizeOf v = strtoul v % 2 ^ 32 * headUnit v % 2 ^ 32 := by
    unfold pageSizeOf headUnit
    rw [← head?_dropWhile_cString v pageUnit rfl]
    cases ((cString v).dropWhile isDigit).head? with
    | none =>
        show strtoul v % 2 ^ 32 = strtoul v % 2 ^ 32 * 1 % 2 ^ 32
        omega
    | some c =>
        simp only [Option.bind_some, pageUnit]
        split_ifs
        · rfl
        · rfl
        · show _ = _ * 1 % 2 ^ 32
          omega
  have hlow := strtoul_low v
  rw [hcut]
  by_cases hbig : 2 ^ 64 ≤ (headNumber v).natAbs
  · rw [if_pos hbig] at hlow
    rw [if_pos hbig, show strtoul v % 2 ^ 32 = 2 ^ 32 - 1 by omega]
  · rw [if_neg hbig] at hlow
    have hmul : headNumber v % 2 ^ 32 * headUnit v % 2 ^ 32 = headNumber v * headUnit v % 2 ^ 32 :=
      (Int.mod_modEq (headNumber v) (2 ^ 32)).mul_right (headUnit v)
    rw [if_neg hbig, ← hmul, ← hlow]
    norm_cast

/-- What is said of `setPageSize`: a valid page size is stored, and nothing else. -/
def SetsPage (v : Bytes) : Prop :=
  ∀ c, Config.validPageSize c = true →
    (∀ n, WritesSize pageUnit v n → Config.validPageSize n = true → setPageSize c v = n) ∧
    ((∀ n, WritesSize pageUnit v n → Config.validPageSize n = false) → setPageSize c v = c)

/-- No valid page size is congruent to the integer at the head times its unit. -/
def FarFromPage (v : Bytes) : Prop :=
  2 ^ 64 ≤ (headNumber v).natAbs ∨
    Config.validPageSize (headNumber v * headUnit v % 2 ^ 32).toNat = false

theorem farFromPage_iff : FarFromPage v ↔ Config.validPageSize (pageSizeOf v) = false := by
  unfold FarFromPage
  rw [pageSizeOf_eq]
  split
  · rename_i hbig
    refine ⟨fun _ => ?_, fun _ => .inl hbig⟩
    rcases headUnit_cases v with h | h | h <;> rw [h] <;> decide
  · rename_i hsmall
    exact ⟨fun h => h.resolve_left hsmall, .inr⟩

/-- A text that begins with a digit has neither blanks nor a sign. -/
theorem headNumber_of_digit (h : v.takeWhile isDigit ≠ []) : headNumber v = (ofDigits v : Int) := by
  have hdigits := takeWhile_cString v
  unfold headNumber signed
  rw [ofDigits_eq v]
  rw [← hdigits] at h ⊢
  generalize cString v = s at h ⊢
  cases s with
  | nil => exact absurd rfl h
  | cons b rest =>
      have hb : isDigit b = true := by
        by_contra hb
        exact h (List.takeWhile_cons_of_neg hb)
      obtain ⟨hlo, hhi⟩ := isDigit_iff.1 hb
      have hspace : isSpace b = false := by
        simp only [isSpace, UInt8.le_iff_toNat_le, Bool.or_eq_false_iff, decide_eq_false_iff_not,
          Bool.and_eq_false_iff, ← UInt8.toNat_inj]
        exact ⟨by simp; omega, .inr (by simp; omega)⟩
      have hminus : b ≠ 45 := by
        rintro rfl
        exact absurd hlo (by decide)
      have hplus : b ≠ 43 := by
        rintro rfl
        exact absurd hlo (by decide)
      rw [List.dropWhile_cons_of_neg (by simp [hspace])]
      simp only [hminus, hplus, if_false, Bool.false_eq_true]
      rw [ofDigits_eq]

theorem pageSizeOf_of_writes {n : Nat} (h : WritesSize pageUnit v n) (hn : n < 2 ^ 32) :
    pageSizeOf v = n := by
  obtain ⟨hne, hval, hle⟩ := h.value pageUnit_letters
  have hval : n = ofDigits v * headUnit v := hval
  have hnum := headNumber_of_digit hne
  rw [pageSizeOf_eq, hnum, if_neg (by omega), ← Int.natCast_mul, ← hval]
  omega

theorem setsPage_iff : SetsPage v ↔
    (∃ n, WritesSize pageUnit v n ∧ Config.validPageSize n = true) ∨ FarFromPage v := by
  rw [farFromPage_iff]
  have hstored : ∀ c n, WritesSize pageUnit v n → Config.validPageSize n = true →
      setPageSize c v = n := by
    intro c n hw hvalid
    obtain ⟨-, hhi, -⟩ := MetaFile.validPageSize_iff.1 hvalid
    rw [setPageSize, pageSizeOf_of_writes hw (by omega), if_pos hvalid]
  constructor
  · intro h
    by_contra hno
    rw [not_or, not_exists, Bool.not_eq_false] at hno
    obtain ⟨hnone, haccepts⟩ := hno
    have hkeeps : ∀ c, Config.validPageSize c = true → pageSizeOf v = c := by
      intro c hc
      have hsame := (h c hc).2 fun n hw => Bool.eq_false_iff.2 fun hn => hnone n ⟨hw, hn⟩
      rwa [setPageSize, if_pos haccepts] at hsame
    exact absurd ((hkeeps 4096 rfl).symm.trans (hkeeps 8192 rfl)) (by decide)
  · rintro (⟨n, hw, hvalid⟩ | hfar) c hc
    · exact ⟨hstored c, fun hnone => absurd hvalid (by rw [hnone n hw]; decide)⟩
    · exact ⟨hstored c, fun _ => by rw [setPageSize, hfar, if_neg (by decide)]⟩

/-- [SRC Config.cc:60-91] When the readers of sizes mean what a text says.  `parseBytes` does when the
text does not begin with a digit, or is a size below 2^64; `setPageSize` does when the text is a valid
page size, or the integer at its head is too large, or no valid page size is congruent to it. -/
theorem sizes_exact_iff (v : Bytes) :
    (ReadsSize v ↔ (∀ b ∈ v.head?, isDigit b = false) ∨
      ∃ n, WritesSize byteUnit v n ∧ n < 2 ^ 64) ∧
    (SetsPage v ↔ (∃ n, WritesSize pageUnit v n ∧ Config.validPageSize n = true) ∨
      FarFromPage v) :=
  ⟨readsSize_iff, setsPage_iff⟩

/-- `2O` for `20` is two bytes; sixteen exbibytes are none, which turns the floor off; and one past
the largest 32-bit number makes a page size. -/
theorem sizes_reinterpreted :
    parseBytes (ascii "2O") = some 2 ∧ (¬ ∃ n, WritesSize byteUnit (ascii "2O") n) ∧
      parseBytes (ascii "16777216t") = some 0 ∧ ¬ ReadsSize (ascii "16777216t") ∧
      setPageSize 4096 (ascii "4294975488") = 8192 ∧ ¬ SetsPage (ascii "4294975488") := by
  have hparse : parseBytes (ascii "16777216t") = some 0 := by decide +kernel
  have hpage : setPageSize 4096 (ascii "4294975488") = 8192 := by decide +kernel
  refine ⟨by decide +kernel, ?_, hparse, fun h => ?_, hpage, fun h => ?_⟩
  · rintro ⟨n, hw⟩
    obtain ⟨-, ⟨htail, -⟩ | ⟨c, m, htail, hc, -⟩⟩ := (writesSize_iff byteUnit_letters).1 hw
    · exact absurd htail (by decide)
    · obtain rfl : c = 79 := by
        have hlist : [(79 : UInt8)] = [c] := htail
        exact (List.cons.inj hlist).1.symm
      have hunit : byteUnit 79 = none := rfl
      rw [hunit] at hc
      cases hc
  · obtain ⟨-, hval, -⟩ := ((h 0).1 hparse).1.value byteUnit_letters
    exact absurd hval (by decide +kernel)
  · have hkeep := (h 4096 rfl).2 fun n hw => ?_
    · exact absurd (hpage.symm.trans hkeep) (by decide)
    · obtain ⟨-, hval, -⟩ := hw.value pageUnit_letters
      rw [hval]
      decide +kernel

end CText

end UCache
