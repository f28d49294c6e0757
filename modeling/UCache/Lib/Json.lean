/-
Module: UCache.Lib.Json
Purpose: JSON texts by the grammar of RFC 8259, over bytes: which texts there are, how deep their
  containers nest, and the value each denotes.  Numbers keep their text; inside strings every byte but
  the quote and the backslash stands for itself.
Trusted boundary: none
Main exports: Json, Json.depth, Json.Number
-/
import Mathlib.Data.List.Basic
import Mathlib.Tactic.Common

namespace UCache.Lib

/-- A JSON value; members stay in order, repeated names included. -/
inductive Json where
  | null
  | bool (b : Bool)
  | number (text : List UInt8)
  | string (s : List UInt8)
  | array (elems : List Json)
  | object (members : List (List UInt8 × Json))
deriving Repr

namespace Json

/-! ### Values -/

theorem induct {P : Json → Prop} (null : P .null) (bool : ∀ b, P (.bool b))
    (number : ∀ text, P (.number text)) (string : ∀ s, P (.string s))
    (array : ∀ elems, (∀ e ∈ elems, P e) → P (.array elems))
    (object : ∀ members, (∀ m ∈ members, P m.2) → P (.object members)) (j : Json) : P j :=
  @Json.rec P (fun elems => ∀ e ∈ elems, P e) (fun members => ∀ m ∈ members, P m.2)
    (fun m => P m.2) null bool number string array object
    (fun _ he => absurd he List.not_mem_nil)
    (fun _ _ hhead htail => List.forall_mem_cons.2 ⟨hhead, htail⟩)
    (fun _ hm => absurd hm List.not_mem_nil)
    (fun _ _ hhead htail => List.forall_mem_cons.2 ⟨hhead, htail⟩)
    (fun _ _ hvalue => hvalue) j

mutual

/-- How deep containers nest in a value. -/
def depth : Json → Nat
  | .array elems => depthOf elems + 1
  | .object members => depthIn members + 1
  | _ => 0

def depthOf : List Json → Nat
  | [] => 0
  | e :: elems => max e.depth (depthOf elems)

def depthIn : List (List UInt8 × Json) → Nat
  | [] => 0
  | (_, v) :: members => max v.depth (depthIn members)

end

theorem depthOf_le {elems : List Json} {d : Nat} :
    depthOf elems ≤ d ↔ ∀ e ∈ elems, e.depth ≤ d := by
  induction elems with
  | nil => simp [depthOf]
  | cons e elems ih => rw [depthOf, Nat.max_le, ih, List.forall_mem_cons]

theorem depthIn_le {members : List (List UInt8 × Json)} {d : Nat} :
    depthIn members ≤ d ↔ ∀ m ∈ members, m.2.depth ≤ d := by
  induction members with
  | nil => simp [depthIn]
  | cons m members ih => rw [depthIn, Nat.max_le, ih, List.forall_mem_cons]

/-! ### Blanks and numbers -/

def isWs (b : UInt8) : Bool := b = 32 || b = 9 || b = 10 || b = 13

def Ws (w : List UInt8) : Prop := ∀ b ∈ w, isWs b = true

def isDigit (b : UInt8) : Bool := 48 ≤ b && b ≤ 57

def Digits (w : List UInt8) : Prop := w ≠ [] ∧ ∀ b ∈ w, isDigit b = true

/-- A zero alone, or digits that do not begin with one. -/
inductive IntPart : List UInt8 → Prop
  | zero : IntPart [48]
  | digits {d : UInt8} {ds : List UInt8} (hd : isDigit d = true) (hne : d ≠ 48)
      (hds : ∀ b ∈ ds, isDigit b = true) : IntPart (d :: ds)

inductive Frac : List UInt8 → Prop
  | none : Frac []
  | some {ds : List UInt8} (hds : Digits ds) : Frac (46 :: ds)

inductive Exp : List UInt8 → Prop
  | none : Exp []
  | some {e : UInt8} {sign ds : List UInt8} (he : e = 101 ∨ e = 69)
      (hsign : sign = [] ∨ sign = [43] ∨ sign = [45]) (hds : Digits ds) : Exp (e :: (sign ++ ds))

/-- A number of RFC 8259. -/
def Number (w : List UInt8) : Prop :=
  ∃ minus int frac exp, w = minus ++ (int ++ (frac ++ exp)) ∧ (minus = [] ∨ minus = [45]) ∧
    IntPart int ∧ Frac frac ∧ Exp exp

/-! ### Strings -/

/-- One character of a string: a byte, or a 16-bit code of a `\u` escape. -/
inductive StrUnit where
  | byte (b : UInt8)
  | code (cp : Nat)
deriving DecidableEq, Repr

def hexDigit (b : UInt8) : Option Nat :=
  if 48 ≤ b ∧ b ≤ 57 then some (b.toNat - 48)
  else if 97 ≤ b ∧ b ≤ 102 then some (b.toNat - 97 + 10)
  else if 65 ≤ b ∧ b ≤ 70 then some (b.toNat - 65 + 10) else none

/-- Four hexadecimal digits and the code they write. -/
inductive Hex4 : List UInt8 → Nat → Prop
  | digits {a b c d : UInt8} {na nb nc nd : Nat} (ha : hexDigit a = some na)
      (hb : hexDigit b = some nb) (hc : hexDigit c = some nc) (hd : hexDigit d = some nd) :
      Hex4 [a, b, c, d] (((na * 16 + nb) * 16 + nc) * 16 + nd)

/-- What a backslash and one more character stand for. -/
def simpleEscape (e : UInt8) : Option UInt8 :=
  if e = 34 then some 34 else if e = 92 then some 92 else if e = 47 then some 47
  else if e = 98 then some 8 else if e = 102 then some 12 else if e = 110 then some 10
  else if e = 114 then some 13 else if e = 116 then some 9 else none

/-- The text between the quotes. -/
inductive Chars : List UInt8 → List StrUnit → Prop
  | nil : Chars [] []
  | plain {b : UInt8} {w : List UInt8} {us : List StrUnit} (hquote : b ≠ 34) (hslash : b ≠ 92)
      (hw : Chars w us) : Chars (b :: w) (.byte b :: us)
  | escape {e b : UInt8} {w : List UInt8} {us : List StrUnit} (he : simpleEscape e = some b)
      (hw : Chars w us) : Chars (92 :: e :: w) (.byte b :: us)
  | unicode {h w : List UInt8} {cp : Nat} {us : List StrUnit} (hh : Hex4 h cp)
      (hw : Chars w us) : Chars (92 :: 117 :: (h ++ w)) (.code cp :: us)

/-- UTF-8. -/
def utf8 (cp : Nat) : List UInt8 :=
  if cp < 0x80 then [UInt8.ofNat cp]
  else if cp < 0x800 then [UInt8.ofNat (0xC0 ||| cp >>> 6), UInt8.ofNat (0x80 ||| cp &&& 0x3F)]
  else if cp < 0x10000 then
    [UInt8.ofNat (0xE0 ||| cp >>> 12), UInt8.ofNat (0x80 ||| cp >>> 6 &&& 0x3F),
      UInt8.ofNat (0x80 ||| cp &&& 0x3F)]
  else
    [UInt8.ofNat (0xF0 ||| cp >>> 18), UInt8.ofNat (0x80 ||| cp >>> 12 &&& 0x3F),
      UInt8.ofNat (0x80 ||| cp >>> 6 &&& 0x3F), UInt8.ofNat (0x80 ||| cp &&& 0x3F)]

def highSurrogate (cp : Nat) : Bool := 0xD800 ≤ cp && cp ≤ 0xDBFF

def lowSurrogate (cp : Nat) : Bool := 0xDC00 ≤ cp && cp ≤ 0xDFFF

def surrogatePair (hi lo : Nat) : Nat := 0x10000 + ((hi - 0xD800) <<< 10) + (lo - 0xDC00)

/-- A code on its own; a lone surrogate becomes the replacement character. -/
def scalar (cp : Nat) : Nat := if highSurrogate cp || lowSurrogate cp then 0xFFFD else cp

/-- The string its characters denote: surrogate pairs are combined. -/
def decode : List StrUnit → List UInt8
  | [] => []
  | .byte b :: us => b :: decode us
  | .code hi :: .code lo :: us =>
      if highSurrogate hi && lowSurrogate lo then utf8 (surrogatePair hi lo) ++ decode us
      else utf8 (scalar hi) ++ decode (.code lo :: us)
  | .code cp :: us => utf8 (scalar cp) ++ decode us

/-- A string literal and the string it denotes. -/
def Str (w s : List UInt8) : Prop :=
  ∃ body us, w = 34 :: (body ++ [34]) ∧ Chars body us ∧ s = decode us

/-! ### Texts -/

variable {α : Type}

/-- Blanks before and after. -/
def Padded (P : List UInt8 → α → Prop) (w : List UInt8) (a : α) : Prop :=
  ∃ before body after, w = before ++ (body ++ after) ∧ Ws before ∧ P body a ∧ Ws after

/-- One or more items with a separator between them. -/
inductive SepBy (sep : UInt8) (P : List UInt8 → α → Prop) : List UInt8 → List α → Prop
  | one {w : List UInt8} {a : α} (hw : P w a) : SepBy sep P w [a]
  | more {w ws : List UInt8} {a : α} {as : List α} (hw : P w a) (hws : SepBy sep P ws as) :
      SepBy sep P (w ++ sep :: ws) (a :: as)

/-- What stands between brackets: blanks, or items with commas between them. -/
inductive Listed (P : List UInt8 → α → Prop) : List UInt8 → List α → Prop
  | none {w : List UInt8} (hw : Ws w) : Listed P w []
  | some {w : List UInt8} {as : List α} (hw : SepBy 44 (Padded P) w as) : Listed P w as

inductive Scalar : List UInt8 → Json → Prop
  | null : Scalar [110, 117, 108, 108] .null
  | true : Scalar [116, 114, 117, 101] (.bool true)
  | false : Scalar [102, 97, 108, 115, 101] (.bool false)
  | number {w : List UInt8} (hw : Number w) : Scalar w (.number w)
  | string {w s : List UInt8} (hw : Str w s) : Scalar w (.string s)

/-- A name, a colon and a value. -/
def Member (V : List UInt8 → Json → Prop) (w : List UInt8) (m : List UInt8 × Json) : Prop :=
  ∃ name before after value, w = name ++ (before ++ 58 :: (after ++ value)) ∧ Str name m.1 ∧
    Ws before ∧ Ws after ∧ V value m.2

/-- An array or object whose values are `V`. -/
inductive Container (V : List UInt8 → Json → Prop) : List UInt8 → Json → Prop
  | array {w : List UInt8} {elems : List Json} (hw : Listed V w elems) :
      Container V (91 :: (w ++ [93])) (.array elems)
  | object {w : List UInt8} {members : List (List UInt8 × Json)} (hw : Listed (Member V) w members) :
      Container V (123 :: (w ++ [125])) (.object members)

/-- A value whose containers nest at most `d` deep. -/
def Value : Nat → List UInt8 → Json → Prop
  | 0, w, j => Scalar w j
  | d + 1, w, j => Scalar w j ∨ Container (Value d) w j

/-- A JSON text: a value with blanks around it. -/
def Text (d : Nat) : List UInt8 → Json → Prop := Padded (Value d)

end Json

end UCache.Lib
