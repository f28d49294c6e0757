/-
Module: UCache.Cli.JsonParse
Purpose: The reader of JSON texts in the publishing tool: recursive descent over the bytes that are
  left, with its checks, its messages and the depth it follows; and what its strings and numbers are.
Trusted boundary: none
Main exports: JsonFault, JsonParser.hex4, JsonParser.string
-/
import UCache.Core.MetaFile
import UCache.Lib.Faults
import UCache.Lib.Json
import Mathlib.Data.List.TakeWhile

namespace UCache

open Lib

/-- How a parse ends without a value: a message at the bytes that are left, or, as may never be, a
read past the end of the text or a loop that is out of turns. -/
inductive JsonFault where
  | fail (what : String) (left : Nat)
  | pastEnd
  | stuck
deriving DecidableEq, Repr

namespace JsonParser

/-- [SRC Publish.cc:145] -/
def kMaxDepth : Nat := 64

def fail {α : Type} (what : String) (left : Bytes) : Except JsonFault α :=
  .error (.fail what left.length)

/-- [SRC Publish.cc:161-164] -/
def ws (r : Bytes) : Bytes := r.dropWhile Json.isWs

/-! ### Strings -/

/-- [SRC Publish.cc:190-202] The digits are read without a check of their own. -/
def hexLoop : Nat → Nat → Bytes → Except JsonFault (Nat × Bytes)
  | 0, v, r => .ok (v, r)
  | _ + 1, _, [] => .error .pastEnd
  | k + 1, v, c :: r =>
      match Json.hexDigit c with
      | some d => hexLoop k (v * 16 + d) r
      | none => fail "bad \\u escape" r

/-- [SRC Publish.cc:187-204] -/
def hex4 (r : Bytes) : Except JsonFault (Nat × Bytes) :=
  if r.length < 4 then fail "truncated \\u escape" r else hexLoop 4 0 r

/-- [SRC Publish.cc:229-257] After `\u`: the bytes it stands for, in UTF-8.  A high surrogate takes a low
one right behind it along; else what follows is read on its own. -/
def unicodeEscape (r : Bytes) : Except JsonFault (Bytes × Bytes) := do
  let (cp, r) ← hex4 r
  if Json.highSurrogate cp then
    if 6 ≤ r.length then
      match r with
      | c₀ :: c₁ :: r' =>
          if c₀ = 92 ∧ c₁ = 117 then
            let (lo, r'') ← hex4 r'
            if Json.lowSurrogate lo then .ok (Json.utf8 (Json.surrogatePair cp lo), r'')
            else .ok (Json.utf8 0xFFFD, r)
          else .ok (Json.utf8 0xFFFD, r)
      | _ => .error .pastEnd
    else .ok (Json.utf8 0xFFFD, r)
  else if Json.lowSurrogate cp then .ok (Json.utf8 0xFFFD, r)
  else .ok (Json.utf8 cp, r)

/-- [SRC Publish.cc:210-259] One turn of the loop, after the character `c`: what it adds to the
string, or nothing for the closing quote. -/
def stringTurn (c : UInt8) (r : Bytes) : Except JsonFault (Option Bytes × Bytes) :=
  if c = 34 then .ok (none, r)
  else if c ≠ 92 then .ok (some [c], r)
  else
    match r with
    | [] => fail "truncated escape" []
    | e :: r =>
        match Json.simpleEscape e with
        | some b => .ok (some [b], r)
        | none =>
            if e = 117 then (unicodeEscape r).map fun p => (some p.1, p.2)
            else fail "unknown escape" r

def stringLoop : Nat → Bytes → Bytes → Except JsonFault (Bytes × Bytes)
  | _, _, [] => fail "unterminated string" []
  | 0, _, _ :: _ => .error .stuck
  | turns + 1, out, c :: r => do
      match ← stringTurn c r with
      | (none, r) => .ok (out, r)
      | (some b, r) => stringLoop turns (out ++ b) r

/-- [SRC Publish.cc:205-262] -/
def string (r : Bytes) : Except JsonFault (Bytes × Bytes) :=
  match r with
  | [] => fail "expected string" r
  | c :: rest => if c = 34 then stringLoop rest.length [] rest else fail "expected string" r

/-! ### Numbers -/

/-- [SRC Publish.cc:356-362] -/
def intPart (r : Bytes) : Except JsonFault Bytes :=
  let ds := r.takeWhile Json.isDigit
  let rest := r.dropWhile Json.isDigit
  if ds = [] then fail "bad number" rest
  else if ds.head? = some 48 ∧ 1 < ds.length then fail "leading zero" rest
  else .ok rest

/-- [SRC Publish.cc:363-370] -/
def fraction (r : Bytes) : Except JsonFault Bytes :=
  match r with
  | [] => .ok r
  | c :: r' =>
      if c = 46 then
        if r'.takeWhile Json.isDigit = [] then fail "bad fraction" r'
        else .ok (r'.dropWhile Json.isDigit)
      else .ok r

/-- [SRC Publish.cc:373-374] -/
def skipSign (r : Bytes) : Bytes :=
  match r with
  | [] => r
  | c :: r' => if c = 43 ∨ c = 45 then r' else r

/-- [SRC Publish.cc:371-382] -/
def exponent (r : Bytes) : Except JsonFault Bytes :=
  match r with
  | [] => .ok r
  | c :: r' =>
      if c = 101 ∨ c = 69 then
        let r'' := skipSign r'
        if r''.takeWhile Json.isDigit = [] then fail "bad exponent" r''
        else .ok (r''.dropWhile Json.isDigit)
      else .ok r

def skipMinus (r : Bytes) : Bytes :=
  match r with
  | [] => r
  | c :: r' => if c = 45 then r' else r

/-- [SRC Publish.cc:352-385] -/
def number (r : Bytes) : Except JsonFault (Json × Bytes) := do
  let rest ← intPart (skipMinus r) >>= fraction >>= exponent
  .ok (.number (r.take (r.length - rest.length)), rest)

/-! ### Values -/

section Containers

variable {α : Type}

/-- [SRC Publish.cc:279-302, 313-328] The loop over the items of an object or an array. -/
def items (item : Bytes → Except JsonFault (α × Bytes)) (close : UInt8) (what : String)
    (wrap : List α → Json) : Nat → List α → Bytes → Except JsonFault (Json × Bytes)
  | 0, _, _ => .error .stuck
  | turns + 1, acc, r => do
      let (x, r) ← item r
      match ws r with
      | [] => fail what []
      | c :: r =>
          if c = 44 then items item close what wrap turns (acc ++ [x]) r
          else if c = close then .ok (wrap (acc ++ [x]), r)
          else fail what (c :: r)

/-- [SRC Publish.cc:270-278, 304-312] After the opening bracket. -/
def container (item : Bytes → Except JsonFault (α × Bytes)) (close : UInt8) (what : String)
    (wrap : List α → Json) (r : Bytes) : Except JsonFault (Json × Bytes) :=
  match ws r with
  | [] => items item close what wrap 1 [] []
  | c :: rest =>
      if c = close then .ok (wrap [], rest)
      else items item close what wrap (rest.length + 2) [] (c :: rest)

-- how a value one level deeper is read
variable (inner : Bytes → Except JsonFault (Json × Bytes))

/-- [SRC Publish.cc:280-291] One member of an object. -/
def member (r : Bytes) : Except JsonFault ((Bytes × Json) × Bytes) := do
  let (key, r) ← string (ws r)
  match ws r with
  | [] => fail "expected ':'" []
  | c :: r =>
      if c = 58 then do
        let (v, r) ← inner r
        .ok ((key, v), r)
      else fail "expected ':'" (c :: r)

def array (r : Bytes) : Except JsonFault (Json × Bytes) :=
  container inner 93 "expected ',' or ']'" .array r

def object (r : Bytes) : Except JsonFault (Json × Bytes) :=
  container (member inner) 125 "expected ',' or '\x7d'" .object r

end Containers

/-- [SRC Publish.cc:330-386] A value that is no container; `r` begins with `c`. -/
def scalar (c : UInt8) (r : Bytes) : Except JsonFault (Json × Bytes) :=
  if c = 34 then (string r).map fun p => (.string p.1, p.2)
  else if r.take 4 = [116, 114, 117, 101] then .ok (.bool true, r.drop 4)
  else if r.take 5 = [102, 97, 108, 115, 101] then .ok (.bool false, r.drop 5)
  else if r.take 4 = [110, 117, 108, 108] then .ok (.null, r.drop 4)
  else if c = 45 ∨ Json.isDigit c then number r
  else fail "unexpected character" r

/-- [SRC Publish.cc:263-387] A value; containers in it are read by `inner`, or not at all once the
depth is reached. -/
def valueAt (inner : Option (Bytes → Except JsonFault (Json × Bytes))) (r : Bytes) :
    Except JsonFault (Json × Bytes) :=
  match ws r with
  | [] => fail "unexpected end" []
  | c :: rest =>
      if c = 123 ∨ c = 91 then
        match inner with
        | none => fail "nesting too deep" (c :: rest)
        | some inner => if c = 123 then object inner rest else array inner rest
      else scalar c (c :: rest)

/-- A value with `room` levels left: `kMaxDepth - depth`. -/
def value : Nat → Bytes → Except JsonFault (Json × Bytes)
  | 0 => valueAt none
  | room + 1 => valueAt (some (value room))

/-- [SRC Publish.cc:445-461] -/
def parse (text : Bytes) : Except JsonFault Json := do
  let (v, r) ← value kMaxDepth text
  if ws r = [] then .ok v else fail "trailing characters" (ws r)

/-! ### Blanks and escapes -/

variable {r w : Bytes}

theorem ws_append {a : Bytes} (ha : Json.Ws a) : ws (a ++ r) = ws r :=
  List.dropWhile_append_of_pos ha

theorem ws_cons {c : UInt8} {t : Bytes} (hc : Json.isWs c = false) : ws (c :: t) = c :: t :=
  List.dropWhile_cons_of_neg (by simp [hc])

theorem ws_split (r : Bytes) : ∃ a, r = a ++ ws r ∧ Json.Ws a :=
  ⟨r.takeWhile Json.isWs, List.takeWhile_append_dropWhile.symm,
    fun _ hb => List.mem_takeWhile_imp hb⟩

theorem hexLoop_cons {k v : Nat} {c : UInt8} {p : Nat × Bytes} :
    hexLoop (k + 1) v (c :: r) = .ok p ↔
      ∃ d, Json.hexDigit c = some d ∧ hexLoop k (v * 16 + d) r = .ok p := by
  cases hd : Json.hexDigit c <;> simp [hexLoop, hd, fail]

theorem hex4_iff {rest : Bytes} {cp : Nat} :
    hex4 r = .ok (cp, rest) ↔ ∃ h, r = h ++ rest ∧ Json.Hex4 h cp := by
  constructor
  · intro h
    unfold hex4 at h
    split at h
    · cases h
    · rename_i hlen
      obtain ⟨a, b, c, d, t, rfl⟩ : ∃ a b c d t, r = a :: b :: c :: d :: t := by
        match r, hlen with
        | a :: b :: c :: d :: t, _ => exact ⟨a, b, c, d, t, rfl⟩
        | [], hlen | [_], hlen | [_, _], hlen | [_, _, _], hlen => simp at hlen
      obtain ⟨na, ha, h⟩ := hexLoop_cons.1 h
      obtain ⟨nb, hb, h⟩ := hexLoop_cons.1 h
      obtain ⟨nc, hc, h⟩ := hexLoop_cons.1 h
      obtain ⟨nd, hd, h⟩ := hexLoop_cons.1 h
      cases h
      refine ⟨[a, b, c, d], rfl, ?_⟩
      rw [Nat.zero_mul, Nat.zero_add]
      exact .digits ha hb hc hd
  · rintro ⟨_, rfl, ⟨ha, hb, hc, hd⟩⟩
    unfold hex4
    rw [if_neg (by simp)]
    simp [hexLoop, ha, hb, hc, hd]

/-- What follows is no low surrogate that the escape before it could take along. -/
inductive NotLow (r : Bytes) : Prop
  | other (h : ∀ t, r ≠ 92 :: 117 :: t)
  | short (h : r.length < 6)
  | code {w t : Bytes} {cp : Nat} (hr : r = 92 :: 117 :: (w ++ t)) (hw : Json.Hex4 w cp)
      (hlow : Json.lowSurrogate cp = false)

/-- What a `\u` escape comes to. -/
inductive Escape (r : Bytes) : Bytes → Bytes → Prop
  | code {h r' : Bytes} {cp : Nat} (hr : r = h ++ r') (hh : Json.Hex4 h cp)
      (hnot : Json.highSurrogate cp = true → NotLow r') : Escape r (Json.utf8 (Json.scalar cp)) r'
  | pair {h h' r' : Bytes} {hi lo : Nat} (hr : r = h ++ 92 :: 117 :: (h' ++ r'))
      (hh : Json.Hex4 h hi) (hh' : Json.Hex4 h' lo) (hhi : Json.highSurrogate hi = true)
      (hlo : Json.lowSurrogate lo = true) : Escape r (Json.utf8 (Json.surrogatePair hi lo)) r'

theorem scalar_high {cp : Nat} (h : Json.highSurrogate cp = true) : Json.scalar cp = 0xFFFD := by
  simp [Json.scalar, h]

theorem Hex4.length {cp : Nat} (h : Json.Hex4 w cp) : w.length = 4 := by
  cases h
  rfl

/-- Four digits at the same place write the same code. -/
theorem Hex4.unique {w' t t' : Bytes} {cp cp' : Nat} (h : Json.Hex4 w cp) (h' : Json.Hex4 w' cp')
    (heq : w ++ t = w' ++ t') : w = w' ∧ cp = cp' ∧ t = t' := by
  obtain ⟨rfl, rfl⟩ := List.append_inj heq ((Hex4.length h).trans (Hex4.length h').symm)
  refine ⟨rfl, ?_, rfl⟩
  have hread := hex4_iff.2 ⟨w, (List.append_nil w).symm, h⟩
  rw [hex4_iff.2 ⟨w, (List.append_nil w).symm, h'⟩] at hread
  cases hread
  rfl

theorem unicodeEscape_iff {out r' : Bytes} : unicodeEscape r = .ok (out, r') ↔ Escape r out r' := by
  constructor
  · intro hrun
    obtain ⟨⟨cp, t⟩, hcp, h⟩ := bind_eq_ok hrun
    clear hrun
    obtain ⟨w, rfl, hw⟩ := hex4_iff.1 hcp
    dsimp only at h
    split at h
    · rename_i hhigh
      rw [← scalar_high hhigh] at h
      split at h
      · split at h
        · rename_i c₀ c₁ t hlen
          split at h
          · rename_i hc
            obtain ⟨rfl, rfl⟩ := hc
            obtain ⟨⟨lo, t'⟩, hlo, hrest⟩ := bind_eq_ok h
            clear h
            obtain ⟨w', rfl, hw'⟩ := hex4_iff.1 hlo
            dsimp only at hrest
            split at hrest
            · rename_i hlow
              rw [Except.ok.injEq, Prod.mk.injEq] at hrest
              obtain ⟨rfl, rfl⟩ := hrest
              exact .pair rfl hw hw' hhigh hlow
            · rename_i hlow
              cases hrest
              exact .code rfl hw fun _ => .code rfl hw' (by simpa using hlow)
          · rename_i hc
            cases h
            refine .code rfl hw fun _ => .other fun t' heq => hc ?_
            simp only [List.cons.injEq] at heq
            exact ⟨heq.1, heq.2.1⟩
        · cases h
      · rename_i hlen
        cases h
        exact .code rfl hw fun _ => .short (by omega)
    · rename_i hhigh
      split at h
      · rename_i hlow
        cases h
        have hscalar : Json.scalar cp = 0xFFFD := by simp [Json.scalar, hlow]
        rw [← hscalar]
        exact .code rfl hw fun h => absurd h hhigh
      · rename_i hlow
        cases h
        have hscalar : Json.scalar cp = cp := by simp [Json.scalar, hhigh, hlow]
        nth_rewrite 1 [← hscalar]
        exact .code rfl hw fun h => absurd h hhigh
  · intro h
    cases h with
    | @code w r' cp hr hh hnot =>
        subst hr
        have hread : hex4 (w ++ r') = .ok (cp, r') := hex4_iff.2 ⟨w, rfl, hh⟩
        rw [unicodeEscape, hread]
        show (if Json.highSurrogate cp then _ else _) = _
        by_cases hhigh : Json.highSurrogate cp = true
        · rw [if_pos hhigh, scalar_high hhigh]
          cases hnot hhigh with
          | other h =>
              split
              · rename_i hlen
                match r', hlen with
                | c₀ :: c₁ :: t, _ =>
                    refine if_neg fun hc => h t ?_
                    rw [hc.1, hc.2]
              · rfl
          | short h => exact if_neg (by omega)
          | @code w' t lo hr hw' hlow =>
              subst hr
              have hlen := Hex4.length hw'
              rw [if_pos (by simp; omega)]
              show (if _ then _ else _) = _
              rw [if_pos ⟨rfl, rfl⟩, hex4_iff.2 ⟨w', rfl, hw'⟩]
              exact if_neg (by simp [hlow])
        · rw [if_neg hhigh]
          split
          · rename_i hlow
            simp [Json.scalar, hlow]
          · rename_i hlow
            simp [Json.scalar, hhigh, hlow]
    | @pair w w' r' hi lo hr hh hh' hhi hlo =>
        subst hr
        have hread : hex4 (w ++ 92 :: 117 :: (w' ++ r')) = .ok (hi, 92 :: 117 :: (w' ++ r')) :=
          hex4_iff.2 ⟨w, rfl, hh⟩
        have hlen := Hex4.length hh'
        rw [unicodeEscape, hread]
        show (if Json.highSurrogate hi then _ else _) = _
        rw [if_pos hhi, if_pos (by simp; omega)]
        show (if _ then _ else _) = _
        rw [if_pos ⟨rfl, rfl⟩, hex4_iff.2 ⟨w', rfl, hh'⟩]
        exact if_pos hlo

/-! ### Strings against their grammar -/

/-- What one turn of the loop over a string does. -/
inductive Turn (c : UInt8) (r : Bytes) : Option Bytes → Bytes → Prop
  | close (hc : c = 34) : Turn c r none r
  | plain (hquote : c ≠ 34) (hslash : c ≠ 92) : Turn c r (some [c]) r
  | escape {e b : UInt8} {r' : Bytes} (hc : c = 92) (hr : r = e :: r')
      (he : Json.simpleEscape e = some b) : Turn c r (some [b]) r'
  | unicode {t out r' : Bytes} (hc : c = 92) (hr : r = 117 :: t) (hout : Escape t out r') :
      Turn c r (some out) r'

theorem stringTurn_iff {c : UInt8} {r' : Bytes} {o : Option Bytes} :
    stringTurn c r = .ok (o, r') ↔ Turn c r o r' := by
  constructor
  · intro h
    unfold stringTurn at h
    split at h
    · rename_i hc
      cases h
      exact .close hc
    · rename_i hquote
      split at h
      · rename_i hslash
        cases h
        exact .plain hquote hslash
      · rename_i hslash
        have hc : c = 92 := by simpa using hslash
        split at h
        · cases h
        · rename_i e t
          split at h
          · rename_i b he
            cases h
            exact .escape hc rfl he
          · split at h
            · rename_i hu
              subst hu
              cases hout : unicodeEscape t with
              | error e => rw [hout] at h; cases h
              | ok p =>
                  rw [hout] at h
                  cases h
                  exact .unicode hc rfl (unicodeEscape_iff.1 hout)
            · cases h
  · intro h
    unfold stringTurn
    cases h with
    | close hc => exact if_pos hc
    | plain hquote hslash => rw [if_neg hquote, if_pos hslash]
    | escape hc hr he =>
        subst hc hr
        rw [if_neg (by decide), if_neg (by decide)]
        simp only [he]
    | unicode hc hr hout =>
        subst hc hr
        rw [if_neg (by decide), if_neg (by decide)]
        show (if (117 : UInt8) = 117 then _ else _) = _
        rw [if_pos rfl, unicodeEscape_iff.2 hout]
        rfl

theorem decode_code {cp : Nat} {us : List Json.StrUnit}
    (h : Json.highSurrogate cp = true →
      ∀ lo us', us = .code lo :: us' → Json.lowSurrogate lo = false) :
    Json.decode (.code cp :: us) = Json.utf8 (Json.scalar cp) ++ Json.decode us := by
  cases us with
  | nil => rfl
  | cons u us =>
      cases u with
      | byte b => rfl
      | code lo =>
          rw [Json.decode, if_neg]
          rw [Bool.and_eq_true]
          rintro ⟨hhigh, hlow⟩
          rw [h hhigh lo us rfl] at hlow
          cases hlow

/-- At the closing quote of a string's text, or at an escape in it, the reader sees what the
characters are. -/
theorem notLow_iff {rest : Bytes} {us : List Json.StrUnit} (h : Json.Chars w us) :
    NotLow (w ++ 34 :: rest) ↔ ∀ lo us', us = .code lo :: us' → Json.lowSurrogate lo = false := by
  cases h with
  | nil => exact ⟨fun _ lo us' heq => by simp at heq, fun _ => .other fun t heq => by simp at heq⟩
  | plain hquote hslash hw =>
      refine ⟨fun _ lo us' heq => by simp at heq, fun _ => .other fun t heq => hslash ?_⟩
      exact (List.cons.inj heq).1
  | @escape e b w us he hw =>
      refine ⟨fun _ lo us' heq => by simp at heq, fun _ => .other fun t heq => ?_⟩
      simp only [List.cons_append, List.cons.injEq, true_and] at heq
      rw [heq.1] at he
      cases he
  | @unicode x w cp us hx hw =>
      constructor
      · intro hnot lo us' heq
        obtain ⟨hcp, -⟩ := List.cons.inj heq
        obtain rfl : cp = lo := Json.StrUnit.code.inj hcp
        cases hnot with
        | other h => exact (h (x ++ (w ++ 34 :: rest)) (by simp)).elim
        | short h =>
            have hlen := Hex4.length hx
            simp only [List.cons_append, List.length_cons, List.length_append] at h
            omega
        | code hr hw' hlow =>
            simp only [List.cons_append, List.cons.injEq, true_and, List.append_assoc] at hr
            obtain ⟨-, rfl, -⟩ := Hex4.unique hx hw' hr
            exact hlow
      · intro h
        exact .code (t := w ++ 34 :: rest) (by simp) hx (h cp us rfl)

theorem stringLoop_turn {c : UInt8} {r' out : Bytes} {o : Option Bytes} (turns : Nat)
    (h : Turn c r o r') : stringLoop (turns + 1) out (c :: r) =
      match o with
      | none => .ok (out, r')
      | some b => stringLoop turns (out ++ b) r' := by
  rw [stringLoop, stringTurn_iff.2 h]
  cases o <;> rfl

/-- With turns enough for what is left, the loop reads a string's text and the quote after it. -/
theorem stringLoop_complete {rest out : Bytes} {us : List Json.StrUnit} (h : Json.Chars w us)
    {turns : Nat} (hturns : w.length < turns) :
    stringLoop turns out (w ++ 34 :: rest) = .ok (out ++ Json.decode us, rest) := by
  induction hn : w.length using Nat.strong_induction_on generalizing w us out turns with
  | _ n ih =>
      obtain ⟨turns, rfl⟩ : ∃ t, turns = t + 1 := ⟨turns - 1, by omega⟩
      cases h with
      | nil =>
          refine (stringLoop_turn turns (.close rfl)).trans ?_
          rw [Json.decode, List.append_nil]
      | @plain b w us hquote hslash hw =>
          simp only [List.length_cons] at hn hturns
          refine (stringLoop_turn turns (.plain hquote hslash)).trans ?_
          refine (ih w.length (by omega) hw (by omega) rfl).trans ?_
          rw [Json.decode, List.append_assoc, List.singleton_append]
      | @escape e b w us he hw =>
          simp only [List.length_cons] at hn hturns
          refine (stringLoop_turn turns (.escape rfl rfl he)).trans ?_
          refine (ih w.length (by omega) hw (by omega) rfl).trans ?_
          rw [Json.decode, List.append_assoc, List.singleton_append]
      | @unicode x w cp us hx hw =>
          simp only [List.length_cons, List.length_append] at hn hturns
          have hassoc : 92 :: 117 :: (x ++ w) ++ 34 :: rest = 92 :: 117 :: (x ++ (w ++ 34 :: rest)) := by
            simp
          rw [hassoc]
          by_cases hpair : Json.highSurrogate cp = true ∧
              ∃ lo us', us = .code lo :: us' ∧ Json.lowSurrogate lo = true
          · obtain ⟨hhigh, lo, us', rfl, hlow⟩ := hpair
            cases hw with
            | @unicode x' w' _ _ hx' hw' =>
                simp only [List.length_cons, List.length_append] at hn hturns
                have hsplit : x ++ (92 :: 117 :: (x' ++ w') ++ 34 :: rest) =
                    x ++ 92 :: 117 :: (x' ++ (w' ++ 34 :: rest)) := by
                  simp
                refine (stringLoop_turn turns (.unicode rfl rfl
                  (.pair hsplit hx hx' hhigh hlow))).trans ?_
                refine (ih w'.length (by omega) hw' (by omega) rfl).trans ?_
                rw [Json.decode, if_pos (by rw [hhigh, hlow]; rfl), List.append_assoc]
          · have hsingle : Json.highSurrogate cp = true →
                ∀ lo us', us = .code lo :: us' → Json.lowSurrogate lo = false := by
              intro hhigh lo us' heq
              by_contra hlow
              exact hpair ⟨hhigh, lo, us', heq, by simpa using hlow⟩
            refine (stringLoop_turn turns (.unicode rfl rfl (.code rfl hx
              fun hhigh => (notLow_iff hw).2 (hsingle hhigh)))).trans ?_
            refine (ih w.length (by omega) hw (by omega) rfl).trans ?_
            rw [decode_code hsingle, List.append_assoc]

theorem stringLoop_sound {turns : Nat} {out s rest : Bytes}
    (h : stringLoop turns out r = .ok (s, rest)) :
    ∃ w us, r = w ++ 34 :: rest ∧ Json.Chars w us ∧ s = out ++ Json.decode us := by
  induction turns generalizing out r with
  | zero => cases r <;> cases h
  | succ turns ih =>
      cases r with
      | nil => cases h
      | cons c r =>
          obtain ⟨⟨o, r'⟩, hturn, hrest⟩ := bind_eq_ok h
          clear h
          cases stringTurn_iff.1 hturn with
          | close hc =>
              subst hc
              cases hrest
              exact ⟨[], [], rfl, .nil, (List.append_nil _).symm⟩
          | plain hquote hslash =>
              obtain ⟨w, us, rfl, hw, rfl⟩ := ih hrest
              exact ⟨c :: w, .byte c :: us, rfl, .plain hquote hslash hw, by simp [Json.decode]⟩
          | @escape e b r' hc hr he =>
              obtain ⟨w, us, rfl, hw, rfl⟩ := ih hrest
              subst hc hr
              exact ⟨92 :: e :: w, .byte b :: us, rfl, .escape he hw, by simp [Json.decode]⟩
          | unicode hc hr hout =>
              obtain ⟨w, us, rfl, hw, rfl⟩ := ih hrest
              subst hc hr
              cases hout with
              | @code x _ cp hr hx hnot =>
                  refine ⟨92 :: 117 :: (x ++ w), .code cp :: us, by simp [hr], .unicode hx hw, ?_⟩
                  rw [decode_code fun hhigh => (notLow_iff hw).1 (hnot hhigh), List.append_assoc]
              | @pair x x' _ hi lo hr hx hx' hhi hlo =>
                  refine ⟨92 :: 117 :: (x ++ 92 :: 117 :: (x' ++ w)), .code hi :: .code lo :: us,
                    by simp [hr], .unicode hx (.unicode hx' hw), ?_⟩
                  rw [Json.decode, if_pos (by rw [hhi, hlo]; rfl), List.append_assoc]

theorem string_iff {s rest : Bytes} :
    string r = .ok (s, rest) ↔ ∃ w, r = w ++ rest ∧ Json.Str w s := by
  constructor
  · intro h
    unfold string at h
    split at h
    · cases h
    · split at h
      · rename_i c t hc
        obtain ⟨w, us, rfl, hw, rfl⟩ := stringLoop_sound h
        exact ⟨c :: (w ++ [34]), by simp, w, us, by rw [hc], hw, rfl⟩
      · cases h
  · rintro ⟨_, rfl, w, us, rfl, hw, rfl⟩
    have hcons : 34 :: (w ++ [34]) ++ rest = 34 :: (w ++ 34 :: rest) := by simp
    rw [hcons, string, if_pos rfl, stringLoop_complete hw (by simp)]
    rfl

/-! ### Numbers against their grammar -/

def NoDigit (rest : Bytes) : Prop := ∀ c ∈ rest.head?, Json.isDigit c = false

theorem digits_split (r : Bytes) :
    r = r.takeWhile Json.isDigit ++ r.dropWhile Json.isDigit ∧
      ∀ b ∈ r.takeWhile Json.isDigit, Json.isDigit b = true :=
  ⟨List.takeWhile_append_dropWhile.symm, fun _ hb => List.mem_takeWhile_imp hb⟩

theorem takeWhile_digits {ds rest : Bytes} (hds : ∀ b ∈ ds, Json.isDigit b = true)
    (hrest : NoDigit rest) : (ds ++ rest).takeWhile Json.isDigit = ds ∧
      (ds ++ rest).dropWhile Json.isDigit = rest := by
  rw [List.takeWhile_append_of_pos hds, List.dropWhile_append_of_pos hds]
  cases rest with
  | nil => exact ⟨List.append_nil ds, rfl⟩
  | cons c rest =>
      have hc : ¬ Json.isDigit c = true := by simp [hrest c rfl]
      exact ⟨by rw [List.takeWhile_cons_of_neg hc, List.append_nil],
        List.dropWhile_cons_of_neg hc⟩

theorem intPart_sound {rest : Bytes} (h : intPart r = .ok rest) :
    ∃ w, r = w ++ rest ∧ Json.IntPart w := by
  obtain ⟨hsplit, hds⟩ := digits_split r
  unfold intPart at h
  dsimp only at h
  generalize r.takeWhile Json.isDigit = ds at h hsplit hds
  split at h
  · cases h
  · rename_i hne
    split at h
    · cases h
    · rename_i hzero
      cases h
      refine ⟨ds, hsplit, ?_⟩
      cases ds with
      | nil => exact absurd rfl hne
      | cons d ds =>
          by_cases hd : d = 48
          · subst hd
            have hds : ds = [] := by
              by_contra hnil
              exact hzero ⟨rfl, by simpa using List.length_pos_iff.2 hnil⟩
            rw [hds]
            exact .zero
          · exact .digits (hds d List.mem_cons_self) hd
              fun b hb => hds b (List.mem_cons_of_mem d hb)

theorem intPart_complete {rest : Bytes} (hw : Json.IntPart w) (hrest : NoDigit rest) :
    intPart (w ++ rest) = .ok rest := by
  cases hw with
  | zero =>
      obtain ⟨htake, hdrop⟩ := @takeWhile_digits [48] _ (by simp; decide) hrest
      rw [intPart, htake, hdrop]
      rfl
  | @digits d ds hd hne hds =>
      obtain ⟨htake, hdrop⟩ := @takeWhile_digits (d :: ds) rest
        (List.forall_mem_cons.2 ⟨hd, hds⟩) hrest
      rw [intPart, htake, hdrop]
      exact (if_neg (by simp)).trans (if_neg (by simp [hne]))

theorem fraction_sound {rest : Bytes} (h : fraction r = .ok rest) :
    ∃ w, r = w ++ rest ∧ Json.Frac w := by
  unfold fraction at h
  split at h
  · cases h
    exact ⟨[], rfl, .none⟩
  · rename_i c r
    split at h
    · rename_i hc
      obtain ⟨hsplit, hds⟩ := digits_split r
      split at h
      · cases h
      · rename_i hne
        cases h
        refine ⟨46 :: r.takeWhile Json.isDigit, ?_, .some ⟨hne, hds⟩⟩
        rw [hc, List.cons_append, ← hsplit]
    · cases h
      exact ⟨[], rfl, .none⟩

theorem fraction_complete {rest : Bytes} (hw : Json.Frac w) (hrest : NoDigit rest)
    (hdot : 46 ∉ rest.head?) : fraction (w ++ rest) = .ok rest := by
  cases hw with
  | none =>
      cases rest with
      | nil => rfl
      | cons c rest => exact if_neg fun hc => hdot (by rw [hc]; rfl)
  | @some ds hds =>
      obtain ⟨htake, hdrop⟩ := takeWhile_digits hds.2 hrest
      rw [List.cons_append, fraction, if_pos rfl, htake, hdrop]
      exact if_neg hds.1

theorem skipSign_split (r : Bytes) :
    ∃ sign, r = sign ++ skipSign r ∧ (sign = [] ∨ sign = [43] ∨ sign = [45]) := by
  unfold skipSign
  cases r with
  | nil => exact ⟨[], rfl, .inl rfl⟩
  | cons c r =>
      by_cases hc : c = 43 ∨ c = 45
      · simp only [hc, if_true]
        exact ⟨[c], rfl, .inr (by simpa using hc)⟩
      · simp only [hc, if_false]
        exact ⟨[], rfl, .inl rfl⟩

theorem skipSign_append {sign ds rest : Bytes}
    (hsign : sign = [] ∨ sign = [43] ∨ sign = [45]) (hds : Json.Digits ds) :
    skipSign (sign ++ (ds ++ rest)) = ds ++ rest := by
  obtain ⟨hne, hds⟩ := hds
  rcases hsign with rfl | rfl | rfl
  · cases ds with
    | nil => exact absurd rfl hne
    | cons d ds =>
        have hd := hds d List.mem_cons_self
        refine if_neg ?_
        rintro (rfl | rfl) <;> exact absurd hd (by decide)
  · rfl
  · rfl

theorem exponent_sound {rest : Bytes} (h : exponent r = .ok rest) :
    ∃ w, r = w ++ rest ∧ Json.Exp w := by
  unfold exponent at h
  split at h
  · cases h
    exact ⟨[], rfl, .none⟩
  · rename_i c r
    split at h
    · rename_i hc
      obtain ⟨sign, hr, hsign⟩ := skipSign_split r
      obtain ⟨hsplit, hds⟩ := digits_split (skipSign r)
      dsimp only at h
      split at h
      · cases h
      · rename_i hne
        cases h
        refine ⟨c :: (sign ++ (skipSign r).takeWhile Json.isDigit), ?_, .some hc hsign ⟨hne, hds⟩⟩
        rw [List.cons_append, List.append_assoc, ← hsplit, ← hr]
    · cases h
      exact ⟨[], rfl, .none⟩

theorem exponent_complete {rest : Bytes} (hw : Json.Exp w) (hrest : NoDigit rest)
    (hexp : 101 ∉ rest.head? ∧ 69 ∉ rest.head?) : exponent (w ++ rest) = .ok rest := by
  cases hw with
  | none =>
      cases rest with
      | nil => rfl
      | cons c rest =>
          refine if_neg ?_
          rintro (rfl | rfl)
          · exact hexp.1 rfl
          · exact hexp.2 rfl
  | @some e sign ds he hsign hds =>
      obtain ⟨htake, hdrop⟩ := takeWhile_digits hds.2 hrest
      have hskip := @skipSign_append _ _ rest hsign hds
      rw [List.cons_append, List.append_assoc]
      refine (if_pos he).trans ?_
      rw [hskip, htake, hdrop]
      exact if_neg hds.1

/-- What may follow a number: nothing that would go on with it. -/
def Stops (rest : Bytes) : Prop :=
  ∀ c ∈ rest.head?, Json.isDigit c = false ∧ c ≠ 46 ∧ c ≠ 101 ∧ c ≠ 69

theorem skipMinus_split (r : Bytes) :
    ∃ minus, r = minus ++ skipMinus r ∧ (minus = [] ∨ minus = [45]) := by
  unfold skipMinus
  cases r with
  | nil => exact ⟨[], rfl, .inl rfl⟩
  | cons c r =>
      by_cases hc : c = 45
      · simp only [hc, if_true]
        exact ⟨[45], rfl, .inr rfl⟩
      · simp only [hc, if_false]
        exact ⟨[], rfl, .inl rfl⟩

theorem number_sound {rest : Bytes} {j : Json} (h : number r = .ok (j, rest)) :
    ∃ w, r = w ++ rest ∧ Json.Number w ∧ j = .number w := by
  obtain ⟨minus, hminus, hsign⟩ := skipMinus_split r
  obtain ⟨r₃, hr₃, hok⟩ := bind_eq_ok h
  obtain ⟨r₂, hr₂, hexp⟩ := bind_eq_ok hr₃
  obtain ⟨r₁, hr₁, hfrac⟩ := bind_eq_ok hr₂
  obtain ⟨int, hint, hI⟩ := intPart_sound hr₁
  obtain ⟨frac, rfl, hF⟩ := fraction_sound hfrac
  obtain ⟨exp, rfl, hE⟩ := exponent_sound hexp
  cases hok
  have hr : r = minus ++ (int ++ (frac ++ exp)) ++ rest := by
    rw [hminus, hint]
    simp only [List.append_assoc]
  refine ⟨_, hr, ⟨minus, int, frac, exp, rfl, hsign, hI, hF, hE⟩, ?_⟩
  rw [hr, List.length_append, Nat.add_sub_cancel, List.take_left]

theorem IntPart.head (h : Json.IntPart w) : ∃ c t, w = c :: t ∧ Json.isDigit c = true := by
  cases h with
  | zero => exact ⟨48, [], rfl, rfl⟩
  | digits hd _ _ => exact ⟨_, _, rfl, hd⟩

theorem number_complete {rest : Bytes} (hw : Json.Number w) (hrest : Stops rest) :
    number (w ++ rest) = .ok (.number w, rest) := by
  obtain ⟨minus, int, frac, exp, rfl, hsign, hI, hF, hE⟩ := hw
  have hdigit : NoDigit rest := fun c hc => (hrest c hc).1
  have hexp : exponent (exp ++ rest) = .ok rest :=
    exponent_complete hE hdigit ⟨fun h => (hrest _ h).2.2.1 rfl, fun h => (hrest _ h).2.2.2 rfl⟩
  have hafter : NoDigit (exp ++ rest) ∧ 46 ∉ (exp ++ rest).head? := by
    cases hE with
    | none => exact ⟨hdigit, fun h => (hrest _ h).2.1 rfl⟩
    | some he _ _ => rcases he with rfl | rfl <;> exact ⟨by simp [NoDigit]; decide, by simp⟩
  have hfrac : fraction (frac ++ (exp ++ rest)) = .ok (exp ++ rest) :=
    fraction_complete hF hafter.1 hafter.2
  have hpoint : NoDigit (frac ++ (exp ++ rest)) := by
    cases hF with
    | none => exact hafter.1
    | some _ => simp [NoDigit]; decide
  have hint : intPart (int ++ (frac ++ (exp ++ rest))) = .ok (frac ++ (exp ++ rest)) :=
    intPart_complete hI hpoint
  have hskip : skipMinus (minus ++ (int ++ (frac ++ (exp ++ rest)))) =
      int ++ (frac ++ (exp ++ rest)) := by
    rcases hsign with rfl | rfl
    · obtain ⟨c, t, rfl, hc⟩ := IntPart.head hI
      refine if_neg ?_
      rintro rfl
      exact absurd hc (by decide)
    · rfl
  have htext : minus ++ (int ++ (frac ++ exp)) ++ rest =
      minus ++ (int ++ (frac ++ (exp ++ rest))) := by
    simp only [List.append_assoc]
  unfold number
  rw [htext, hskip, hint]
  show (fraction _ >>= exponent >>= fun rest => _) = _
  rw [hfrac]
  show (exponent _ >>= fun rest => _) = _
  rw [hexp, ← htext]
  show Except.ok (Json.number _, rest) = _
  rw [List.length_append, Nat.add_sub_cancel, List.take_left]

end JsonParser

end UCache
