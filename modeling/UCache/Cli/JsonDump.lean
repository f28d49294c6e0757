/-
Module: UCache.Cli.JsonDump
Purpose: The writer of JSON texts in the publishing tool, compact and indented, and that the reader gets
  back what it writes.
Trusted boundary: none
Main exports: JsonDump.jsonEscape, JsonDump.dumpInto, JsonDump.json_dump_parse
-/
import UCache.Cli.JsonExact
import Mathlib.Data.List.Forall2

namespace UCache

open Lib

namespace JsonDump

/-! ### Strings -/

/-- A lowercase hexadecimal digit. -/
def hexOf (n : Nat) : UInt8 := UInt8.ofNat (if n < 10 then 48 + n else 87 + n)

def escapeByte (c : UInt8) : Bytes :=
  if c = 34 then [92, 34]
  else if c = 92 then [92, 92]
  else if c = 10 then [92, 110]
  else if c = 13 then [92, 114]
  else if c = 9 then [92, 116]
  else if c = 8 then [92, 98]
  else if c = 12 then [92, 102]
  else if c < 32 then [92, 117, 48, 48, hexOf (c.toNat / 16), hexOf (c.toNat % 16)]
  else [c]

/-- [SRC Publish.cc:115-138] -/
def jsonEscape (s : Bytes) : Bytes := s.flatMap escapeByte

/-! ### Values -/

/-- [SRC Publish.cc:391-396] A line break before the given level, when the text is indented at all.  A
width that is no `int` has no meaning: there is no text. -/
def nl (indent : Int) (level : Nat) : Option Bytes :=
  if indent < 0 then some []
  else if 2 ^ 31 ≤ indent * level then none
  else some (10 :: List.replicate (indent * level).toNat 32)

def isScalar : Json → Bool
  | .array _ => false
  | .object _ => false
  | _ => true

/-- The items of an array or object, each but the first after a comma, and each after `brk`. -/
def joined (brk : Option Bytes) : Bool → List (Option Bytes) → Option Bytes
  | _, [] => some []
  | first, item :: items => do
      let before ← brk
      let w ← item
      let rest ← joined brk false items
      some ((if first then [] else [44]) ++ (before ++ (w ++ rest)))

/-- The break before the closing bracket: none when there are no items. -/
def lastBreak (last : Option Bytes) (items : List (Option Bytes)) : Option Bytes :=
  if items.isEmpty then some [] else last

def bracketed (start stop : UInt8) (brk last : Option Bytes) (items : List (Option Bytes)) :
    Option Bytes := do
  let body ← joined brk true items
  let after ← lastBreak last items
  some (start :: (body ++ after ++ [stop]))

mutual

/-- [SRC Publish.cc:390-441] The text a value adds at a level.  An array of scalars stays on one
line. -/
def dumpInto (indent : Int) (level : Nat) : Json → Option Bytes
  | .null => some [110, 117, 108, 108]
  | .bool b => some (if b then [116, 114, 117, 101] else [102, 97, 108, 115, 101])
  | .number text => some text
  | .string s => some (34 :: (jsonEscape s ++ [34]))
  | .array elems =>
      if elems.all isScalar then
        bracketed 91 93 (some []) (some []) (dumpElems indent (level + 1) elems)
      else bracketed 91 93 (nl indent (level + 1)) (nl indent level)
        (dumpElems indent (level + 1) elems)
  | .object members =>
      bracketed 123 125 (nl indent (level + 1)) (nl indent level)
        (dumpMembers indent (level + 1) members)

def dumpElems (indent : Int) (level : Nat) : List Json → List (Option Bytes)
  | [] => []
  | e :: elems => dumpInto indent level e :: dumpElems indent level elems

def dumpMembers (indent : Int) (level : Nat) : List (Bytes × Json) → List (Option Bytes)
  | [] => []
  | (key, v) :: members =>
      (dumpInto indent level v).map (fun w =>
        34 :: (jsonEscape key ++ (if indent < 0 then [34, 58] else [34, 58, 32]) ++ w)) ::
        dumpMembers indent level members

end

/-- [SRC Publish.cc:463-467] -/
def dump (indent : Int) (j : Json) : Option Bytes := dumpInto indent 0 j

/-! ### What is printed is in the grammar -/

variable {indent : Int} {level : Nat}

mutual

/-- Every number in the value holds the text of a number. -/
def NumbersOk : Json → Prop
  | .number text => Json.Number text
  | .array elems => ElemsOk elems
  | .object members => MembersOk members
  | _ => True

def ElemsOk : List Json → Prop
  | [] => True
  | e :: elems => NumbersOk e ∧ ElemsOk elems

def MembersOk : List (Bytes × Json) → Prop
  | [] => True
  | (_, v) :: members => NumbersOk v ∧ MembersOk members

end

theorem elemsOk_iff {elems : List Json} : ElemsOk elems ↔ ∀ e ∈ elems, NumbersOk e := by
  induction elems with
  | nil => simp [ElemsOk]
  | cons e elems ih => rw [ElemsOk, ih, List.forall_mem_cons]

theorem membersOk_iff {members : List (Bytes × Json)} :
    MembersOk members ↔ ∀ m ∈ members, NumbersOk m.2 := by
  induction members with
  | nil => simp [MembersOk]
  | cons m members ih => rw [MembersOk, ih, List.forall_mem_cons]

theorem dumpElems_eq (indent : Int) (level : Nat) (elems : List Json) :
    dumpElems indent level elems = elems.map (dumpInto indent level) := by
  induction elems with
  | nil => rfl
  | cons e elems ih => rw [dumpElems, ih, List.map_cons]

/-- One member. -/
def dumpMember (indent : Int) (level : Nat) (m : Bytes × Json) : Option Bytes :=
  (dumpInto indent level m.2).map fun w =>
    34 :: (jsonEscape m.1 ++ (if indent < 0 then [34, 58] else [34, 58, 32]) ++ w)

theorem dumpMembers_eq (indent : Int) (level : Nat) (members : List (Bytes × Json)) :
    dumpMembers indent level members = members.map (dumpMember indent level) := by
  induction members with
  | nil => rfl
  | cons m members ih => rw [dumpMembers, ih, List.map_cons, dumpMember]

theorem hexDigit_hexOf {n : Nat} (h : n < 16) : Json.hexDigit (hexOf n) = some n := by
  revert h
  revert n
  decide

/-- A control byte is written as an escape of its code. -/
theorem hex4_control {c : UInt8} (h : c < 32) :
    Json.Hex4 [48, 48, hexOf (c.toNat / 16), hexOf (c.toNat % 16)] c.toNat := by
  have hc : c.toNat < 32 := h
  have hcode : c.toNat = ((0 * 16 + 0) * 16 + c.toNat / 16) * 16 + c.toNat % 16 := by omega
  nth_rewrite 3 [hcode]
  exact .digits rfl rfl (hexDigit_hexOf (by omega)) (hexDigit_hexOf (by omega))

theorem decode_control {c : UInt8} {us : List Json.StrUnit} (h : c < 32) :
    Json.decode (.code c.toNat :: us) = c :: Json.decode us := by
  have hc : c.toNat < 32 := h
  have hhigh : Json.highSurrogate c.toNat = false := by
    simp [Json.highSurrogate]
    omega
  have hlow : Json.lowSurrogate c.toNat = false := by
    simp [Json.lowSurrogate]
    omega
  rw [JsonParser.decode_code fun hh => absurd hh (by simp [hhigh]), Json.scalar, hhigh, hlow]
  simp only [Bool.or_self, Bool.false_eq_true, if_false, Json.utf8]
  rw [if_pos (by omega), UInt8.ofNat_toNat]
  rfl

theorem chars_escapeByte (c : UInt8) {w : Bytes} {us : List Json.StrUnit} (hw : Json.Chars w us) :
    ∃ us', Json.Chars (escapeByte c ++ w) us' ∧ Json.decode us' = c :: Json.decode us := by
  have hshort : ∀ e, Json.simpleEscape e = some c →
      ∃ us', Json.Chars (92 :: e :: w) us' ∧ Json.decode us' = c :: Json.decode us :=
    fun e he => ⟨.byte c :: us, .escape he hw, rfl⟩
  unfold escapeByte
  split_ifs with h1 h2 h3 h4 h5 h6 h7 h8
  · exact hshort 34 (by rw [h1]; rfl)
  · exact hshort 92 (by rw [h2]; rfl)
  · exact hshort 110 (by rw [h3]; rfl)
  · exact hshort 114 (by rw [h4]; rfl)
  · exact hshort 116 (by rw [h5]; rfl)
  · exact hshort 98 (by rw [h6]; rfl)
  · exact hshort 102 (by rw [h7]; rfl)
  · exact ⟨.code c.toNat :: us, .unicode (hex4_control h8) hw, decode_control h8⟩
  · exact ⟨.byte c :: us, .plain h1 h2 hw, rfl⟩

theorem str_jsonEscape (s : Bytes) : Json.Str (34 :: (jsonEscape s ++ [34])) s := by
  have hchars : ∃ us, Json.Chars (jsonEscape s) us ∧ Json.decode us = s := by
    induction s with
    | nil => exact ⟨[], .nil, rfl⟩
    | cons c s ih =>
        obtain ⟨us, hus, hs⟩ := ih
        obtain ⟨us', hus', hs'⟩ := chars_escapeByte c hus
        exact ⟨us', hus', by rw [hs', hs]⟩
  obtain ⟨us, hus, hs⟩ := hchars
  exact ⟨jsonEscape s, us, rfl, hus, hs.symm⟩

theorem ws_nl {b : Bytes} (h : nl indent level = some b) : Json.Ws b := by
  unfold nl at h
  split_ifs at h
  · cases h
    exact fun _ hb => absurd hb List.not_mem_nil
  · cases h
    exact List.forall_mem_cons.2 ⟨rfl, fun b hb => by rw [List.eq_of_mem_replicate hb]; rfl⟩

section Lists

variable {α : Type} {P : Bytes → α → Prop} {brk last : Option Bytes}

theorem joined_false (item : Option Bytes) (items : List (Option Bytes)) :
    joined brk false (item :: items) = (joined brk true (item :: items)).map (44 :: ·) := by
  simp only [joined]
  cases brk with
  | none => rfl
  | some b =>
      cases item with
      | none => rfl
      | some w => cases joined (some b) false items <;> rfl

/-- Texts of items, joined, with blanks after the last. -/
theorem joined_sepBy (hbrk : ∀ b, brk = some b → Json.Ws b) {items : List (Option Bytes)}
    {xs : List α} (hitems : List.Forall₂ (fun o x => ∀ w, o = some w → P w x) items xs)
    (hne : items ≠ []) {body after : Bytes} (h : joined brk true items = some body)
    (hafter : Json.Ws after) : Json.SepBy 44 (Json.Padded P) (body ++ after) xs := by
  induction hitems generalizing body with
  | nil => exact absurd rfl hne
  | @cons o x items xs hox hrest ih =>
      simp only [joined, if_true, List.nil_append] at h
      obtain ⟨b, hb, h1⟩ := Option.bind_eq_some_iff.1 h
      obtain ⟨w, hw, h2⟩ := Option.bind_eq_some_iff.1 h1
      obtain ⟨rest, hjoin, hbody⟩ := Option.bind_eq_some_iff.1 h2
      cases hbody
      have hP := hox w hw
      cases hrest with
      | nil =>
          cases hjoin
          refine .one ⟨b, w, after, ?_, hbrk b hb, hP, hafter⟩
          simp
      | @cons o' x' items xs hox' hrest =>
          rw [joined_false] at hjoin
          obtain ⟨body', hbody', rfl⟩ := Option.map_eq_some_iff.1 hjoin
          have hmore := ih (by simp) hbody'
          have hassoc : b ++ (w ++ 44 :: body') ++ after = b ++ w ++ 44 :: (body' ++ after) := by simp
          rw [hassoc]
          refine .more ⟨b, w, [], by simp, hbrk b hb, hP, fun _ hm => absurd hm List.not_mem_nil⟩ hmore

theorem bracketed_listed (hbrk : ∀ b, brk = some b → Json.Ws b)
    (hlast : ∀ b, last = some b → Json.Ws b) {items : List (Option Bytes)} {xs : List α}
    (hitems : List.Forall₂ (fun o x => ∀ w, o = some w → P w x) items xs) {start stop : UInt8}
    {text : Bytes} (h : bracketed start stop brk last items = some text) :
    ∃ w, text = start :: (w ++ [stop]) ∧ Json.Listed P w xs := by
  obtain ⟨body, hbody, h1⟩ := Option.bind_eq_some_iff.1 h
  obtain ⟨after, hafter, htext⟩ := Option.bind_eq_some_iff.1 h1
  cases htext
  refine ⟨body ++ after, rfl, ?_⟩
  cases hitems with
  | nil =>
      cases hbody
      cases hafter
      exact .none fun _ hm => absurd hm List.not_mem_nil
  | cons hox hrest => exact .some (joined_sepBy hbrk (.cons hox hrest) (by simp) hbody (hlast _ hafter))

end Lists

/-- By the value: what is printed for it is a text of the grammar that denotes it. -/
theorem dumpInto_value {j : Json} (hnum : NumbersOk j) {d : Nat} (hdepth : j.depth ≤ d)
    {text : Bytes} (h : dumpInto indent level j = some text) : Json.Value d text j := by
  have hscalar : ∀ {d w j}, Json.Scalar w j → Json.Value d w j := by
    intro d w j hw
    cases d with
    | zero => exact hw
    | succ d => exact .inl hw
  induction j using Json.induct generalizing d level text with
  | null =>
      cases h
      exact hscalar .null
  | bool b =>
      cases h
      cases b
      · exact hscalar .false
      · exact hscalar .true
  | number t =>
      cases h
      exact hscalar (.number hnum)
  | string s =>
      cases h
      exact hscalar (.string (str_jsonEscape s))
  | array elems ih =>
      obtain ⟨d, rfl⟩ : ∃ n, d = n + 1 := ⟨d - 1, by simp only [Json.depth] at hdepth; omega⟩
      have hdepths := Json.depthOf_le.1 (Nat.le_of_succ_le_succ hdepth)
      have hnums := elemsOk_iff.1 hnum
      have hitems : List.Forall₂ (fun o x => ∀ w, o = some w → Json.Value d w x)
          (dumpElems indent (level + 1) elems) elems := by
        rw [dumpElems_eq, List.forall₂_map_left_iff, List.forall₂_same]
        exact fun e he w hw => ih e he (hnums e he) (hdepths e he) hw
      refine .inr ?_
      rw [dumpInto] at h
      split at h
      · obtain ⟨w, rfl, hw⟩ := bracketed_listed (fun b hb => by cases hb; simp [Json.Ws])
          (fun b hb => by cases hb; simp [Json.Ws]) hitems h
        exact .array hw
      · obtain ⟨w, rfl, hw⟩ := bracketed_listed (fun b hb => ws_nl hb) (fun b hb => ws_nl hb) hitems h
        exact .array hw
  | object members ih =>
      obtain ⟨d, rfl⟩ : ∃ n, d = n + 1 := ⟨d - 1, by simp only [Json.depth] at hdepth; omega⟩
      have hdepths := Json.depthIn_le.1 (Nat.le_of_succ_le_succ hdepth)
      have hnums := membersOk_iff.1 hnum
      have hitems : List.Forall₂ (fun o x => ∀ w, o = some w → Json.Member (Json.Value d) w x)
          (dumpMembers indent (level + 1) members) members := by
        rw [dumpMembers_eq, List.forall₂_map_left_iff, List.forall₂_same]
        intro m hm text htext
        obtain ⟨w, hw, rfl⟩ := Option.map_eq_some_iff.1 htext
        have hvalue := ih m hm (hnums m hm) (hdepths m hm) hw
        have hcolon : ∃ after, Json.Ws after ∧
            (if indent < 0 then [34, 58] else [34, 58, 32] : Bytes) = 34 :: 58 :: after := by
          split
          · exact ⟨[], by simp [Json.Ws], rfl⟩
          · exact ⟨[32], by simp [Json.Ws]; rfl, rfl⟩
        obtain ⟨after, hafter, hsep⟩ := hcolon
        exact ⟨34 :: (jsonEscape m.1 ++ [34]), [], after, w, by rw [hsep]; simp, str_jsonEscape m.1,
          by simp [Json.Ws], hafter, hvalue⟩
      rw [dumpInto] at h
      obtain ⟨w, rfl, hw⟩ := bracketed_listed (fun b hb => ws_nl hb) (fun b hb => ws_nl hb) hitems h
      exact .inr (.object hw)

/-! ### When there is a text -/

mutual

/-- How many levels down the lines of an indented text go. -/
def lineDepth : Json → Nat
  | .array elems => if elems.all isScalar then 0 else lineDepthOf elems + 1
  | .object members => if members.isEmpty then 0 else lineDepthIn members + 1
  | _ => 0

def lineDepthOf : List Json → Nat
  | [] => 0
  | e :: elems => max (lineDepth e) (lineDepthOf elems)

def lineDepthIn : List (Bytes × Json) → Nat
  | [] => 0
  | (_, v) :: members => max (lineDepth v) (lineDepthIn members)

end

theorem lineDepthOf_le {elems : List Json} {d : Nat} :
    lineDepthOf elems ≤ d ↔ ∀ e ∈ elems, lineDepth e ≤ d := by
  induction elems with
  | nil => simp [lineDepthOf]
  | cons e elems ih => rw [lineDepthOf, Nat.max_le, ih, List.forall_mem_cons]

theorem lineDepthIn_le {members : List (Bytes × Json)} {d : Nat} :
    lineDepthIn members ≤ d ↔ ∀ m ∈ members, lineDepth m.2 ≤ d := by
  induction members with
  | nil => simp [lineDepthIn]
  | cons m members ih => rw [lineDepthIn, Nat.max_le, ih, List.forall_mem_cons]

/-- A line at this level can be indented. -/
def LevelFits (indent : Int) (level : Nat) : Prop := indent < 0 ∨ indent * level < 2 ^ 31

theorem nl_isSome : (nl indent level).isSome = true ↔ LevelFits indent level := by
  unfold nl LevelFits
  split_ifs <;> simp <;> omega

theorem LevelFits.of_le {level' : Nat} (h : LevelFits indent level') (hle : level ≤ level') :
    LevelFits indent level := by
  by_cases hneg : indent < 0
  · exact .inl hneg
  · refine .inr (Int.lt_of_le_of_lt ?_ (h.resolve_left hneg))
    exact Int.mul_le_mul_of_nonneg_left (Int.ofNat_le.2 hle) (by omega)

theorem nl_outer (h : (nl indent (level + 1)).isSome = true) : (nl indent level).isSome = true := by
  rw [nl_isSome] at h ⊢
  exact h.of_le (Nat.le_succ level)

theorem joined_isSome {brk : Option Bytes} {first : Bool} {items : List (Option Bytes)} :
    (joined brk first items).isSome = true ↔
      ∀ o ∈ items, brk.isSome = true ∧ o.isSome = true := by
  induction items generalizing first with
  | nil => simp [joined]
  | cons o items ih =>
      rw [List.forall_mem_cons, ← @ih false, joined]
      cases brk <;> cases o <;> cases joined _ false items <;> simp

theorem bracketed_isSome {start stop : UInt8} {brk last : Option Bytes}
    {items : List (Option Bytes)} (hlast : brk.isSome = true → last.isSome = true) :
    (bracketed start stop brk last items).isSome = true ↔
      ∀ o ∈ items, brk.isSome = true ∧ o.isSome = true := by
  rw [← @joined_isSome brk true items]
  unfold bracketed
  cases hjoin : joined brk true items with
  | none => simp
  | some body =>
      have hend : (lastBreak last items).isSome = true := by
        unfold lastBreak
        cases items with
        | nil => rfl
        | cons o items =>
            have hall := joined_isSome.1 (Option.isSome_iff_exists.2 ⟨body, hjoin⟩)
            exact hlast (hall o List.mem_cons_self).1
      obtain ⟨after, hafter⟩ := Option.isSome_iff_exists.1 hend
      simp [hafter]

/-- Items on lines of their own fit when the deepest of them does. -/
theorem levelFits_all {α : Type} {xs : List α} {f : α → Nat} {deepest level : Nat} {indent : Int}
    (hne : xs ≠ []) (hdeepest : ∀ d, deepest ≤ d ↔ ∀ x ∈ xs, f x ≤ d) :
    (∀ x ∈ xs, LevelFits indent (level + 1) ∧
      (f x = 0 ∨ LevelFits indent (level + 1 + f x))) ↔
      LevelFits indent (level + (deepest + 1)) := by
  constructor
  · intro hall
    obtain ⟨x, hx, hfx⟩ : ∃ x ∈ xs, deepest ≤ f x := by
      by_contra hno
      push Not at hno
      obtain ⟨y, hy⟩ := List.exists_mem_of_ne_nil xs hne
      have hpos := hno y hy
      have hle := (hdeepest (deepest - 1)).2 fun z hz => by have := hno z hz; omega
      omega
    obtain ⟨hfits, hzero | hdeep⟩ := hall x hx
    · exact hfits.of_le (by omega)
    · exact hdeep.of_le (by omega)
  · intro hfits x hx
    have hle := (hdeepest deepest).1 (Nat.le_refl _) x hx
    exact ⟨hfits.of_le (by omega), .inr (hfits.of_le (by omega))⟩

/-- By the value: a text exists when the deepest line of it can be indented. -/
theorem dumpInto_isSome {j : Json} :
    (dumpInto indent level j).isSome = true ↔
      lineDepth j = 0 ∨ LevelFits indent (level + lineDepth j) := by
  induction j using Json.induct generalizing level with
  | null => exact ⟨fun _ => .inl rfl, fun _ => rfl⟩
  | bool b => exact ⟨fun _ => .inl rfl, fun _ => rfl⟩
  | number t => exact ⟨fun _ => .inl rfl, fun _ => rfl⟩
  | string s => exact ⟨fun _ => .inl rfl, fun _ => rfl⟩
  | array elems ih =>
      rw [dumpInto, lineDepth, dumpElems_eq]
      split
      · rename_i hscalars
        refine ⟨fun _ => .inl rfl, fun _ => (bracketed_isSome fun _ => rfl).2 ?_⟩
        rw [List.forall_mem_map]
        intro e he
        have hscalar := List.all_eq_true.1 hscalars e he
        refine ⟨rfl, ?_⟩
        cases e <;> first | rfl | cases hscalar
      · rename_i hscalars
        have hne : elems ≠ [] := by
          rintro rfl
          exact hscalars rfl
        have hall := @levelFits_all Json elems lineDepth (lineDepthOf elems) level indent hne
          fun d => lineDepthOf_le
        rw [bracketed_isSome nl_outer, List.forall_mem_map, nl_isSome,
          or_iff_right (Nat.succ_ne_zero _), ← hall]
        exact forall₂_congr fun e he => and_congr_right fun _ => ih e he
  | object members ih =>
      rw [dumpInto, lineDepth, dumpMembers_eq]
      cases members with
      | nil => exact ⟨fun _ => .inl rfl, fun _ => rfl⟩
      | cons m members =>
          have hall := @levelFits_all _ (m :: members) (fun m => lineDepth m.2)
            (lineDepthIn (m :: members)) level indent (by simp) fun d => lineDepthIn_le
          rw [bracketed_isSome nl_outer, List.forall_mem_map, nl_isSome, List.isEmpty_cons,
            if_neg (by decide), or_iff_right (Nat.succ_ne_zero _), ← hall]
          refine forall₂_congr fun m hm => and_congr_right fun _ => ?_
          rw [dumpMember, Option.isSome_map]
          exact ih m hm

/-- [SRC Publish.cc:115-138, 390-467] What is printed is read back: every value of valid numbers with
containers at most 64 deep, with every indent whose widths fit an `int`. -/
theorem json_dump_parse (j : Json) (hnum : NumbersOk j) (hdepth : j.depth ≤ 64) (indent : Int) :
    (∀ text, dump indent j = some text → JsonParser.parse text = .ok j) ∧
      ((dump indent j).isSome = true ↔ indent < 0 ∨ indent * lineDepth j < 2 ^ 31) := by
  constructor
  · intro text htext
    refine JsonParser.parse_iff.2 ⟨[], text, [], by simp, ?_, dumpInto_value hnum hdepth htext, ?_⟩ <;>
      exact fun _ h => absurd h List.not_mem_nil
  · rw [dump, dumpInto_isSome, Nat.zero_add]
    constructor
    · rintro (h | h)
      · rw [h]
        exact .inr (by simp)
      · exact h
    · exact .inr

/-- `{"a": {"b": 1}}` -/
def twoLevels : Json := .object [([97], .object [([98], .number [49])])]

theorem twoLevels_numbers : NumbersOk twoLevels := by
  refine ⟨⟨⟨[], [49], [], [], rfl, .inl rfl, ?_, .none, .none⟩, trivial⟩, trivial⟩
  exact .digits rfl (by decide) fun _ h => absurd h List.not_mem_nil

/-- Two levels, printed two columns a level. -/
theorem twoLevels_round_trip :
    (∀ text, dump 2 twoLevels = some text → JsonParser.parse text = .ok twoLevels) ∧
      ((dump 2 twoLevels).isSome = true ↔ (2 : Int) < 0 ∨ 2 * (lineDepth twoLevels : Int) < 2 ^ 31) :=
  json_dump_parse twoLevels twoLevels_numbers (by decide) 2

/-- With a width of 2^30 the second level would be indented by 2^31. -/
theorem twoLevels_too_wide : NumbersOk twoLevels ∧ twoLevels.depth ≤ 64 ∧
    ¬ ∃ text, dump (2 ^ 30) twoLevels = some text ∧ JsonParser.parse text = .ok twoLevels := by
  refine ⟨twoLevels_numbers, by decide, ?_⟩
  rintro ⟨text, htext, -⟩
  have hsome : (dumpInto (2 ^ 30) 0 twoLevels).isSome = true :=
    Option.isSome_iff_exists.2 ⟨text, htext⟩
  have hdepth : lineDepth twoLevels = 2 := rfl
  rw [dumpInto_isSome, hdepth] at hsome
  rcases hsome with h | h | h
  · cases h
  · omega
  · omega

example : dump 1 twoLevels = some
    [123, 10, 32, 34, 97, 34, 58, 32, 123, 10, 32, 32, 34, 98, 34, 58, 32, 49, 10, 32, 125, 10, 125] :=
  rfl

end JsonDump

end UCache
