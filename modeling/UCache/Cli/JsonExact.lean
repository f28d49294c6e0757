/-
Module: UCache.Cli.JsonExact
Purpose: The reader of JSON texts accepts exactly the grammar: every reader of it is shown to take what
  its rule of the grammar describes, and to take it whenever it is there.
Trusted boundary: none
Main exports: JsonParser.Exact, JsonParser.json_parse_exact
-/
import UCache.Cli.JsonParse

namespace UCache

open Lib

namespace JsonParser

/-! ### Readers of one rule -/

variable {α : Type}

/-- The reader takes blanks and then what the rule `P` describes; and it does take them where nothing
follows that would go on with a number. -/
structure Exact (item : Bytes → Except JsonFault (α × Bytes)) (P : Bytes → α → Prop) : Prop where
  sound : ∀ {r rest x}, item r = .ok (x, rest) →
    ∃ a w, r = a ++ (w ++ rest) ∧ Json.Ws a ∧ P w x
  complete : ∀ {a w rest x}, Json.Ws a → P w x → Stops rest → item (a ++ (w ++ rest)) = .ok (x, rest)

/-- What the rule describes begins with neither a blank nor the bracket that would close it. -/
def Heads (P : Bytes → α → Prop) : Prop :=
  ∀ w x, P w x → ∃ c t, w = c :: t ∧ Json.isWs c = false ∧ c ≠ 93 ∧ c ≠ 125

theorem Stops.nil : Stops [] := fun c hc => by simp at hc

theorem Stops.cons {c : UInt8} {rest : Bytes} (hc : c = 44 ∨ c = 93 ∨ c = 125) :
    Stops (c :: rest) := by
  intro b hb
  simp only [List.head?_cons, Option.mem_def, Option.some.injEq] at hb
  subst hb
  rcases hc with rfl | rfl | rfl <;> decide

theorem Stops.blanks {a rest : Bytes} (ha : Json.Ws a) (hrest : Stops rest) :
    Stops (a ++ rest) := by
  cases a with
  | nil => exact hrest
  | cons b a =>
      intro c hc
      simp only [List.cons_append, List.head?_cons, Option.mem_def, Option.some.injEq] at hc
      subst hc
      have hb := ha b List.mem_cons_self
      simp only [Json.isWs, Bool.or_eq_true, decide_eq_true_eq] at hb
      rcases hb with ((rfl | rfl) | rfl) | rfl <;> decide

theorem ws_blanks {a : Bytes} {c : UInt8} (t : Bytes) (ha : Json.Ws a) (hc : Json.isWs c = false) :
    ws (a ++ c :: t) = c :: t := by
  rw [ws_append ha, ws_cons hc]

/-! ### Lists of items -/

variable {r w : Bytes} {j : Json}

section Items

variable {item : Bytes → Except JsonFault (α × Bytes)} {P : Bytes → α → Prop} {close : UInt8}
  {what : String} {wrap : List α → Json}

theorem items_sound (hitem : Exact item P) {turns : Nat} {acc : List α} {rest : Bytes}
    (h : items item close what wrap turns acc r = .ok (j, rest)) :
    ∃ w xs, r = w ++ close :: rest ∧ Json.SepBy 44 (Json.Padded P) w xs ∧ j = wrap (acc ++ xs) := by
  induction turns generalizing acc r with
  | zero => cases h
  | succ turns ih =>
      obtain ⟨⟨x, r₁⟩, hx, hloop⟩ := bind_eq_ok h
      clear h
      obtain ⟨a, w, rfl, ha, hw⟩ := hitem.sound hx
      obtain ⟨b, hb, hblank⟩ := ws_split r₁
      dsimp only at hloop
      cases hr : ws r₁ with
      | nil =>
          rw [hr] at hloop
          cases hloop
      | cons c r₂ =>
          rw [hr] at hloop hb
          dsimp only at hloop
          have hpadded : Json.Padded P (a ++ (w ++ b)) x := ⟨a, w, b, rfl, ha, hw, hblank⟩
          by_cases hcomma : c = 44
          · subst hcomma
            rw [if_pos rfl] at hloop
            obtain ⟨ws', xs, rfl, hxs, rfl⟩ := ih hloop
            exact ⟨a ++ (w ++ b) ++ 44 :: ws', x :: xs, by rw [hb]; simp, .more hpadded hxs, by simp⟩
          · rw [if_neg hcomma] at hloop
            by_cases hc : c = close
            · subst hc
              rw [if_pos rfl] at hloop
              cases hloop
              exact ⟨a ++ (w ++ b), [x], by rw [hb]; simp, .one hpadded, rfl⟩
            · rw [if_neg hc] at hloop
              cases hloop

theorem items_complete (hitem : Exact item P) (hclose : close = 93 ∨ close = 125) {turns : Nat}
    {acc xs : List α} {w rest : Bytes} (hw : Json.SepBy 44 (Json.Padded P) w xs)
    (hturns : w.length < turns) :
    items item close what wrap turns acc (w ++ close :: rest) = .ok (wrap (acc ++ xs), rest) := by
  have hblank : Json.isWs close = false := by rcases hclose with rfl | rfl <;> rfl
  have hcomma : close ≠ 44 := by rcases hclose with rfl | rfl <;> decide
  induction hw generalizing acc turns with
  | @one w x hx =>
      obtain ⟨turns, rfl⟩ : ∃ t, turns = t + 1 := ⟨turns - 1, by omega⟩
      obtain ⟨a, y, b, rfl, ha, hy, hb⟩ := hx
      have hstops : Stops (b ++ close :: rest) :=
        .blanks hb (.cons (.inr hclose))
      have hread := hitem.complete ha hy hstops
      have hassoc : a ++ (y ++ b) ++ close :: rest = a ++ (y ++ (b ++ close :: rest)) := by simp
      rw [hassoc, items, hread]
      simp only [bind, Except.bind, ws_blanks rest hb hblank, if_neg hcomma, if_true]
  | @more w ws' x xs hx hxs ih =>
      obtain ⟨turns, rfl⟩ : ∃ t, turns = t + 1 := ⟨turns - 1, by omega⟩
      obtain ⟨a, y, b, rfl, ha, hy, hb⟩ := hx
      have hstops : Stops (b ++ 44 :: (ws' ++ close :: rest)) := .blanks hb (.cons (.inl rfl))
      have hread := hitem.complete ha hy hstops
      have hassoc : a ++ (y ++ b) ++ 44 :: ws' ++ close :: rest =
          a ++ (y ++ (b ++ 44 :: (ws' ++ close :: rest))) := by simp
      rw [hassoc, items, hread]
      have hcomma' : Json.isWs 44 = false := rfl
      simp only [bind, Except.bind, ws_blanks (ws' ++ close :: rest) hb hcomma', if_true]
      simp only [List.length_append, List.length_cons] at hturns
      rw [ih (by omega), List.append_assoc, List.singleton_append]

/-- Blanks in front of a list of items belong to the first. -/
theorem SepBy.blanks {a : Bytes} {xs : List α} (ha : Json.Ws a)
    (h : Json.SepBy 44 (Json.Padded P) w xs) : Json.SepBy 44 (Json.Padded P) (a ++ w) xs := by
  have hpad : ∀ {w x}, Json.Padded P w x → Json.Padded P (a ++ w) x := by
    rintro w x ⟨b, y, c, rfl, hb, hy, hc⟩
    exact ⟨a ++ b, y, c, by simp, List.forall_mem_append.2 ⟨ha, hb⟩, hy, hc⟩
  cases h with
  | one hx => exact .one (hpad hx)
  | more hx hxs =>
      rw [← List.append_assoc]
      exact .more (hpad hx) hxs

/-- A list of items begins, after blanks, with what an item may begin with. -/
theorem SepBy.head (hheads : Heads P) {xs : List α} (h : Json.SepBy 44 (Json.Padded P) w xs) :
    ∃ a c t, w = a ++ c :: t ∧ Json.Ws a ∧ Json.isWs c = false ∧ c ≠ 93 ∧ c ≠ 125 ∧
      Json.SepBy 44 (Json.Padded P) (c :: t) xs := by
  have hsplit : ∀ {w x}, Json.Padded P w x → ∃ a c t, w = a ++ c :: t ∧ Json.Ws a ∧
      Json.isWs c = false ∧ c ≠ 93 ∧ c ≠ 125 ∧ Json.Padded P (c :: t) x := by
    rintro w x ⟨a, y, b, rfl, ha, hy, hb⟩
    obtain ⟨c, t, rfl, hblank, hne⟩ := hheads y x hy
    exact ⟨a, c, t ++ b, by simp, ha, hblank, hne.1, hne.2,
      [], c :: t, b, by simp, fun _ h => absurd h List.not_mem_nil, hy, hb⟩
  cases h with
  | one hx =>
      obtain ⟨a, c, t, rfl, ha, hblank, h1, h2, hct⟩ := hsplit hx
      exact ⟨a, c, t, rfl, ha, hblank, h1, h2, .one hct⟩
  | @more w ws' x xs hx hxs =>
      obtain ⟨a, c, t, rfl, ha, hblank, h1, h2, hct⟩ := hsplit hx
      exact ⟨a, c, t ++ 44 :: ws', by simp, ha, hblank, h1, h2, .more hct hxs⟩

theorem container_iff (hitem : Exact item P) (hheads : Heads P) (hclose : close = 93 ∨ close = 125)
    {rest : Bytes} : container item close what wrap r = .ok (j, rest) ↔
      ∃ w xs, r = w ++ close :: rest ∧ Json.Listed P w xs ∧ j = wrap xs := by
  constructor
  · intro h
    obtain ⟨a, hr, ha⟩ := ws_split r
    unfold container at h
    split at h
    · obtain ⟨w, xs, hnil, -⟩ := items_sound hitem h
      simp at hnil
    · rename_i c t hct
      rw [hct] at hr
      split at h
      · rename_i hc
        cases h
        exact ⟨a, [], by rw [hr, hc], .none ha, rfl⟩
      · obtain ⟨w, xs, hw, hxs, rfl⟩ := items_sound hitem h
        exact ⟨a ++ w, xs, by rw [hr, hw, List.append_assoc], .some (SepBy.blanks ha hxs), rfl⟩
  · rintro ⟨w, xs, rfl, hw, rfl⟩
    have hblank : Json.isWs close = false := by rcases hclose with rfl | rfl <;> rfl
    cases hw with
    | none ha =>
        rw [container, ws_blanks rest ha hblank]
        exact if_pos rfl
    | some hxs =>
        obtain ⟨a, c, t, rfl, ha, hc, h1, h2, hct⟩ := SepBy.head hheads hxs
        have hassoc : a ++ c :: t ++ close :: rest = a ++ c :: (t ++ close :: rest) := by simp
        have hne : c ≠ close := by rcases hclose with rfl | rfl <;> assumption
        rw [hassoc, container, ws_blanks _ ha hc]
        refine (if_neg hne).trans ?_
        have hturns : (c :: t).length < (t ++ close :: rest).length + 2 := by
          rw [List.length_append, List.length_cons]
          omega
        exact @items_complete _ _ _ _ _ _ hitem hclose _ [] _ _ _ hct hturns

end Items

/-! ### Values -/

theorem Str.head {s : Bytes} (h : Json.Str w s) : ∃ t, w = 34 :: t := by
  obtain ⟨body, us, rfl, -, -⟩ := h
  exact ⟨_, rfl⟩

theorem member_exact {inner : Bytes → Except JsonFault (Json × Bytes)} {V : Bytes → Json → Prop}
    (hinner : Exact inner V) : Exact (member inner) (Json.Member V) where
  sound := by
    rintro r rest ⟨key, v⟩ h
    obtain ⟨⟨k, r₁⟩, hkey, hcolon⟩ := bind_eq_ok h
    clear h
    obtain ⟨a, hr, ha⟩ := ws_split r
    obtain ⟨name, hname, hstr⟩ := string_iff.1 hkey
    obtain ⟨b, hb, hblank⟩ := ws_split r₁
    dsimp only at hcolon
    split at hcolon
    · cases hcolon
    · rename_i c r₂ hr₂
      split at hcolon
      · rename_i hc
        obtain ⟨⟨v', r₃⟩, hv, hok⟩ := bind_eq_ok hcolon
        cases hok
        obtain ⟨a', w, rfl, ha', hw⟩ := hinner.sound hv
        refine ⟨a, name ++ (b ++ 58 :: (a' ++ w)), ?_, ha, name, b, a', w, rfl, hstr, hblank, ha', hw⟩
        rw [hr, hname, hb, hr₂, hc]
        simp
      · cases hcolon
  complete := by
    rintro a _ rest ⟨key, v⟩ ha ⟨name, b, a', w, rfl, hstr, hb, ha', hw⟩ hrest
    obtain ⟨t, ht⟩ := Str.head hstr
    have hname : ws (a ++ (name ++ (b ++ 58 :: (a' ++ w)) ++ rest)) =
        name ++ (b ++ 58 :: (a' ++ (w ++ rest))) := by
      rw [ht, List.cons_append, List.cons_append, ws_blanks _ ha rfl]
      simp
    have hkey : string (name ++ (b ++ 58 :: (a' ++ (w ++ rest)))) =
        .ok (key, b ++ 58 :: (a' ++ (w ++ rest))) := string_iff.2 ⟨name, rfl, hstr⟩
    rw [member, hname, hkey]
    have hcolon : Json.isWs 58 = false := rfl
    simp only [bind, Except.bind, ws_blanks (a' ++ (w ++ rest)) hb hcolon, if_true]
    rw [hinner.complete ha' hw hrest]

theorem member_heads {V : Bytes → Json → Prop} : Heads (Json.Member V) := by
  rintro _ _ ⟨name, _, _, _, rfl, hstr, -⟩
  obtain ⟨t, rfl⟩ := Str.head hstr
  exact ⟨34, _, rfl, by decide⟩

theorem Number.head (h : Json.Number w) : ∃ c t, w = c :: t ∧ (c = 45 ∨ Json.isDigit c = true) := by
  obtain ⟨minus, int, frac, exp, rfl, hsign, hint, -, -⟩ := h
  rcases hsign with rfl | rfl
  · obtain ⟨c, t, rfl, hc⟩ := IntPart.head hint
    exact ⟨c, _, rfl, .inr hc⟩
  · exact ⟨45, _, rfl, .inl rfl⟩

/-- What a character that begins a value is not. -/
theorem number_char {c : UInt8} (h : c = 45 ∨ Json.isDigit c = true) :
    Json.isWs c = false ∧ c ≠ 91 ∧ c ≠ 93 ∧ c ≠ 123 ∧ c ≠ 125 ∧ c ≠ 34 ∧ c ≠ 116 ∧ c ≠ 102 ∧
      c ≠ 110 := by
  rcases h with rfl | hc
  · decide
  · simp only [Json.isDigit, Bool.and_eq_true, decide_eq_true_eq, UInt8.le_iff_toNat_le] at hc
    have hlo : 48 ≤ c.toNat := hc.1
    have hhi : c.toNat ≤ 57 := hc.2
    simp only [Json.isWs, Bool.or_eq_false_iff, decide_eq_false_iff_not, ne_eq, ← UInt8.toNat_inj]
    refine ⟨⟨⟨⟨?_, ?_⟩, ?_⟩, ?_⟩, ?_, ?_, ?_, ?_, ?_, ?_, ?_, ?_⟩ <;> simp <;> omega

theorem Scalar.head (h : Json.Scalar w j) :
    ∃ c t, w = c :: t ∧ Json.isWs c = false ∧ c ≠ 91 ∧ c ≠ 93 ∧ c ≠ 123 ∧ c ≠ 125 := by
  cases h with
  | null => exact ⟨_, _, rfl, by decide⟩
  | true => exact ⟨_, _, rfl, by decide⟩
  | false => exact ⟨_, _, rfl, by decide⟩
  | number hw =>
      obtain ⟨c, t, rfl, hc⟩ := Number.head hw
      obtain ⟨h1, h2, h3, h4, h5, -⟩ := number_char hc
      exact ⟨c, t, rfl, h1, h2, h3, h4, h5⟩
  | string hw =>
      obtain ⟨t, rfl⟩ := Str.head hw
      exact ⟨_, _, rfl, by decide⟩

theorem scalar_sound {c : UInt8} {rest : Bytes} (h : scalar c r = .ok (j, rest)) :
    ∃ w, r = w ++ rest ∧ Json.Scalar w j := by
  unfold scalar at h
  split at h
  · cases hs : string r with
    | error e =>
        rw [hs] at h
        cases h
    | ok p =>
        obtain ⟨s, t⟩ := p
        rw [hs] at h
        cases h
        obtain ⟨w, hw, hstr⟩ := string_iff.1 hs
        exact ⟨w, hw, .string hstr⟩
  · split at h
    · rename_i htrue
      cases h
      exact ⟨[116, 114, 117, 101], by rw [← htrue, List.take_append_drop], .true⟩
    · split at h
      · rename_i hfalse
        cases h
        exact ⟨[102, 97, 108, 115, 101], by rw [← hfalse, List.take_append_drop], .false⟩
      · split at h
        · rename_i hnull
          cases h
          exact ⟨[110, 117, 108, 108], by rw [← hnull, List.take_append_drop], .null⟩
        · split at h
          · obtain ⟨w, hw, hnum, rfl⟩ := number_sound h
            exact ⟨w, hw, .number hnum⟩
          · cases h

theorem scalar_complete {c : UInt8} {t rest : Bytes} (h : Json.Scalar (c :: t) j)
    (hrest : Stops rest) : scalar c (c :: t ++ rest) = .ok (j, rest) := by
  cases h with
  | null => rfl
  | true => rfl
  | false => rfl
  | number hw =>
      obtain ⟨c', t', heq, hc⟩ := Number.head hw
      obtain ⟨rfl, rfl⟩ := List.cons.inj heq
      obtain ⟨-, -, -, -, -, hquote, ht, hf, hn⟩ := number_char hc
      unfold scalar
      rw [if_neg hquote, if_neg (by simp [ht]), if_neg (by simp [hf]), if_neg (by simp [hn]),
        if_pos hc]
      exact number_complete hw hrest
  | string hw =>
      obtain ⟨t', heq⟩ := Str.head hw
      obtain ⟨rfl, rfl⟩ := List.cons.inj heq
      rw [scalar, if_pos rfl, string_iff.2 ⟨_, rfl, hw⟩]
      rfl

section Values

variable {inner : Option (Bytes → Except JsonFault (Json × Bytes))} {V : Bytes → Json → Prop}

/-- A value whose containers, if there may be any, hold values of the rule `V`. -/
theorem valueAt_exact (hinner : ∀ v, inner = some v → Exact v V ∧ Heads V) :
    Exact (valueAt inner)
      (fun w j => Json.Scalar w j ∨ inner.isSome = true ∧ Json.Container V w j) where
  sound := by
    intro r rest j h
    obtain ⟨a, hr, ha⟩ := ws_split r
    unfold valueAt at h
    split at h
    · cases h
    · rename_i c t hct
      rw [hct] at hr
      split at h
      · rename_i hopen
        split at h
        · cases h
        · obtain ⟨hexact, hheads⟩ := hinner _ rfl
          split at h
          · rename_i hc
            obtain ⟨w, members, rfl, hw, rfl⟩ :=
              (container_iff (member_exact hexact) member_heads (.inr rfl)).1 h
            exact ⟨a, 123 :: (w ++ [125]), by rw [hr, hc]; simp, ha, .inr ⟨rfl, .object hw⟩⟩
          · rename_i hc
            obtain ⟨w, elems, rfl, hw, rfl⟩ := (container_iff hexact hheads (.inl rfl)).1 h
            exact ⟨a, 91 :: (w ++ [93]), by rw [hr, hopen.resolve_left hc]; simp, ha,
              .inr ⟨rfl, .array hw⟩⟩
      · obtain ⟨w, hw, hscalar⟩ := scalar_sound h
        exact ⟨a, w, by rw [hr, hw], ha, .inl hscalar⟩
  complete := by
    rintro a w rest j ha (hw | ⟨hsome, hw⟩) hrest
    · obtain ⟨c, t, rfl, hblank, h1, -, h2, -⟩ := Scalar.head hw
      rw [List.cons_append, valueAt, ws_blanks _ ha hblank]
      refine (if_neg (by simp [h1, h2])).trans ?_
      exact scalar_complete hw hrest
    · obtain ⟨v, rfl⟩ := Option.isSome_iff_exists.1 hsome
      obtain ⟨hexact, hheads⟩ := hinner v rfl
      cases hw with
      | @array w elems hw =>
          have hassoc : 91 :: (w ++ [93]) ++ rest = 91 :: (w ++ 93 :: rest) := by simp
          rw [hassoc, valueAt, ws_blanks _ ha rfl]
          exact (container_iff hexact hheads (.inl rfl)).2 ⟨w, elems, rfl, hw, rfl⟩
      | @object w members hw =>
          have hassoc : 123 :: (w ++ [125]) ++ rest = 123 :: (w ++ 125 :: rest) := by simp
          rw [hassoc, valueAt, ws_blanks _ ha rfl]
          exact (container_iff (member_exact hexact) member_heads (.inr rfl)).2
            ⟨w, members, rfl, hw, rfl⟩

end Values

theorem Container.head {V : Bytes → Json → Prop} (h : Json.Container V w j) :
    ∃ c t, w = c :: t ∧ Json.isWs c = false ∧ c ≠ 93 ∧ c ≠ 125 := by
  cases h with
  | array _ => exact ⟨_, _, rfl, by decide⟩
  | object _ => exact ⟨_, _, rfl, by decide⟩

/-- By the levels left: every level reads the values of the level below it. -/
theorem value_exact (d : Nat) : Exact (value d) (Json.Value d) ∧ Heads (Json.Value d) := by
  induction d with
  | zero =>
      constructor
      · have hrule : Json.Value 0 = fun w j => Json.Scalar w j ∨
            (none : Option (Bytes → Except JsonFault (Json × Bytes))).isSome = true ∧
              Json.Container (fun _ _ => False) w j := by
          funext w j
          simp [Json.Value]
        rw [hrule]
        exact valueAt_exact fun v hv => by cases hv
      · intro w j h
        obtain ⟨c, t, hw, hblank, -, h1, -, h2⟩ := Scalar.head h
        exact ⟨c, t, hw, hblank, h1, h2⟩
  | succ d ih =>
      constructor
      · have hrule : Json.Value (d + 1) = fun w j => Json.Scalar w j ∨
            (some (value d)).isSome = true ∧ Json.Container (Json.Value d) w j := by
          funext w j
          simp [Json.Value]
        rw [hrule]
        exact valueAt_exact fun v hv => by
          cases hv
          exact ih
      · rintro w j (h | h)
        · obtain ⟨c, t, hw, hblank, -, h1, -, h2⟩ := Scalar.head h
          exact ⟨c, t, hw, hblank, h1, h2⟩
        · exact Container.head h

theorem parse_iff {text : Bytes} : parse text = .ok j ↔ Json.Text kMaxDepth text j := by
  obtain ⟨hexact, -⟩ := value_exact kMaxDepth
  constructor
  · intro h
    obtain ⟨⟨v, r⟩, hv, hend⟩ := bind_eq_ok h
    obtain ⟨a, w, rfl, ha, hw⟩ := hexact.sound hv
    obtain ⟨b, hr, hb⟩ := ws_split r
    dsimp only at hend
    split at hend
    · rename_i hnil
      cases hend
      rw [hnil, List.append_nil] at hr
      exact ⟨a, w, r, rfl, ha, hw, hr ▸ hb⟩
    · cases hend
  · rintro ⟨a, w, b, rfl, ha, hw, hb⟩
    have hstops : Stops b := by
      have hblanks := Stops.blanks hb .nil
      rwa [List.append_nil] at hblanks
    have hnil : ws b = [] := by
      have hall := ws_append (r := []) hb
      rwa [List.append_nil] at hall
    rw [parse, hexact.complete ha hw hstops]
    exact if_pos hnil

/-! ### Failures are refusals -/

section Faults

variable {e : JsonFault} (he : ∀ what left, e ≠ .fail what left)
include he

theorem avoids_fail (what : String) (r : Bytes) :
    Avoids e (fail what r : Except JsonFault α) :=
  avoids_error.2 fun h => he _ _ h.symm

theorem avoids_hexLoop {k v : Nat} (h : k ≤ r.length) : Avoids e (hexLoop k v r) := by
  induction k generalizing v r with
  | zero => exact avoids_ok _
  | succ k ih =>
      cases r with
      | nil => simp at h
      | cons c r =>
          unfold hexLoop
          split
          · exact ih (by simpa using h)
          · exact avoids_fail he _ _

theorem avoids_hex4 (r : Bytes) : Avoids e (hex4 r) := by
  unfold hex4
  split
  · exact avoids_fail he _ _
  · exact avoids_hexLoop he (by omega)

theorem avoids_unicodeEscape (r : Bytes) : Avoids e (unicodeEscape r) := by
  refine avoids_bind.2 ⟨avoids_hex4 he r, fun p _ => ?_⟩
  obtain ⟨cp, t⟩ := p
  dsimp only
  split
  · split
    · rename_i hlen
      match t, hlen with
      | c₀ :: c₁ :: t, _ =>
          dsimp only
          split
          · refine avoids_bind.2 ⟨avoids_hex4 he t, fun q _ => ?_⟩
            split <;> exact avoids_ok _
          · exact avoids_ok _
    · exact avoids_ok _
  · split <;> exact avoids_ok _

omit he in
theorem avoids_map {β : Type} {x : Except JsonFault α} {f : α → β} (h : Avoids e x) :
    Avoids e (x.map f) := by
  cases x with
  | error e' => exact avoids_error.2 (avoids_error.1 h)
  | ok a => exact avoids_ok _

theorem avoids_stringTurn (c : UInt8) (r : Bytes) : Avoids e (stringTurn c r) := by
  unfold stringTurn
  split
  · exact avoids_ok _
  · split
    · exact avoids_ok _
    · split
      · exact avoids_fail he _ _
      · split
        · exact avoids_ok _
        · split
          · exact avoids_map (avoids_unicodeEscape he _)
          · exact avoids_fail he _ _

omit he in
theorem Turn.length_le {c : UInt8} {r' : Bytes} {o : Option Bytes} (h : Turn c r o r') :
    r'.length ≤ r.length := by
  cases h with
  | close _ => exact Nat.le_refl _
  | plain _ _ => exact Nat.le_refl _
  | escape _ hr _ => simp [hr]
  | unicode _ hr hout =>
      subst hr
      cases hout with
      | code hr _ _ => simp [hr]; omega
      | pair hr _ _ _ _ => simp [hr]; omega

theorem avoids_stringLoop {turns : Nat} {out : Bytes} (h : r.length ≤ turns) :
    Avoids e (stringLoop turns out r) := by
  induction turns generalizing out r with
  | zero =>
      obtain rfl := List.length_eq_zero_iff.1 (Nat.le_zero.1 h)
      exact avoids_fail he _ _
  | succ turns ih =>
      cases r with
      | nil => exact avoids_fail he _ _
      | cons c r =>
          refine avoids_bind.2 ⟨avoids_stringTurn he c r, fun p hp => ?_⟩
          obtain ⟨o, r'⟩ := p
          have hle := Turn.length_le (stringTurn_iff.1 hp)
          simp only [List.length_cons] at h
          cases o with
          | none => exact avoids_ok _
          | some b => exact ih (by omega)

theorem avoids_string (r : Bytes) : Avoids e (string r) := by
  unfold string
  split
  · exact avoids_fail he _ _
  · split
    · exact avoids_stringLoop he (Nat.le_refl _)
    · exact avoids_fail he _ _

theorem avoids_number (r : Bytes) : Avoids e (number r) := by
  refine avoids_bind.2 ⟨avoids_bind.2 ⟨avoids_bind.2 ⟨?_, fun r₁ _ => ?_⟩, fun r₂ _ => ?_⟩,
    fun _ _ => avoids_ok _⟩
  · unfold intPart
    dsimp only
    split
    · exact avoids_fail he _ _
    · split
      · exact avoids_fail he _ _
      · exact avoids_ok _
  · unfold fraction
    split
    · exact avoids_ok _
    · split
      · split
        · exact avoids_fail he _ _
        · exact avoids_ok _
      · exact avoids_ok _
  · unfold exponent
    split
    · exact avoids_ok _
    · split
      · dsimp only
        split
        · exact avoids_fail he _ _
        · exact avoids_ok _
      · exact avoids_ok _

theorem avoids_scalar (c : UInt8) (r : Bytes) : Avoids e (scalar c r) := by
  unfold scalar
  split_ifs
  · exact avoids_map (avoids_string he r)
  · exact avoids_ok _
  · exact avoids_ok _
  · exact avoids_ok _
  · exact avoids_number he r
  · exact avoids_fail he _ _

section Lists

variable {item : Bytes → Except JsonFault (α × Bytes)} {P : Bytes → α → Prop} {close : UInt8}
  {what : String} {wrap : List α → Json}

/-- Every turn takes a comma at least. -/
theorem avoids_items (hexact : Exact item P) (hitem : ∀ r, Avoids e (item r)) {turns : Nat}
    {acc : List α} (h : r.length < turns) : Avoids e (items item close what wrap turns acc r) := by
  induction turns generalizing acc r with
  | zero => omega
  | succ turns ih =>
      refine avoids_bind.2 ⟨hitem r, fun p hp => ?_⟩
      obtain ⟨x, r₁⟩ := p
      obtain ⟨a, w, rfl, -, -⟩ := hexact.sound hp
      obtain ⟨b, hb, -⟩ := ws_split r₁
      dsimp only
      split
      · exact avoids_fail he _ _
      · rename_i c r₂ hr₂
        split
        · refine ih ?_
          rw [hr₂] at hb
          rw [hb] at h
          simp only [List.length_append, List.length_cons] at h
          omega
        · split
          · exact avoids_ok _
          · exact avoids_fail he _ _

theorem avoids_container (hexact : Exact item P) (hitem : ∀ r, Avoids e (item r)) (r : Bytes) :
    Avoids e (container item close what wrap r) := by
  unfold container
  split
  · exact avoids_items he hexact hitem (by simp)
  · split
    · exact avoids_ok _
    · exact avoids_items he hexact hitem (by simp)

end Lists

theorem avoids_member {inner : Bytes → Except JsonFault (Json × Bytes)}
    (hinner : ∀ r, Avoids e (inner r)) (r : Bytes) : Avoids e (member inner r) := by
  refine avoids_bind.2 ⟨avoids_string he _, fun p _ => ?_⟩
  dsimp only
  split
  · exact avoids_fail he _ _
  · split
    · exact avoids_bind.2 ⟨hinner _, fun _ _ => avoids_ok _⟩
    · exact avoids_fail he _ _

theorem avoids_valueAt {inner : Option (Bytes → Except JsonFault (Json × Bytes))}
    {V : Bytes → Json → Prop}
    (hinner : ∀ v, inner = some v → Exact v V ∧ ∀ r, Avoids e (v r)) (r : Bytes) :
    Avoids e (valueAt inner r) := by
  unfold valueAt
  split
  · exact avoids_fail he _ _
  · split
    · split
      · exact avoids_fail he _ _
      · obtain ⟨hexact, havoids⟩ := hinner _ rfl
        split
        · exact avoids_container he (member_exact hexact) (avoids_member he havoids) _
        · exact avoids_container he hexact havoids _
    · exact avoids_scalar he _ _

theorem avoids_value (d : Nat) (r : Bytes) : Avoids e (value d r) := by
  induction d generalizing r with
  | zero => exact @avoids_valueAt e he none (fun _ _ => False) (fun v hv => by cases hv) r
  | succ d ih =>
      refine @avoids_valueAt e he (some (value d)) (Json.Value d) (fun v hv => ?_) r
      cases hv
      exact ⟨(value_exact d).1, ih⟩

theorem avoids_parse (text : Bytes) : Avoids e (parse text) := by
  refine avoids_bind.2 ⟨avoids_value he _ _, fun p _ => ?_⟩
  dsimp only
  split
  · exact avoids_ok _
  · exact avoids_fail he _ _

end Faults

/-- [SRC Publish.cc:147-461] The parser accepts the texts of the grammar whose containers nest at most
64 deep, with the value the text denotes, and no others; it neither reads past the end of the text nor
fails to end. -/
theorem json_parse_exact (text : Bytes) :
    (∀ j, parse text = .ok j ↔ Json.Text 64 text j) ∧
      parse text ≠ .error .pastEnd ∧ parse text ≠ .error .stuck :=
  ⟨fun _ => parse_iff, avoids_parse (fun _ _ h => by cases h) text,
    avoids_parse (fun _ _ h => by cases h) text⟩

example : parse [91, 34, 92, 117, 68, 56, 51, 68, 34, 44, 49, 46, 53, 93] =
    .ok (.array [.string [239, 191, 189], .number [49, 46, 53]]) := by rfl

end JsonParser

end UCache
