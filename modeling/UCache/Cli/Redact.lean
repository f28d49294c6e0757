/-
Module: UCache.Cli.Redact
Purpose: What of a benchmark record may be sent: the members that are dropped, blanked and kept, and the
  command line without its paths.
Trusted boundary: none
Main exports: Redact.splitCmd, Redact.normalizeCmd, Redact.redaction_holds
-/
import UCache.Lib.Json
import UCache.Transpose.Key

namespace UCache

open Lib

namespace Redact

/-! ### Command lines -/

/-- [SRC Publish.cc:857-893] From a place in the line on: the open quote, the token so far and whether
there is one. -/
def splitFrom : Option UInt8 → Bytes → Bool → Bytes → List Bytes
  | _, cur, started, [] => if started then [cur] else []
  | some q, cur, started, c :: rest =>
      if c = q then splitFrom none cur started rest
      else
        match rest with
        | d :: rest' =>
            if c = 92 ∧ q = 34 then splitFrom (some q) (cur ++ [d]) started rest'
            else splitFrom (some q) (cur ++ [c]) started (d :: rest')
        | [] => splitFrom (some q) (cur ++ [c]) started []
  | none, cur, started, c :: rest =>
      if c = 39 ∨ c = 34 then splitFrom (some c) cur true rest
      else
        match rest with
        | d :: rest' =>
            if c = 92 then splitFrom none (cur ++ [d]) true rest'
            else if c = 32 ∨ c = 9 ∨ c = 10 then
              (if started then [cur] else []) ++ splitFrom none [] false (d :: rest')
            else splitFrom none (cur ++ [c]) true (d :: rest')
        | [] =>
            if c = 32 ∨ c = 9 ∨ c = 10 then
              (if started then [cur] else []) ++ splitFrom none [] false []
            else splitFrom none (cur ++ [c]) true []

/-- The tokens of a command line, quotes taken off. -/
def splitCmd (cmd : Bytes) : List Bytes := splitFrom none [] false cmd

/-- [SRC Publish.cc:895] -/
def namesAPlace (tok : Bytes) : Bool := tok.contains 47 || tok.head? = some 126

/-- What the loop does with a token. -/
inductive Piece where
  | put (text : Bytes)
  | drop
  | dropWithNext

/-- [SRC Publish.cc:910-913] The program: the last part of its path, by its prefix. -/
def programPiece (t : Bytes) : Bytes :=
  let base := (t.reverse.takeWhile (· ≠ 47)).reverse
  if base.take 6 = ascii "ucache" then ascii "ucache" else ascii "<exe>"

/-- [SRC Publish.cc:914-927] A token after the program. -/
def argPiece (t : Bytes) : Piece :=
  if t = ascii "--log" then .dropWithNext
  else if t.take 6 = ascii "--log=" then .drop
  else if t.head? = some 45 ∧ t.contains 61 then
    let name := t.takeWhile (· ≠ 61)
    let val := t.drop (name.length + 1)
    .put (if namesAPlace val then name ++ ascii "=<path>" else t)
  else if namesAPlace t then .put (ascii "<path>")
  else .put t

/-- [SRC Publish.cc:928-930] -/
def addPiece (out piece : Bytes) : Bytes :=
  (if out = [] then out else out ++ [32]) ++ piece

/-- [SRC Publish.cc:903-931] The loop after the first token; `skip` is set behind `--log`. -/
def argLoop : Bool → Bytes → List Bytes → Bytes
  | _, out, [] => out
  | true, out, _ :: toks => argLoop false out toks
  | false, out, t :: toks =>
      match argPiece t with
      | .put piece => argLoop false (addPiece out piece) toks
      | .drop => argLoop false out toks
      | .dropWithNext => argLoop true out toks

/-- [SRC Publish.cc:899-933] -/
def normalizeCmd (cmd : Bytes) : Bytes :=
  match splitCmd cmd with
  | [] => []
  | program :: args => argLoop false (addPiece [] (programPiece program)) args

/-! ### Records -/

/-- [SRC Publish.cc:1026] -/
def kBenchDropKeys : List Bytes :=
  [ascii "path", ascii "mount", ascii "mount_source", ascii "mount_opts", ascii "mount_super_opts"]

/-- [SRC Publish.cc:1040-1043] -/
def kBenchKeepStrings : List Bytes :=
  [ascii "fs", ascii "mode", ascii "error", ascii "build_write_shape", ascii "time",
    ascii "version", ascii "build_id", ascii "kernel", ascii "arch", ascii "cpu_model", ascii "dev",
    ascii "mount_fstype", ascii "dev_name", ascii "dev_model", ascii "dev_sched"]

mutual

/-- [SRC Publish.cc:1047-1063] -/
def hasAnyString : Json → Bool
  | .string _ => true
  | .array elems => anyString elems
  | .object members => anyMember members
  | _ => false

def anyString : List Json → Bool
  | [] => false
  | e :: elems => hasAnyString e || anyString elems

def anyMember : List (Bytes × Json) → Bool
  | [] => false
  | (_, v) :: members => hasAnyString v || anyMember members

end

/-- [SRC Publish.cc:1065-1070] -/
def keepsItsText (key : Bytes) : Bool := kBenchKeepStrings.contains key

/-- The members of a value: those of an object. -/
def membersOf : Json → List (Bytes × Json)
  | .object members => members
  | _ => []

/-- [SRC Publish.cc:104-107] The string under a key: that of its first member. -/
def str (j : Json) (key : Bytes) : Bytes :=
  match (membersOf j).find? fun m => m.1 = key with
  | some (_, .string s) => s
  | _ => []

/-- [SRC Publish.cc:88-98] The first member under the key gets the value, or one is added. -/
def setMember (key : Bytes) (value : Json) : List (Bytes × Json) → List (Bytes × Json)
  | [] => [(key, value)]
  | m :: members =>
      if m.1 = key then (m.1, value) :: members else m :: setMember key value members

/-- The text of a command member. -/
def cmdOf (m : Bytes × Json) : Option Bytes :=
  match m.2 with
  | .string s => if m.1 = ascii "cmd" then some s else none
  | _ => none

/-- [SRC Publish.cc:1087-1102] What becomes of one member. -/
def redactMember (m : Bytes × Json) : Option (Bytes × Json) :=
  if kBenchDropKeys.contains m.1 then none
  else if m.1 = ascii "host" then some (m.1, .string [])
  else
    match cmdOf m with
    | some c => some (m.1, .string (normalizeCmd c))
    | none => if hasAnyString m.2 && !keepsItsText m.1 then none else some m

/-- The salted hashes of a place on a host: by salt, host and path. -/
structure PlaceHashes where
  location : Bytes → Bytes → Bytes → Bytes
  volume : Bytes → Bytes → Bytes → Bytes

section Bench

variable (H : PlaceHashes)

/-- [SRC Publish.cc:1103-1110] What an identity, here its salt, adds. -/
def addPlaces (record : Json) (salt : Bytes) (out : List (Bytes × Json)) : List (Bytes × Json) :=
  let host := str record (ascii "host")
  if host = [] then out
  else
    let path := str record (ascii "path")
    let mount := str record (ascii "mount")
    let out := if path = [] then out
      else setMember (ascii "location") (.string (H.location salt host path)) out
    if mount = [] then out
    else setMember (ascii "volume") (.string (H.volume salt host mount)) out

/-- [SRC Publish.cc:1085-1114] -/
def redactBench (record : Json) (salt : Option Bytes) (installId : Bytes) : Json :=
  let out := (membersOf record).filterMap redactMember
  let out := match salt with
    | some salt => addPlaces H record salt out
    | none => out
  .object (if installId = [] then out else setMember (ascii "install_id") (.string installId) out)

end Bench

/-! ### Strings in a value -/

/-- The string is somewhere in the value. -/
inductive StringIn (s : Bytes) : Json → Prop
  | here : StringIn s (.string s)
  | elem {e : Json} {elems : List Json} (he : e ∈ elems) (h : StringIn s e) :
      StringIn s (.array elems)
  | member {m : Bytes × Json} {members : List (Bytes × Json)} (hm : m ∈ members)
      (h : StringIn s m.2) : StringIn s (.object members)

theorem anyString_iff {elems : List Json} :
    anyString elems = true ↔ ∃ e ∈ elems, hasAnyString e = true := by
  induction elems with
  | nil => simp [anyString]
  | cons e elems ih => simp [anyString, ih]

theorem anyMember_iff {members : List (Bytes × Json)} :
    anyMember members = true ↔ ∃ m ∈ members, hasAnyString m.2 = true := by
  induction members with
  | nil => simp [anyMember]
  | cons m members ih =>
      obtain ⟨key, v⟩ := m
      simp [anyMember, ih]

theorem hasAnyString_iff {j : Json} : hasAnyString j = true ↔ ∃ s, StringIn s j := by
  constructor
  · intro h
    induction j using Json.induct with
    | null => cases h
    | bool b => cases h
    | number t => cases h
    | string s => exact ⟨s, .here⟩
    | array elems ih =>
        obtain ⟨e, he, hany⟩ := anyString_iff.1 h
        obtain ⟨s, hs⟩ := ih e he hany
        exact ⟨s, .elem he hs⟩
    | object members ih =>
        obtain ⟨m, hm, hany⟩ := anyMember_iff.1 h
        obtain ⟨s, hs⟩ := ih m hm hany
        exact ⟨s, .member hm hs⟩
  · rintro ⟨s, hs⟩
    induction hs with
    | here => rfl
    | elem he _ ih => exact anyString_iff.2 ⟨_, he, ih⟩
    | member hm _ ih => exact anyMember_iff.2 ⟨_, hm, ih⟩

mutual

/-- The value without the text of its strings. -/
def blank : Json → Json
  | .string _ => .string []
  | .array elems => .array (blankElems elems)
  | .object members => .object (blankMembers members)
  | j => j

def blankElems : List Json → List Json
  | [] => []
  | e :: elems => blank e :: blankElems elems

def blankMembers : List (Bytes × Json) → List (Bytes × Json)
  | [] => []
  | (key, v) :: members => (key, blank v) :: blankMembers members

end

theorem blankElems_eq (elems : List Json) : blankElems elems = elems.map blank := by
  induction elems with
  | nil => rfl
  | cons e elems ih => rw [blankElems, ih, List.map_cons]

theorem blankMembers_eq (members : List (Bytes × Json)) :
    blankMembers members = members.map fun m => (m.1, blank m.2) := by
  induction members with
  | nil => rfl
  | cons m members ih => rw [blankMembers, ih, List.map_cons]

theorem hasAnyString_blank (j : Json) : hasAnyString (blank j) = hasAnyString j := by
  rw [Bool.eq_iff_iff]
  induction j using Json.induct with
  | null => exact Iff.rfl
  | bool b => exact Iff.rfl
  | number t => exact Iff.rfl
  | string s => exact Iff.rfl
  | array elems ih =>
      rw [blank, blankElems_eq, hasAnyString, hasAnyString, anyString_iff, anyString_iff]
      simp only [List.mem_map, exists_exists_and_eq_and]
      exact exists_congr fun e => and_congr_right fun he => ih e he
  | object members ih =>
      rw [blank, blankMembers_eq, hasAnyString, hasAnyString, anyMember_iff, anyMember_iff]
      simp only [List.mem_map, exists_exists_and_eq_and]
      exact exists_congr fun m => and_congr_right fun hm => ih m hm

/-- Without strings there is no text to leave out. -/
theorem blank_eq {j : Json} (h : hasAnyString j = false) : blank j = j := by
  induction j using Json.induct with
  | null => rfl
  | bool b => rfl
  | number t => rfl
  | string s => cases h
  | array elems ih =>
      have hnone : ∀ e ∈ elems, hasAnyString e = false := by
        intro e he
        by_contra hany
        rw [hasAnyString, anyString_iff.2 ⟨e, he, by simpa using hany⟩] at h
        cases h
      rw [blank, blankElems_eq, List.map_congr_left (fun e he => ih e he (hnone e he)),
        List.map_id']
  | object members ih =>
      have hnone : ∀ m ∈ members, hasAnyString m.2 = false := by
        intro m hm
        by_contra hany
        rw [hasAnyString, anyMember_iff.2 ⟨m, hm, by simpa using hany⟩] at h
        cases h
      rw [blank, blankMembers_eq, List.map_congr_left (g := id) fun m hm => ?_, List.map_id]
      rw [ih m hm (hnone m hm), id]

/-! ### Command lines without paths -/

/-- The arguments that the command line keeps something of, or drops on their own account: all but
`--log` and what comes behind it. -/
def shownArgs : Bool → List Bytes → List Bytes
  | _, [] => []
  | true, _ :: toks => shownArgs false toks
  | false, t :: toks => if t = ascii "--log" then shownArgs true toks else t :: shownArgs false toks

/-- An option with a slash in front of its first `=`. -/
def HidesPath (t : Bytes) : Prop :=
  t.head? = some 45 ∧ 61 ∈ t ∧ 47 ∈ t.takeWhile (· ≠ 61)

theorem option_split {t : Bytes} (h : 61 ∈ t) :
    t = t.takeWhile (· ≠ 61) ++ 61 :: t.drop ((t.takeWhile (· ≠ 61)).length + 1) := by
  induction t with
  | nil => cases h
  | cons c t ih =>
      by_cases hc : c = 61
      · subst hc
        rfl
      · have hmem : (61 : UInt8) ∈ t := (List.mem_cons.1 h).resolve_left fun h => hc h.symm
        rw [List.takeWhile_cons_of_pos (by simpa using hc), List.cons_append, List.length_cons,
          List.drop_succ_cons, ← ih hmem]

theorem argPiece_spec (t : Bytes) :
    match argPiece t with
    | .put piece => t ≠ ascii "--log" ∧ (47 ∈ piece ↔ HidesPath t)
    | .drop => t ≠ ascii "--log" ∧ ¬ HidesPath t
    | .dropWithNext => t = ascii "--log" := by
  unfold argPiece
  split_ifs with hlog hprefix hoption hplace
  · exact hlog
  · refine ⟨hlog, ?_⟩
    rintro ⟨-, -, hslash⟩
    have hword : ascii "--log=" = [45, 45, 108, 111, 103, 61] := by decide
    rw [← List.take_append_drop 6 t, hprefix, hword] at hslash
    exact absurd hslash (by simp)
  · refine ⟨hlog, ?_⟩
    have hsplit := option_split (List.contains_iff_mem.1 hoption.2)
    have hiff : HidesPath t ↔ 47 ∈ t.takeWhile (· ≠ 61) :=
      ⟨fun h => h.2.2, fun h => ⟨hoption.1, List.contains_iff_mem.1 hoption.2, h⟩⟩
    rw [hiff]
    split
    · rw [List.mem_append]
      exact or_iff_left (by decide)
    · rename_i hval
      nth_rewrite 1 [hsplit]
      rw [List.mem_append, List.mem_cons]
      simp only [namesAPlace, Bool.or_eq_true, not_or, List.contains_iff_mem] at hval
      exact or_iff_left fun h => h.elim (by decide) hval.1
  · refine ⟨hlog, iff_of_false (by decide) ?_⟩
    rintro ⟨hdash, heq, -⟩
    exact hoption ⟨hdash, List.contains_iff_mem.2 heq⟩
  · refine ⟨hlog, iff_of_false ?_ ?_⟩
    · simp only [namesAPlace, Bool.or_eq_true, not_or, List.contains_iff_mem] at hplace
      exact hplace.1
    · rintro ⟨hdash, heq, -⟩
      exact hoption ⟨hdash, List.contains_iff_mem.2 heq⟩

theorem mem_addPiece {out piece : Bytes} : 47 ∈ addPiece out piece ↔ 47 ∈ out ∨ 47 ∈ piece := by
  unfold addPiece
  split <;> simp

/-- Token by token: a slash comes from what was there or from an option that hides one. -/
theorem slash_argLoop {skip : Bool} {out : Bytes} {toks : List Bytes} :
    47 ∈ argLoop skip out toks ↔ 47 ∈ out ∨ ∃ t ∈ shownArgs skip toks, HidesPath t := by
  induction toks generalizing skip out with
  | nil => cases skip <;> simp [argLoop, shownArgs]
  | cons t toks ih =>
      cases skip with
      | true => rw [argLoop, shownArgs, ih]
      | false =>
          have hpiece := argPiece_spec t
          rw [argLoop, shownArgs]
          cases hp : argPiece t with
          | put piece =>
              rw [hp] at hpiece
              simp only [ih, mem_addPiece, hpiece.2, if_neg hpiece.1, List.exists_mem_cons_iff,
                or_assoc]
          | drop =>
              rw [hp] at hpiece
              simp only [ih, if_neg hpiece.1, List.exists_mem_cons_iff, hpiece.2, false_or]
          | dropWithNext =>
              rw [hp] at hpiece
              simp only [ih, if_pos hpiece]

theorem slash_normalizeCmd {cmd : Bytes} :
    47 ∈ normalizeCmd cmd ↔ ∃ t ∈ shownArgs false (splitCmd cmd).tail, HidesPath t := by
  unfold normalizeCmd
  cases splitCmd cmd with
  | nil => simp [shownArgs]
  | cons program args =>
      have hprogram : 47 ∉ programPiece program := by
        unfold programPiece
        dsimp only
        split <;> decide
      simp only [slash_argLoop, mem_addPiece, hprogram, List.not_mem_nil, or_self, false_or,
        List.tail_cons]

/-! ### Records without places -/

section Bench

variable (H : PlaceHashes) (record : Json) (salt : Option Bytes) (installId : Bytes)
variable {m : Bytes × Json}

/-- The members whose text may leave the machine: one of a key that was vouched for, the blanked host,
a normalised command, or one that was added. -/
inductive Vouched : Bytes × Json → Prop
  | kept {m : Bytes × Json} (h : keepsItsText m.1 = true) : Vouched m
  | host : Vouched (ascii "host", .string [])
  | cmd {c : Bytes} (hc : (ascii "cmd", .string c) ∈ membersOf record) :
      Vouched (ascii "cmd", .string (normalizeCmd c))
  | location {s : Bytes} (hs : salt = some s) : Vouched (ascii "location",
      .string (H.location s (str record (ascii "host")) (str record (ascii "path"))))
  | volume {s : Bytes} (hs : salt = some s) : Vouched (ascii "volume",
      .string (H.volume s (str record (ascii "host")) (str record (ascii "mount"))))
  | installId : Vouched (ascii "install_id", .string installId)

variable {H record salt installId} {P : Bytes × Json → Prop}

theorem setMember_all {key : Bytes} {value : Json} {members : List (Bytes × Json)}
    (h : ∀ m ∈ members, P m) (hnew : P (key, value)) : ∀ m ∈ setMember key value members, P m := by
  induction members with
  | nil => exact List.forall_mem_singleton.2 hnew
  | cons m members ih =>
      obtain ⟨hm, hrest⟩ := List.forall_mem_cons.1 h
      unfold setMember
      split
      · rename_i hkey
        rw [hkey]
        exact List.forall_mem_cons.2 ⟨hnew, hrest⟩
      · exact List.forall_mem_cons.2 ⟨hm, ih hrest⟩

/-- What holds of every member that stays and of those that are added holds of the result. -/
theorem redactBench_all (hbase : ∀ m₀ ∈ membersOf record, ∀ m, redactMember m₀ = some m → P m)
    (hlocation : ∀ s, salt = some s → P (ascii "location",
      .string (H.location s (str record (ascii "host")) (str record (ascii "path")))))
    (hvolume : ∀ s, salt = some s → P (ascii "volume",
      .string (H.volume s (str record (ascii "host")) (str record (ascii "mount")))))
    (hinstall : P (ascii "install_id", .string installId)) :
    ∀ m ∈ membersOf (redactBench H record salt installId), P m := by
  have hkept : ∀ m ∈ (membersOf record).filterMap redactMember, P m := by
    intro m hm
    obtain ⟨m₀, hm₀, hred⟩ := List.mem_filterMap.1 hm
    exact hbase m₀ hm₀ m hred
  have hplaces : ∀ m ∈ (match salt with
      | some salt => addPlaces H record salt ((membersOf record).filterMap redactMember)
      | none => (membersOf record).filterMap redactMember), P m := by
    cases salt with
    | none => exact hkept
    | some s =>
        have hloc : ∀ m ∈ (if str record (ascii "path") = [] then
            (membersOf record).filterMap redactMember else setMember (ascii "location")
              (.string (H.location s (str record (ascii "host")) (str record (ascii "path"))))
              ((membersOf record).filterMap redactMember)), P m := by
          split
          · exact hkept
          · exact setMember_all hkept (hlocation s rfl)
        unfold addPlaces
        dsimp only
        split
        · exact hkept
        · split
          · exact hloc
          · exact setMember_all hloc (hvolume s rfl)
  show ∀ m ∈ (if installId = [] then _ else setMember (ascii "install_id") (.string installId) _), P m
  split
  · exact hplaces
  · exact setMember_all hplaces hinstall

theorem cmdOf_eq_some {c : Bytes} (h : cmdOf m = some c) : m = (ascii "cmd", .string c) := by
  obtain ⟨key, v⟩ := m
  unfold cmdOf at h
  split at h
  · rename_i s hs
    split at h
    · rename_i hkey
      cases h
      exact Prod.ext hkey hs
    · cases h
  · cases h

/-- A member that stays is the blanked host, the normalised command, or itself without text of its
own. -/
theorem redactMember_cases {m₀ : Bytes × Json} (h : redactMember m₀ = some m) :
    m = (ascii "host", .string []) ∨
      (∃ c, m₀ = (ascii "cmd", .string c) ∧ m = (ascii "cmd", .string (normalizeCmd c))) ∨
      m = m₀ ∧ m.1 ≠ ascii "host" ∧ (hasAnyString m.2 = true → keepsItsText m.1 = true) := by
  unfold redactMember at h
  split at h
  · cases h
  · split at h
    · rename_i hhost
      cases h
      rw [hhost]
      exact .inl rfl
    · rename_i hhost
      split at h
      · rename_i c hcmd
        cases h
        obtain rfl := cmdOf_eq_some hcmd
        exact .inr (.inl ⟨c, rfl, rfl⟩)
      · split at h
        · cases h
        · rename_i htext
          cases h
          refine .inr (.inr ⟨rfl, hhost, fun hany => ?_⟩)
          rwa [hany, Bool.true_and, Bool.not_eq_true', Bool.not_eq_false] at htext

theorem redactMember_vouched {m₀ : Bytes × Json} (hm₀ : m₀ ∈ membersOf record)
    (h : redactMember m₀ = some m) {s : Bytes} (hs : StringIn s m.2) :
    Vouched H record salt installId m := by
  rcases redactMember_cases h with rfl | ⟨c, rfl, rfl⟩ | ⟨rfl, -, hkeeps⟩
  · exact .host
  · exact .cmd hm₀
  · exact .kept (hkeeps (hasAnyString_iff.2 ⟨s, hs⟩))

theorem redactMember_host {m₀ : Bytes × Json} (h : redactMember m₀ = some m)
    (hhost : m.1 = ascii "host") : m.2 = .string [] := by
  rcases redactMember_cases h with rfl | ⟨c, rfl, rfl⟩ | ⟨rfl, hne, -⟩
  · rfl
  · exact absurd hhost (show ascii "cmd" ≠ ascii "host" by decide)
  · exact absurd hhost hne

/-- Two members that differ at most in what may not leave: a dropped value, the host, or the text of
strings under a key other than the command's that nobody vouched for. -/
def Alike (m m' : Bytes × Json) : Prop :=
  m.1 = m'.1 ∧ (m.2 = m'.2 ∨ m.1 ∈ kBenchDropKeys ∨ m.1 = ascii "host" ∨
    m.1 ≠ ascii "cmd" ∧ keepsItsText m.1 = false ∧ blank m.2 = blank m'.2)

def Indistinct (record record' : Json) : Prop :=
  List.Forall₂ Alike (membersOf record) (membersOf record')

theorem redactMember_alike {m' : Bytes × Json} (h : Alike m m') :
    redactMember m = redactMember m' := by
  obtain ⟨key, v⟩ := m
  obtain ⟨key', v'⟩ := m'
  obtain ⟨hkey, hrest⟩ := h
  obtain rfl : key = key' := hkey
  rcases hrest with hv | hdrop | hhost | ⟨hcmd, hkeep, hblank⟩
  · obtain rfl : v = v' := hv
    rfl
  · have hin : kBenchDropKeys.contains key = true := List.contains_iff_mem.2 hdrop
    rw [redactMember, redactMember, if_pos hin, if_pos hin]
  · obtain rfl : key = ascii "host" := hhost
    rfl
  · have hcmd : key ≠ ascii "cmd" := hcmd
    have hnone : ∀ v, cmdOf (key, v) = none := by
      intro v
      unfold cmdOf
      split
      · exact if_neg hcmd
      · rfl
    have hany : hasAnyString v = hasAnyString v' := by
      rw [← hasAnyString_blank v, ← hasAnyString_blank v']
      exact congrArg hasAnyString hblank
    have hkeep : keepsItsText key = false := hkeep
    simp only [redactMember, hnone, hkeep, ← hany]
    cases hstrings : hasAnyString v with
    | true => rfl
    | false =>
        have hsame : v = v' := by
          have hblank : blank v = blank v' := hblank
          rwa [blank_eq hstrings, blank_eq (hany ▸ hstrings)] at hblank
        rw [hsame]

theorem redactBench_indistinct {record' : Json} (h : Indistinct record record') :
    redactBench H record none installId = redactBench H record' none installId := by
  have hsame : (membersOf record).filterMap redactMember =
      (membersOf record').filterMap redactMember := by
    unfold Indistinct at h
    generalize membersOf record = members at h ⊢
    generalize membersOf record' = members' at h ⊢
    induction h with
    | nil => rfl
    | cons hm _ ih => rw [List.filterMap_cons, List.filterMap_cons, redactMember_alike hm, ih]
  simp only [redactBench, hsame]

end Bench

/-- [SRC Publish.cc:857-933, 1047-1114] What leaves the machine with a record: no host, no text but what
is vouched for, and without an identity nothing of what is dropped or withheld.  A command line is
free of slashes exactly when none of its options hides one in front of its `=`. -/
theorem redaction_holds (H : PlaceHashes) (record : Json) (salt : Option Bytes)
    (installId cmd : Bytes) :
    (∀ m ∈ membersOf (redactBench H record salt installId),
      m.1 = ascii "host" → m.2 = .string []) ∧
    (∀ m ∈ membersOf (redactBench H record salt installId), ∀ s, StringIn s m.2 →
      Vouched H record salt installId m) ∧
    (∀ record', Indistinct record record' →
      redactBench H record none installId = redactBench H record' none installId) ∧
    (47 ∉ normalizeCmd cmd ↔ ∀ t ∈ shownArgs false (splitCmd cmd).tail, ¬ HidesPath t) := by
  refine ⟨?_, ?_, fun _ => redactBench_indistinct, ?_⟩
  · exact redactBench_all (fun _ _ _ h hhost => redactMember_host h hhost)
      (fun _ _ h => absurd h (show ascii "location" ≠ ascii "host" by decide))
      (fun _ _ h => absurd h (show ascii "volume" ≠ ascii "host" by decide))
      (fun h => absurd h (show ascii "install_id" ≠ ascii "host" by decide))
  · exact redactBench_all (fun _ hm₀ _ h _ hs => redactMember_vouched hm₀ h hs)
      (fun _ hs _ _ => .location hs) (fun _ hs _ _ => .volume hs) (fun _ _ => .installId)
  · rw [slash_normalizeCmd]
    push Not
    exact Iff.rfl

/-- The output file glued to its option stays in the command line that is sent. -/
theorem option_hides_path :
    normalizeCmd (ascii "ucache bench -o/data/u=1") = ascii "ucache bench -o/data/u=1" ∧
      47 ∈ normalizeCmd (ascii "ucache bench -o/data/u=1") := by
  decide +kernel

end Redact

end UCache
