/-
Module: UCache.Core.UrlKeyTrip
Purpose: A key is a URL whose key is itself: every part of it is found again where it was written.
Trusted boundary: none
Main exports: parse_iff, parse_key
-/
import UCache.Core.UrlKey

namespace UCache

namespace UrlKey

open CText Lib

/-! ### Lower case -/

/-- A byte that is no letter is the lower case of itself alone. -/
theorem lowerByte_eq_iff {b c : UInt8} (hc : c < 65 ∨ 90 < c ∧ c < 97) :
    lowerByte b = c ↔ b = c := by
  unfold lowerByte
  split
  · rename_i hb
    have hsum : (b + 32).toNat = b.toNat + 32 := by
      have := UInt8.le_iff_toNat_le.1 hb.2
      rw [UInt8.toNat_add]
      show (b.toNat + 32) % 256 = _
      change b.toNat ≤ 90 at this
      omega
    have hlow : 65 ≤ b.toNat := UInt8.le_iff_toNat_le.1 hb.1
    have hhigh : b.toNat ≤ 90 := UInt8.le_iff_toNat_le.1 hb.2
    rw [UInt8.lt_iff_toNat_lt, UInt8.lt_iff_toNat_lt, UInt8.lt_iff_toNat_lt] at hc
    change c.toNat < 65 ∨ 90 < c.toNat ∧ c.toNat < 97 at hc
    rw [← UInt8.toNat_inj, ← UInt8.toNat_inj, hsum]
    omega
  · exact Iff.rfl

theorem mem_toLower {s : Bytes} {c : UInt8} (hc : c < 65 ∨ 90 < c ∧ c < 97) :
    c ∈ toLower s ↔ c ∈ s := by
  unfold toLower
  rw [List.mem_map]
  constructor
  · rintro ⟨b, hb, hbc⟩
    exact (lowerByte_eq_iff hc).1 hbc ▸ hb
  · exact fun h => ⟨c, h, (lowerByte_eq_iff hc).2 rfl⟩

theorem toLower_toLower (s : Bytes) : toLower (toLower s) = toLower s := by
  have hbyte : ∀ b, lowerByte (lowerByte b) = lowerByte b := by
    intro b
    by_cases hb : 65 ≤ b ∧ b ≤ 90
    · have hlow : 65 ≤ b.toNat := UInt8.le_iff_toNat_le.1 hb.1
      have hhigh : b.toNat ≤ 90 := UInt8.le_iff_toNat_le.1 hb.2
      have hsum : (b + 32).toNat = b.toNat + 32 := by
        rw [UInt8.toNat_add]
        show (b.toNat + 32) % 256 = _
        omega
      have hno : ¬ (65 ≤ b + 32 ∧ b + 32 ≤ 90) := by
        rw [UInt8.le_iff_toNat_le, UInt8.le_iff_toNat_le, hsum]
        show ¬ (65 ≤ _ ∧ _ ≤ 90)
        omega
      have hlower : lowerByte b = b + 32 := if_pos hb
      rw [hlower]
      exact if_neg hno
    · have hlower : lowerByte b = b := if_neg hb
      rw [hlower, hlower]
  unfold toLower
  rw [List.map_map]
  exact List.map_congr_left fun b _ => hbyte b

theorem schemeMark_letters {c : UInt8} (h : c ∈ schemeMark) : c < 65 := by
  simp only [schemeMark, List.mem_cons, List.not_mem_nil, or_false] at h
  rcases h with rfl | rfl | rfl <;> decide

/-- The mark is found in a scheme in lower case where it was in the scheme. -/
theorem neverStarts_toLower {s t : Bytes} (h : NeverStarts schemeMark s (schemeMark ++ t)) :
    NeverStarts schemeMark (toLower s) (schemeMark ++ t) := by
  have hmap : ∀ (n l : Bytes), (∀ c ∈ n, c < 65) → n <+: toLower l → n <+: l := by
    intro n
    induction n with
    | nil => exact fun l _ _ => List.nil_prefix
    | cons c n ih =>
        intro l hn hpre
        obtain ⟨hc, hn⟩ := List.forall_mem_cons.1 hn
        cases l with
        | nil => exact absurd hpre (by simp [toLower])
        | cons b l =>
            obtain ⟨hcb, hrest⟩ := List.cons_prefix_cons.1 hpre
            have hb : b = c := (lowerByte_eq_iff (.inl hc)).1 hcb.symm
            rw [hb]
            exact List.cons_prefix_cons.2 ⟨rfl, ih l hn hrest⟩
  have hempty : NeverStarts schemeMark s (schemeMark ++ []) := h.found
  suffices hlower : NeverStarts schemeMark (toLower s) (schemeMark ++ []) from hlower.found
  clear h
  induction s with
  | nil => trivial
  | cons b s ih =>
      refine ⟨fun hpre => hempty.1 ?_, ih hempty.2⟩
      apply hmap schemeMark (b :: (s ++ (schemeMark ++ []))) fun c => schemeMark_letters
      have hsame : toLower (b :: (s ++ (schemeMark ++ []))) =
          lowerByte b :: (toLower s ++ (schemeMark ++ [])) := by
        simp [toLower, schemeMark, lowerByte]
      rw [hsame]
      exact hpre

/-! ### The steps of a parse -/

variable {keepCgi : List Bytes}

theorem cutUrl_iff {url s a rest : Bytes} : cutUrl url = some (s, a, rest) ↔
    url = s ++ (schemeMark ++ (a ++ 47 :: rest)) ∧
      NeverStarts schemeMark s (schemeMark ++ (a ++ 47 :: rest)) ∧ s ≠ [] ∧ a ≠ [] ∧ 47 ∉ a := by
  unfold cutUrl
  constructor
  · intro h
    split at h
    · cases h
    · rename_i s' behind hcut
      split at h
      · cases h
      · rename_i hs
        split at h
        · cases h
        · rename_i a' rest' hslash
          split at h
          · cases h
          · rename_i ha
            cases h
            obtain ⟨hurl, hnever⟩ := cutAt_iff.1 hcut
            obtain ⟨hbehind, hno⟩ := cutFirst_iff.1 hslash
            rw [hbehind] at hurl hnever
            exact ⟨hurl, hnever, hs, ha, hno⟩
  · rintro ⟨hurl, hnever, hs, ha, hno⟩
    have hcut : cutAt schemeMark url = some (s, a ++ 47 :: rest) := cutAt_iff.2 ⟨hurl, hnever⟩
    have hslash : cutFirst 47 (a ++ 47 :: rest) = some (a, rest) := cutFirst_iff.2 ⟨rfl, hno⟩
    rw [hcut]
    simp only [hslash]
    rw [if_neg hs, if_neg ha]

/-- What a parsed URL was made of. -/
structure Parsed (url : Bytes) (keepCgi : List Bytes) (s a rest host : Bytes) (port : Int)
    (k : KeyParts) : Prop where
  cut : cutUrl url = some (s, a, rest)
  named : hostPort (toLower s) (dropUserinfo a) = some (host, port)
  host_ne : host ≠ []
  port_pos : 0 < port
  eq : k = { key := toLower s ++ schemeMark ++ toLower host ++ 58 :: decimal port.toNat ++
               normalizePath (splitQuery (47 :: rest)).1 ++
                 keptText (keptParams keepCgi (splitQuery (47 :: rest)).2)
             scheme := toLower s
             host := toLower host }

theorem parse_iff {url : Bytes} {k : KeyParts} :
    parse url keepCgi = some k ↔ ∃ s a rest host port, Parsed url keepCgi s a rest host port k := by
  have hnil : ∀ host : Bytes, toLower host = [] ↔ host = [] := fun _ => List.map_eq_nil_iff
  unfold parse
  constructor
  · intro h
    split at h
    · cases h
    · rename_i s a rest hcut
      dsimp only at h
      split at h
      · cases h
      · rename_i host port hnamed
        split at h
        · cases h
        · rename_i hok
          obtain ⟨hne, hport⟩ := not_or.1 hok
          cases h
          exact ⟨s, a, rest, host, port, hcut, hnamed, fun h => hne ((hnil host).2 h), by omega,
            rfl⟩
  · rintro ⟨s, a, rest, host, port, hcut, hnamed, hne, hport, rfl⟩
    rw [hcut]
    dsimp only
    rw [hnamed]
    exact if_neg (not_or.2 ⟨fun h => hne ((hnil host).1 h), by omega⟩)

/-! ### Host and port -/

theorem decimal_ne_nil (n : Nat) : decimal n ≠ [] := by
  unfold decimal
  split
  · exact List.cons_ne_nil _ _
  · rename_i hn
    intro h
    have hdigits : Nat.digits 10 n = [] := by simpa using h
    exact hn (Nat.digits_eq_nil_iff_eq_zero.1 hdigits)

theorem atoi_decimal {n : Nat} (h : n < 2 ^ 31) : atoi (decimal n) = n := by
  have hdigits : ∀ b ∈ decimal n, isDigit b = true := fun b hb => isDigit_decimal hb
  have hC : cString (decimal n) = decimal n := by
    refine List.takeWhile_eq_self_iff.2 fun b hb => decide_eq_true ?_
    rintro rfl
    exact absurd (hdigits _ hb) (by decide)
  have hvalue : ofDigits (decimal n) = n := by
    rw [ofDigits_eq, List.takeWhile_eq_self_iff.2 hdigits, decimalValue_decimal]
  have hsigned : CText.signed (decimal n) = (false, n) := by
    unfold CText.signed
    rw [hC]
    cases hd : decimal n with
    | nil => exact absurd hd (decimal_ne_nil n)
    | cons b rest =>
        have hb : isDigit b = true := hdigits b (by rw [hd]; exact List.mem_cons_self ..)
        have hspace : isSpace b = false := by
          rw [isDigit_iff] at hb
          rw [isSpace, Bool.or_eq_false_iff, Bool.and_eq_false_iff]
          refine ⟨decide_eq_false ?_, .inr (decide_eq_false ?_)⟩
          · rintro rfl
            exact absurd hb.1 (by decide)
          · rw [UInt8.le_iff_toNat_le]
            change ¬ b.toNat ≤ 13
            omega
        rw [List.dropWhile_cons_of_neg (by rw [hspace]; decide)]
        have h45 : b ≠ 45 := by rintro rfl; exact absurd hb (by decide)
        have h43 : b ≠ 43 := by rintro rfl; exact absurd hb (by decide)
        simp only [if_neg h45, if_neg h43]
        rw [← hd, hvalue]
  unfold atoi strtol
  rw [hsigned]
  simp only [Bool.false_eq_true, if_false]
  omega

theorem atoi_lt (s : Bytes) : atoi s < 2 ^ 31 := by
  unfold atoi
  omega

theorem defaultPort_lt (scheme : Bytes) : defaultPort scheme < 2 ^ 31 := by
  unfold defaultPort
  split
  · decide
  · split
    · decide
    · split <;> decide

/-- A host that starts with a bracket ends with its first closing one. -/
def Bracketed (host : Bytes) : Prop := host.head? = some 91 → ∃ x, host = x ++ [93] ∧ 93 ∉ x

theorem hostPort_spec {scheme auth host : Bytes} {port : Int}
    (h : hostPort scheme auth = some (host, port)) :
    (∀ c ∈ host, c ∈ auth) ∧ Bracketed host ∧ port < 2 ^ 31 := by
  unfold hostPort at h
  split at h
  · split at h
    · cases h
    · rename_i inner behind hcut
      cases h
      obtain ⟨rfl, hno⟩ := cutFirst_iff.1 hcut
      refine ⟨fun c hc => ?_, fun _ => ⟨inner, rfl, hno⟩, ?_⟩
      · have hinner : inner ++ [93] <+: inner ++ 93 :: behind :=
          (List.prefix_append_right_inj inner).2 ⟨behind, rfl⟩
        exact hinner.subset hc
      · split
        · exact atoi_lt _
        · exact defaultPort_lt scheme
  · rename_i hhead
    split at h
    · rename_i host' port' hcut
      cases h
      obtain ⟨rfl, -⟩ := cutLast_iff.1 hcut
      refine ⟨fun c hc => List.mem_append_left _ hc, fun hb => absurd ?_ hhead, atoi_lt _⟩
      rw [List.head?_append, hb]
      rfl
    · cases h
      exact ⟨fun c hc => hc, fun hb => absurd hb hhead, defaultPort_lt scheme⟩

theorem colon_decimal {n : Nat} {c : UInt8} (hc : c < 48 ∨ 57 < c) : c ∉ decimal n := by
  intro h
  have hdigit := isDigit_iff.1 (isDigit_decimal h)
  rw [UInt8.lt_iff_toNat_lt, UInt8.lt_iff_toNat_lt] at hc
  change c.toNat < 48 ∨ 57 < c.toNat at hc
  omega

theorem hostPort_again {scheme host : Bytes} {n : Nat} (hb : Bracketed host) (hne : host ≠ [])
    (hn : n < 2 ^ 31) : hostPort scheme (host ++ 58 :: decimal n) = some (host, (n : Int)) := by
  have hhead : (host ++ 58 :: decimal n).head? = host.head? := by
    cases host with
    | nil => exact absurd rfl hne
    | cons c host => rfl
  unfold hostPort
  rw [hhead]
  by_cases hbracket : host.head? = some 91
  · obtain ⟨x, rfl, hx⟩ := hb hbracket
    have hcut : cutFirst 93 (x ++ [93] ++ 58 :: decimal n) = some (x, 58 :: decimal n) := by
      refine cutFirst_iff.2 ⟨?_, hx⟩
      rw [List.append_assoc]
      rfl
    rw [if_pos hbracket, hcut]
    simp only [List.head?_cons, if_true, List.tail_cons, atoi_decimal hn]
  · have hcut : cutLast 58 (host ++ 58 :: decimal n) = some (host, decimal n) :=
      cutLast_iff.2 ⟨rfl, colon_decimal (by decide)⟩
    rw [if_neg hbracket, hcut]
    simp only [atoi_decimal hn]

theorem bracketed_toLower {host : Bytes} (h : Bracketed host) : Bracketed (toLower host) := by
  intro hhead
  have hhost : host.head? = some 91 := by
    cases host with
    | nil => cases hhead
    | cons b host =>
        have hb : lowerByte b = 91 := Option.some.inj hhead
        rw [(lowerByte_eq_iff (by decide)).1 hb]
        rfl
  obtain ⟨x, rfl, hx⟩ := h hhost
  exact ⟨toLower x, List.map_append, fun hmem => hx ((mem_toLower (by decide)).1 hmem)⟩

theorem mem_dropUserinfo {auth : Bytes} :
    (∀ c ∈ dropUserinfo auth, c ∈ auth) ∧ 64 ∉ dropUserinfo auth := by
  unfold dropUserinfo
  split
  · rename_i x host hcut
    obtain ⟨rfl, hno⟩ := cutLast_iff.1 hcut
    exact ⟨fun c hc => List.mem_append_right _ (List.mem_cons_of_mem _ hc), hno⟩
  · rename_i hcut
    exact ⟨fun c hc => hc, cutLast_eq_none.1 hcut⟩

theorem dropUserinfo_self {auth : Bytes} (h : 64 ∉ auth) : dropUserinfo auth = auth := by
  unfold dropUserinfo
  rw [cutLast_eq_none.2 h]

/-! ### Pieces between separators -/

theorem mem_getlines {sep : UInt8} {s x : Bytes} (h : x ∈ getlines sep s) :
    sep ∉ x ∧ ∀ c ∈ x, c ∈ s := by
  have hsplit : ∀ (s x : Bytes), x ∈ s.splitOn sep → sep ∉ x ∧ ∀ c ∈ x, c ∈ s := by
    intro s
    induction s with
    | nil =>
        intro x hx
        obtain rfl := List.mem_singleton.1 hx
        exact ⟨List.not_mem_nil, fun c hc => absurd hc List.not_mem_nil⟩
    | cons b s ih =>
        intro x hx
        rw [List.splitOn_cons_eq_if_modifyHead] at hx
        by_cases hb : b = sep
        · rw [if_pos (beq_iff_eq.2 hb)] at hx
          rcases List.mem_cons.1 hx with rfl | hx
          · exact ⟨List.not_mem_nil, fun c hc => absurd hc List.not_mem_nil⟩
          · obtain ⟨hno, hsub⟩ := ih x hx
            exact ⟨hno, fun c hc => List.mem_cons_of_mem b (hsub c hc)⟩
        · rw [if_neg (by simpa using hb)] at hx
          cases hpieces : s.splitOn sep with
          | nil =>
              rw [hpieces] at hx
              cases hx
          | cons y ys =>
              rw [hpieces] at hx
              rcases List.mem_cons.1 hx with rfl | hx
              · obtain ⟨hno, hsub⟩ := ih y (by rw [hpieces]; exact List.mem_cons_self ..)
                exact ⟨List.not_mem_cons_of_ne_of_not_mem (Ne.symm hb) hno,
                  List.forall_mem_cons.2 ⟨List.mem_cons_self ..,
                    fun c hc => List.mem_cons_of_mem b (hsub c hc)⟩⟩
              · obtain ⟨hno, hsub⟩ := ih x (by rw [hpieces]; exact List.mem_cons_of_mem y hx)
                exact ⟨hno, fun c hc => List.mem_cons_of_mem b (hsub c hc)⟩
  refine hsplit s x ?_
  unfold getlines at h
  dsimp only at h
  split at h
  · exact List.mem_of_mem_dropLast h
  · exact h

/-- Pieces without the separator, the last one not empty, are read back. -/
theorem getlines_intercalate {sep : UInt8} {ls : List Bytes} (hls : ∀ l ∈ ls, sep ∉ l)
    (hlast : ∃ l, ls.getLast? = some l ∧ l ≠ []) : getlines sep ([sep].intercalate ls) = ls := by
  obtain ⟨l, hl, hne⟩ := hlast
  have hls_ne : ls ≠ [] := by
    rintro rfl
    cases hl
  unfold getlines
  rw [List.splitOn_intercalate sep hls hls_ne]
  refine if_neg fun h => hne ?_
  rw [hl] at h
  exact Option.some.inj h

theorem intercalate_cons_flatMap (sep : UInt8) (x : Bytes) (l : List Bytes) :
    [sep].intercalate (x :: l) = x ++ l.flatMap (sep :: ·) := by
  induction l generalizing x with
  | nil => simp [List.intercalate]
  | cons y l ih =>
      have hstep : [sep].intercalate (x :: y :: l) =
          x ++ ([sep] ++ [sep].intercalate (y :: l)) := by
        simp [List.intercalate]
      rw [hstep, ih, List.flatMap_cons]
      rfl

/-! ### The path -/

/-- A segment the normalised path may have. -/
structure PathSegment (seg : Bytes) : Prop where
  no_slash : 47 ∉ seg
  nonempty : seg ≠ []
  no_dot : seg ≠ [46]
  no_dots : seg ≠ [46, 46]

def segments (path : Bytes) : List Bytes := (getlines 47 path).foldl addSegment []

theorem segments_spec (path : Bytes) :
    ∀ seg ∈ segments path, PathSegment seg ∧ ∀ c ∈ seg, c ∈ path := by
  have hfold : ∀ (pieces segs : List Bytes), (∀ x ∈ pieces, 47 ∉ x ∧ ∀ c ∈ x, c ∈ path) →
      (∀ seg ∈ segs, PathSegment seg ∧ ∀ c ∈ seg, c ∈ path) →
        ∀ seg ∈ pieces.foldl addSegment segs, PathSegment seg ∧ ∀ c ∈ seg, c ∈ path := by
    intro pieces
    induction pieces with
    | nil => exact fun _ _ hsegs => hsegs
    | cons x pieces ih =>
        intro segs hpieces hsegs
        obtain ⟨hx, hpieces⟩ := List.forall_mem_cons.1 hpieces
        refine ih (addSegment segs x) hpieces fun seg hseg => ?_
        unfold addSegment at hseg
        split at hseg
        · exact hsegs seg hseg
        · rename_i hkeep
          obtain ⟨hne, hdot⟩ := not_or.1 hkeep
          split at hseg
          · exact hsegs seg (List.mem_of_mem_dropLast hseg)
          · rename_i hdots
            rcases List.mem_append.1 hseg with hseg | hseg
            · exact hsegs seg hseg
            · obtain rfl := List.mem_singleton.1 hseg
              exact ⟨⟨hx.1, hne, hdot, hdots⟩, hx.2⟩
  exact hfold _ [] (fun x hx => mem_getlines hx) fun seg hseg => absurd hseg List.not_mem_nil

theorem foldl_addSegment {segs : List Bytes} (h : ∀ seg ∈ segs, PathSegment seg)
    (acc : List Bytes) : segs.foldl addSegment acc = acc ++ segs := by
  induction segs generalizing acc with
  | nil => exact (List.append_nil acc).symm
  | cons seg segs ih =>
      obtain ⟨hseg, hsegs⟩ := List.forall_mem_cons.1 h
      have hadd : addSegment acc seg = acc ++ [seg] := by
        unfold addSegment
        rw [if_neg (not_or.2 ⟨hseg.nonempty, hseg.no_dot⟩), if_neg hseg.no_dots]
      rw [List.foldl_cons, hadd, ih hsegs, List.append_assoc]
      rfl

/-- The text of segments. -/
def pathText (segs : List Bytes) : Bytes :=
  if segs.flatMap (47 :: ·) = [] then [47] else segs.flatMap (47 :: ·)

theorem segments_pathText {segs : List Bytes} (h : ∀ seg ∈ segs, PathSegment seg) :
    segments (pathText segs) = segs := by
  cases segs with
  | nil => rfl
  | cons seg rest =>
      have htext : pathText (seg :: rest) = [47].intercalate ([] :: seg :: rest) := by
        rw [intercalate_cons_flatMap]
        exact if_neg (List.cons_ne_nil _ _)
      have hpieces : ∀ l ∈ [] :: seg :: rest, 47 ∉ l := by
        intro l hl
        rcases List.mem_cons.1 hl with rfl | hl
        · exact List.not_mem_nil
        · exact (h l hl).no_slash
      have hlast : ∃ l, ([] :: seg :: rest).getLast? = some l ∧ l ≠ [] := by
        refine ⟨(seg :: rest).getLast (List.cons_ne_nil _ _), ?_,
          (h _ (List.getLast_mem _)).nonempty⟩
        rw [List.getLast?_cons_cons]
        exact List.getLast?_eq_some_getLast _
      unfold segments
      rw [htext, getlines_intercalate hpieces hlast, List.foldl_cons]
      exact foldl_addSegment h []

theorem normalizePath_eq (path : Bytes) : normalizePath path = pathText (segments path) := rfl

theorem normalizePath_again (path : Bytes) :
    normalizePath (normalizePath path) = normalizePath path := by
  rw [normalizePath_eq path, normalizePath_eq,
    segments_pathText fun seg hseg => (segments_spec path seg hseg).1]

theorem normalizePath_head (path : Bytes) : ∃ t, normalizePath path = 47 :: t := by
  rw [normalizePath_eq, pathText]
  cases segments path with
  | nil => exact ⟨[], rfl⟩
  | cons seg rest => exact ⟨_, if_neg (List.cons_ne_nil _ _)⟩

theorem mem_normalizePath {path : Bytes} {c : UInt8} (h : c ∈ normalizePath path) :
    c = 47 ∨ c ∈ path := by
  rw [normalizePath_eq, pathText] at h
  split at h
  · exact .inl (List.mem_singleton.1 h)
  · obtain ⟨seg, hseg, hc⟩ := List.mem_flatMap.1 h
    exact (List.mem_cons.1 hc).imp_right ((segments_spec path seg hseg).2 c)

/-! ### The kept parameters -/

theorem keptParams_eq (keepCgi : List Bytes) (query : Bytes) : keptParams keepCgi query =
    (namedParams keepCgi query).foldl (fun m p => assign p.1 p.2 m) [] := by
  have hfold : ∀ (pieces : List Bytes) (kept : List (Bytes × Bytes)),
      pieces.foldl (fun kept kv =>
        if (param kv).1 ∈ keepCgi then assign (param kv).1 (param kv).2 kept else kept) kept =
      ((pieces.map param).filter fun p => p.1 ∈ keepCgi).foldl
        (fun m p => assign p.1 p.2 m) kept := by
    intro pieces
    induction pieces with
    | nil => exact fun _ => rfl
    | cons kv pieces ih =>
        intro kept
        rw [List.foldl_cons, ih, List.map_cons, List.filter_cons]
        by_cases hkept : (param kv).1 ∈ keepCgi
        · rw [if_pos hkept, if_pos (decide_eq_true hkept), List.foldl_cons]
        · rw [if_neg hkept, if_neg (by simpa using hkept)]
  unfold keptParams
  by_cases hguard : keepCgi ≠ [] ∧ query ≠ []
  · rw [if_pos hguard]
    exact hfold _ []
  · rw [if_neg hguard]
    have hnone : namedParams keepCgi query = [] := by
      rcases not_and_or.1 hguard with h | h
      · rw [not_ne_iff.1 h]
        simp [namedParams]
      · rw [not_ne_iff.1 h]
        rfl
    rw [hnone]
    rfl

/-- A parameter as it is read from a piece of a query and kept. -/
structure KeptParam (keepCgi : List Bytes) (p : Bytes × Bytes) : Prop where
  named : p.1 ∈ keepCgi
  name_plain : 38 ∉ p.1 ∧ 61 ∉ p.1
  value_plain : 38 ∉ p.2

theorem keptParam_of_named {query : Bytes} {p : Bytes × Bytes} (h : p ∈ namedParams keepCgi query) :
    KeptParam keepCgi p := by
  obtain ⟨hmem, hnamed⟩ := List.mem_filter.1 h
  obtain ⟨kv, hkv, rfl⟩ := List.mem_map.1 hmem
  have hamp := (mem_getlines hkv).1
  unfold param at hnamed ⊢
  cases hcut : cutFirst 61 kv with
  | none =>
      rw [hcut] at hnamed
      exact ⟨of_decide_eq_true hnamed, ⟨hamp, cutFirst_eq_none.1 hcut⟩, List.not_mem_nil⟩
  | some q =>
      obtain ⟨name, value⟩ := q
      rw [hcut] at hnamed
      obtain ⟨rfl, hno⟩ := cutFirst_iff.1 hcut
      exact ⟨of_decide_eq_true hnamed, ⟨fun h => hamp (List.mem_append_left _ h), hno⟩,
        fun h => hamp (List.mem_append_right _ (List.mem_cons_of_mem _ h))⟩

theorem keptParams_spec (keepCgi : List Bytes) (query : Bytes) :
    SortedKeys (keptParams keepCgi query) ∧
      ∀ p ∈ keptParams keepCgi query, KeptParam keepCgi p := by
  rw [keptParams_eq]
  have hfold : ∀ (named m : List (Bytes × Bytes)), (∀ p ∈ named, KeptParam keepCgi p) →
      SortedKeys m ∧ (∀ p ∈ m, KeptParam keepCgi p) →
        SortedKeys (named.foldl (fun m p => assign p.1 p.2 m) m) ∧
          ∀ p ∈ named.foldl (fun m p => assign p.1 p.2 m) m, KeptParam keepCgi p := by
    intro named
    induction named with
    | nil => exact fun _ _ hm => hm
    | cons q named ih =>
        intro m hnamed hm
        obtain ⟨hq, hnamed⟩ := List.forall_mem_cons.1 hnamed
        refine ih _ hnamed ⟨assign_sorted hm.1, fun p hp => ?_⟩
        rcases mem_assign hp with rfl | hp
        · exact hq
        · exact hm.2 p hp
  exact hfold _ [] (fun p hp => keptParam_of_named hp)
    ⟨List.Pairwise.nil, fun p hp => absurd hp List.not_mem_nil⟩

def paramText (p : Bytes × Bytes) : Bytes := p.1 ++ 61 :: p.2

theorem keptText_cons (p : Bytes × Bytes) (l : List (Bytes × Bytes)) :
    keptText (p :: l) = 63 :: [38].intercalate ((p :: l).map paramText) := by
  have hfold : ∀ (l : List (Bytes × Bytes)) (text : Bytes), text ≠ [] →
      l.foldl (fun text p => text ++ (if text = [] then 63 else 38) :: p.1 ++ 61 :: p.2) text =
        text ++ (l.map paramText).flatMap (38 :: ·) := by
    intro l
    induction l with
    | nil => exact fun text _ => (List.append_nil text).symm
    | cons q l ih =>
        intro text htext
        rw [List.foldl_cons, if_neg htext, ih _ (by simp), List.map_cons, List.flatMap_cons]
        simp [paramText]
  have hfirst : keptText (p :: l) = 63 :: paramText p ++ (l.map paramText).flatMap (38 :: ·) := by
    unfold keptText
    rw [List.foldl_cons]
    exact hfold l _ (by simp)
  rw [hfirst, List.map_cons, intercalate_cons_flatMap]
  rfl

theorem keptParams_keptText {kept : List (Bytes × Bytes)} (hsorted : SortedKeys kept)
    (hkept : ∀ p ∈ kept, KeptParam keepCgi p) (hne : kept ≠ []) :
    keptParams keepCgi ([38].intercalate (kept.map paramText)) = kept := by
  have hpieces : ∀ l ∈ kept.map paramText, 38 ∉ l := by
    intro l hl hmem
    obtain ⟨p, hp, rfl⟩ := List.mem_map.1 hl
    rcases List.mem_append.1 hmem with h | h
    · exact (hkept p hp).name_plain.1 h
    · rcases List.mem_cons.1 h with h | h
      · exact absurd h (by decide)
      · exact (hkept p hp).value_plain h
  have hlast : ∃ l, (kept.map paramText).getLast? = some l ∧ l ≠ [] := by
    refine ⟨paramText (kept.getLast hne), ?_, ?_⟩
    · rw [List.getLast?_map, List.getLast?_eq_some_getLast hne]
      rfl
    · simp [paramText]
  have hparam : ∀ p ∈ kept, param (paramText p) = p := by
    intro p hp
    have hcut : cutFirst 61 (paramText p) = some (p.1, p.2) :=
      cutFirst_iff.2 ⟨rfl, (hkept p hp).name_plain.2⟩
    unfold param
    rw [hcut]
    rfl
  have hmap : (kept.map paramText).map param = kept := by
    rw [List.map_map]
    exact (List.map_congr_left hparam).trans (List.map_id kept)
  have hnamed : namedParams keepCgi ([38].intercalate (kept.map paramText)) = kept := by
    unfold namedParams
    rw [getlines_intercalate hpieces hlast, hmap]
    exact List.filter_eq_self.2 fun p hp => decide_eq_true (hkept p hp).named
  rw [keptParams_eq, hnamed]
  exact foldl_assign_self hsorted

/-! ### The key of a key -/

theorem splitQuery_append {path : Bytes} (h : 63 ∉ path) (kept : List (Bytes × Bytes)) :
    splitQuery (path ++ keptText kept) =
      (path, if kept = [] then [] else [38].intercalate (kept.map paramText)) := by
  unfold splitQuery
  cases kept with
  | nil =>
      have hnone : cutFirst 63 (path ++ keptText []) = none := by
        rw [cutFirst_eq_none]
        simpa [keptText] using h
      rw [hnone]
      simp [keptText]
  | cons p l =>
      have hcut : cutFirst 63 (path ++ keptText (p :: l)) =
          some (path, [38].intercalate ((p :: l).map paramText)) := by
        rw [keptText_cons]
        exact cutFirst_iff.2 ⟨rfl, h⟩
      rw [hcut]
      rfl

theorem splitQuery_fst (rest : Bytes) : 63 ∉ (splitQuery rest).1 := by
  unfold splitQuery
  cases hcut : cutFirst 63 rest with
  | none => exact cutFirst_eq_none.1 hcut
  | some p => exact (cutFirst_iff.1 hcut).2

/-- A key is a URL with itself as its key. -/
theorem parse_key {url : Bytes} {k : KeyParts} (h : parse url keepCgi = some k) :
    parse k.key keepCgi = some k := by
  obtain ⟨s, a, rest, host, port, hcut, hnamed, hne, hport, rfl⟩ := parse_iff.1 h
  obtain ⟨-, hnever, hs, ha, hslash⟩ := cutUrl_iff.1 hcut
  obtain ⟨hsub, hbracket, hlt⟩ := hostPort_spec hnamed
  obtain ⟨hauth, hat⟩ := @mem_dropUserinfo a
  obtain ⟨n, rfl⟩ := Int.eq_ofNat_of_zero_le (Int.le_of_lt hport)
  obtain ⟨t, ht⟩ := normalizePath_head (splitQuery (47 :: rest)).1
  have hquery : 63 ∉ normalizePath (splitQuery (47 :: rest)).1 := by
    intro hmem
    rcases mem_normalizePath hmem with h | h
    · exact absurd h (by decide)
    · exact splitQuery_fst _ h
  obtain ⟨hsorted, hkept⟩ := keptParams_spec keepCgi (splitQuery (47 :: rest)).2
  have hnohost : ∀ {c : UInt8}, (c < 65 ∨ 90 < c ∧ c < 97) → c ∉ dropUserinfo a →
      c ∉ toLower host := fun hc hno hmem => hno (hsub _ ((mem_toLower hc).1 hmem))
  have hnoauth : ∀ {c : UInt8}, (c < 48 ∨ 58 < c ∧ c < 65 ∨ 90 < c ∧ c < 97) →
      c ∉ dropUserinfo a → c ∉ toLower host ++ 58 :: decimal n := by
    intro c hc hno hmem
    have hletter : c < 65 ∨ 90 < c ∧ c < 97 := by
      grind
    rcases List.mem_append.1 hmem with h | h
    · exact hnohost hletter hno h
    · rcases List.mem_cons.1 h with rfl | h
      · exact absurd hc (by decide)
      · exact colon_decimal (by grind) h
  have hlower_ne : toLower host ≠ [] := fun h => hne (List.map_eq_nil_iff.1 h)
  have hsplit := splitQuery_append hquery (keptParams keepCgi (splitQuery (47 :: rest)).2)
  have hagain := normalizePath_again (splitQuery (47 :: rest)).1
  generalize normalizePath (splitQuery (47 :: rest)).1 = path at ht hquery hsplit hagain ⊢
  generalize keptParams keepCgi (splitQuery (47 :: rest)).2 = kept at hsorted hkept hsplit ⊢
  subst ht
  have hkeptAgain : keptParams keepCgi (splitQuery (47 :: t ++ keptText kept)).2 = kept := by
    rw [hsplit]
    by_cases hk : kept = []
    · subst hk
      simp [keptParams]
    · simp only [if_neg hk]
      exact keptParams_keptText hsorted hkept hk
  refine parse_iff.2 ⟨toLower s, toLower host ++ 58 :: decimal n, t ++ keptText kept, toLower host,
    n, ?_, ?_, hlower_ne, hport, ?_⟩
  · refine cutUrl_iff.2 ⟨by simp, (neverStarts_toLower hnever).found,
      fun h => hs (List.map_eq_nil_iff.1 h), by simp,
      hnoauth (by decide) fun h => hslash (hauth _ h)⟩
  · rw [dropUserinfo_self (hnoauth (by decide) hat)]
    exact hostPort_again (bracketed_toLower hbracket) hlower_ne (by omega)
  · rw [← List.cons_append, hkeptAgain, hsplit, hagain, toLower_toLower, toLower_toLower]

end UrlKey

end UCache
