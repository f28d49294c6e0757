/-
Module: UCache.Core.KeyTokens
Purpose: What of a URL its key tells: nothing of the userinfo, and of the query the named parameters
  alone, as long as the query is behind the slash that ends the authority.
Trusted boundary: none
Main exports: Canonical, QueryBehindSlash, canonical_iff
-/
import UCache.Core.UrlKeyTrip

namespace UCache

namespace UrlKey

open CText Lib

/-! ### URLs alike -/

/-- Nothing, or a text without slashes up to an `@`. -/
def Userinfo (i : Bytes) : Prop := 47 ∉ i ∧ (i = [] ∨ ∃ n, i = n ++ [64])

/-- The URLs are the same but for the userinfo behind their schemes. -/
def UserinfoApart (u u' : Bytes) : Prop :=
  ∃ s i i' t, cutAt schemeMark u = some (s, i ++ t) ∧ cutAt schemeMark u' = some (s, i' ++ t) ∧
    Userinfo i ∧ Userinfo i'

/-- The URLs are the same in front of their first question marks, and behind them have the same
parameters of the names in the keep list. -/
def SameNamed (keepCgi : List Bytes) (u u' : Bytes) : Prop :=
  (splitQuery u).1 = (splitQuery u').1 ∧
    namedParams keepCgi (splitQuery u).2 = namedParams keepCgi (splitQuery u').2

/-- The key of a URL is its own key, and is the key of the URLs it may not be told from. -/
structure Canonical (keepCgi : List Bytes) (u : Bytes) (k : KeyParts) : Prop where
  again : ∃ k', parse k.key keepCgi = some k' ∧ k'.key = k.key
  userinfo : ∀ u' k', UserinfoApart u u' → parse u' keepCgi = some k' → k'.key = k.key
  query : ∀ u' k', SameNamed keepCgi u u' → parse u' keepCgi = some k' → k'.key = k.key

/-- The text in front of the first question mark has a scheme, an authority and a slash. -/
def QueryBehindSlash (u : Bytes) : Prop := (cutUrl (splitQuery u).1).isSome = true

/-! ### What a key depends on -/

variable {s u : Bytes} {k : KeyParts} {keepCgi : List Bytes}

theorem Parsed.congr {u' : Bytes} {a rest host s' a' rest' host' : Bytes} {port port' : Int}
    {k' : KeyParts} (h : Parsed u keepCgi s a rest host port k)
    (h' : Parsed u' keepCgi s' a' rest' host' port' k') (hs : s = s')
    (ha : dropUserinfo a = dropUserinfo a')
    (hpath : (splitQuery (47 :: rest)).1 = (splitQuery (47 :: rest')).1)
    (hkept : keptParams keepCgi (splitQuery (47 :: rest)).2 =
      keptParams keepCgi (splitQuery (47 :: rest')).2) : k' = k := by
  have hnamed := h.named
  rw [hs, ha, h'.named] at hnamed
  cases hnamed
  rw [h.eq, h'.eq, hs, hpath, hkept]

theorem dropUserinfo_append {i x : Bytes} (hi : Userinfo i) :
    dropUserinfo (i ++ x) = dropUserinfo x := by
  obtain ⟨-, rfl | ⟨n, rfl⟩⟩ := hi
  · rfl
  · unfold dropUserinfo
    cases hx : cutLast 64 x with
    | none =>
        have hcut : cutLast 64 (n ++ [64] ++ x) = some (n, x) :=
          cutLast_iff.2 ⟨by simp, cutLast_eq_none.1 hx⟩
        rw [hcut]
    | some p =>
        obtain ⟨y, host⟩ := p
        obtain ⟨rfl, hno⟩ := cutLast_iff.1 hx
        have hcut : cutLast 64 (n ++ [64] ++ (y ++ 64 :: host)) = some (n ++ [64] ++ y, host) :=
          cutLast_iff.2 ⟨by simp, hno⟩
        rw [hcut]

/-- The authority of a URL is its userinfo and what does not depend on it. -/
theorem cutUrl_userinfo {a rest i t : Bytes} (hcut : cutUrl u = some (s, a, rest))
    (hmark : cutAt schemeMark u = some (s, i ++ t)) (hi : 47 ∉ i) :
    ∃ b, a = i ++ b ∧ cutFirst 47 t = some (b, rest) := by
  obtain ⟨hu, hnever, -, -, ha⟩ := cutUrl_iff.1 hcut
  have hmark' := cutAt_iff.2 ⟨hu, hnever⟩
  rw [hmark] at hmark'
  have htext : i ++ t = a ++ 47 :: rest := (Prod.mk.inj (Option.some.inj hmark')).2
  rcases List.append_eq_append_iff.1 htext with ⟨b, rfl, ht⟩ | ⟨c, rfl, ht⟩
  · exact ⟨b, rfl, cutFirst_iff.2 ⟨ht, fun h => ha (List.mem_append_right _ h)⟩⟩
  · cases c with
    | nil => exact ⟨[], by simp, cutFirst_iff.2 ⟨by simpa using ht.symm, List.not_mem_nil⟩⟩
    | cons c₀ c =>
        obtain rfl : 47 = c₀ := (List.cons.inj ht).1
        exact absurd (List.mem_append_right _ (List.mem_cons_self ..)) hi

/-- The key does not tell the userinfo. -/
theorem userinfo_silent {u' : Bytes} {k' : KeyParts} (hu : UserinfoApart u u')
    (h : parse u keepCgi = some k) (h' : parse u' keepCgi = some k') : k' = k := by
  obtain ⟨s, i, i', t, hcut, hcut', hi, hi'⟩ := hu
  obtain ⟨s₁, a, rest, host, port, hp⟩ := parse_iff.1 h
  obtain ⟨s₂, a', rest', host', port', hp'⟩ := parse_iff.1 h'
  have hscheme : ∀ {w s₃ b r y : Bytes}, cutUrl w = some (s₃, b, r) →
      cutAt schemeMark w = some (s, y) → s₃ = s := by
    intro w s₃ b r y hw hy
    obtain ⟨hshape, hnever, -⟩ := cutUrl_iff.1 hw
    rw [cutAt_iff.2 ⟨hshape, hnever⟩] at hy
    exact (Prod.mk.inj (Option.some.inj hy)).1
  obtain rfl := hscheme hp.cut hcut
  obtain rfl := hscheme hp'.cut hcut'
  obtain ⟨b, rfl, hb⟩ := cutUrl_userinfo hp.cut hcut hi.1
  obtain ⟨b', rfl, hb'⟩ := cutUrl_userinfo hp'.cut hcut' hi'.1
  rw [hb] at hb'
  cases hb'
  refine hp.congr hp' rfl ?_ rfl rfl
  rw [dropUserinfo_append hi, dropUserinfo_append hi']

/-- The first question mark, or none. -/
theorem splitQuery_cases (u : Bytes) : 63 ∉ (splitQuery u).1 ∧
    (u = (splitQuery u).1 ∧ (splitQuery u).2 = [] ∨
      u = (splitQuery u).1 ++ 63 :: (splitQuery u).2) := by
  refine ⟨splitQuery_fst u, ?_⟩
  unfold splitQuery
  cases hcut : cutFirst 63 u with
  | none => exact .inl ⟨rfl, rfl⟩
  | some p => exact .inr (cutFirst_iff.1 hcut).1

theorem splitQuery_of_mark {x y : Bytes} (hx : 63 ∉ x) : splitQuery (x ++ 63 :: y) = (x, y) := by
  unfold splitQuery
  rw [cutFirst_iff.2 ⟨rfl, hx⟩]
  rfl

/-- With the query behind the slash, the parts of a URL are those of the text in front of it. -/
theorem cutUrl_base {a p : Bytes} (h : cutUrl (splitQuery u).1 = some (s, a, p)) :
    ∃ rest, cutUrl u = some (s, a, rest) ∧
      splitQuery (47 :: rest) = (47 :: p, (splitQuery u).2) := by
  obtain ⟨hbase, hnever, hs, ha, hslash⟩ := cutUrl_iff.1 h
  obtain ⟨hno, hsplit⟩ := splitQuery_cases u
  have hp : 63 ∉ 47 :: p := by
    intro hmem
    rw [hbase] at hno
    exact hno (List.mem_append_right _ (List.mem_append_right _ (List.mem_append_right _ hmem)))
  rcases hsplit with ⟨hu, hq⟩ | hu
  · refine ⟨p, by rwa [hu], ?_⟩
    rw [hq]
    unfold splitQuery
    rw [cutFirst_eq_none.2 hp]
    rfl
  · refine ⟨p ++ 63 :: (splitQuery u).2, ?_, splitQuery_of_mark hp⟩
    rw [cutUrl_iff]
    refine ⟨?_, hnever.found, hs, ha, hslash⟩
    calc u = (splitQuery u).1 ++ 63 :: (splitQuery u).2 := hu
      _ = _ := by rw [hbase]; simp

/-- With the query behind the slash, the key tells the named parameters alone. -/
theorem query_silent {u' : Bytes} {k' : KeyParts} (hq : QueryBehindSlash u)
    (hsame : SameNamed keepCgi u u') (h : parse u keepCgi = some k)
    (h' : parse u' keepCgi = some k') : k' = k := by
  obtain ⟨⟨s, a, p⟩, hbase⟩ := Option.isSome_iff_exists.1 hq
  obtain ⟨rest, hcut, hsplit⟩ := cutUrl_base hbase
  obtain ⟨rest', hcut', hsplit'⟩ := cutUrl_base (hsame.1 ▸ hbase)
  obtain ⟨s₁, a₁, rest₁, host, port, hp⟩ := parse_iff.1 h
  obtain ⟨s₂, a₂, rest₂, host', port', hp'⟩ := parse_iff.1 h'
  have heq := hp.cut
  have heq' := hp'.cut
  rw [hcut] at heq
  rw [hcut'] at heq'
  cases heq
  cases heq'
  refine hp.congr hp' rfl rfl (by rw [hsplit, hsplit']) ?_
  rw [hsplit, hsplit', keptParams_eq, keptParams_eq, hsame.2]

/-! ### A parameter that shows -/

/-- A userinfo, a host of `n` letters and a port. -/
def paddingAuthority (n : Nat) : Bytes := 64 :: List.replicate n 122 ++ [58, 49]

/-- A parameter that ends an authority where the parse looks for one. -/
def padding (n : Nat) : Bytes := paddingAuthority n ++ [47]

theorem mem_padding {n : Nat} {c : UInt8} (h : c ∈ padding n) :
    c = 64 ∨ c = 122 ∨ c = 58 ∨ c = 49 ∨ c = 47 := by
  simp only [padding, paddingAuthority, List.mem_append, List.mem_cons, List.mem_replicate,
    List.not_mem_nil, or_false] at h
  tauto

theorem length_padding (n : Nat) : (padding n).length = n + 4 := by
  simp [padding, paddingAuthority]

/-- A parameter too long for the keep list changes nothing named. -/
theorem namedParams_padding {n : Nat} (hn : keepCgi.flatten.length ≤ n) (q : Bytes) :
    namedParams keepCgi (padding n ++ 38 :: q) = namedParams keepCgi q := by
  have hamp : 38 ∉ padding n := fun h => absurd (mem_padding h) (by decide)
  have heq : 61 ∉ padding n := fun h => absurd (mem_padding h) (by decide)
  have hlines : getlines 38 (padding n ++ 38 :: q) = padding n :: getlines 38 q := by
    unfold getlines
    rw [List.splitOn_append_cons_self_of_not_mem hamp]
    dsimp only
    have hne : q.splitOn 38 ≠ [] := List.splitOn_ne_nil _ _
    rw [List.getLast?_cons_of_ne_nil hne]
    split
    · exact List.dropLast_cons_of_ne_nil hne
    · rfl
  have hname : (param (padding n)).1 = padding n := by
    unfold param
    rw [cutFirst_eq_none.2 heq]
    rfl
  have hunnamed : padding n ∉ keepCgi := by
    intro hmem
    have hle := (List.sublist_flatten_of_mem hmem).length_le
    rw [length_padding] at hle
    omega
  unfold namedParams
  rw [hlines, List.map_cons, List.filter_cons_of_neg (by rw [hname]; simpa using hunnamed)]

theorem defaultPort_of_query (h : 63 ∈ s) : defaultPort (toLower s) = 0 := by
  have hmem : 63 ∈ toLower s := (mem_toLower (by decide)).2 h
  have hknown : ∀ name ∈ ["root", "xroot", "roots", "xroots", "http", "https"].map ascii,
      toLower s ≠ name := by
    intro name hname heq
    have hno : ∀ name ∈ ["root", "xroot", "roots", "xroots", "http", "https"].map ascii,
        63 ∉ name := by decide +kernel
    exact hno name hname (heq ▸ hmem)
  unfold defaultPort
  rw [if_neg, if_neg, if_neg]
  · exact hknown _ (by simp)
  · exact hknown _ (by simp)
  · rintro (h | h | h | h) <;> exact hknown _ (by simp) h

theorem hostPort_congr {s' auth : Bytes} (h : defaultPort s = defaultPort s') :
    hostPort s auth = hostPort s' auth := by
  unfold hostPort
  rw [h]

/-- The mark is not in the padding, nor across its ends. -/
theorem neverStarts_padding (n : Nat) {x y t : Bytes}
    (h : NeverStarts schemeMark (x ++ 63 :: y) t) :
    NeverStarts schemeMark (x ++ 63 :: (padding n ++ 38 :: y)) t := by
  obtain ⟨hx, hy⟩ := h.split
  have hend : ∀ r, NeverStarts schemeMark ([58, 49] ++ [47]) r := by
    intro r
    refine ⟨fun hpre => ?_, fun hpre => ?_, fun hpre => ?_, trivial⟩
    · exact absurd (List.cons_prefix_cons.1 (List.cons_prefix_cons.1 hpre).2).1 (by decide)
    · exact absurd (List.cons_prefix_cons.1 hpre).1 (by decide)
    · exact absurd (List.cons_prefix_cons.1 hpre).1 (by decide)
  have hletters : ∀ r, NeverStarts schemeMark (64 :: List.replicate n 122) r := by
    intro r
    refine neverStarts_of_notMem fun hmem => ?_
    rcases List.mem_cons.1 hmem with h | h
    · exact absurd h (by decide)
    · exact absurd (List.eq_of_mem_replicate h) (by decide)
  have hpad : ∀ r, NeverStarts schemeMark (padding n) r := by
    intro r
    have hshape : padding n = (64 :: List.replicate n 122) ++ ([58, 49] ++ [47]) := by
      simp [padding, paddingAuthority]
    rw [hshape]
    exact (hletters _).append (hend r)
  have hquery : NeverStarts schemeMark [63] (padding n ++ 38 :: y ++ t) :=
    neverStarts_of_notMem (by decide)
  have hamp : NeverStarts schemeMark [38] (y ++ t) := neverStarts_of_notMem (by decide)
  have hbehind : NeverStarts schemeMark (63 :: (padding n ++ 38 :: y)) t :=
    hquery.append ((hpad _).append (hamp.append hy.2))
  exact (hx.behind (by decide)).append hbehind

theorem length_key {a rest host : Bytes} {port : Int} (h : Parsed u keepCgi s a rest host port k) :
    k.key.length = s.length + host.length + (3 + (1 + (decimal port.toNat).length) +
      (normalizePath (splitQuery (47 :: rest)).1).length +
        (keptText (keptParams keepCgi (splitQuery (47 :: rest)).2)).length) := by
  rw [h.eq]
  simp only [List.length_append, List.length_cons, toLower, List.length_map, schemeMark,
    List.length_nil]
  omega

theorem slash_paddingAuthority (n : Nat) : 47 ∉ paddingAuthority n := by
  intro hmem
  simp only [paddingAuthority, List.mem_append, List.mem_cons, List.mem_replicate,
    List.not_mem_nil, or_false] at hmem
  rcases hmem with (h | h) | h | h
  · exact absurd h (by decide)
  · exact absurd h.2 (by decide)
  · exact absurd h (by decide)
  · exact absurd h (by decide)

/-- The padding is an authority whatever is in front of it. -/
theorem hostPort_padding (scheme x : Bytes) (n : Nat) (hn : 0 < n) :
    hostPort scheme (dropUserinfo (x ++ 63 :: paddingAuthority n)) =
      some (List.replicate n 122, 1) := by
  have hno : 64 ∉ List.replicate n (122 : UInt8) ++ 58 :: decimal 1 := by
    intro hmem
    rcases List.mem_append.1 hmem with h | h
    · exact absurd (List.eq_of_mem_replicate h) (by decide)
    · exact absurd h (by decide)
  have hcut : cutLast 64 (x ++ 63 :: paddingAuthority n) =
      some (x ++ [63], List.replicate n 122 ++ 58 :: decimal 1) :=
    cutLast_iff.2 ⟨by simp [paddingAuthority, decimal], hno⟩
  have hdrop : dropUserinfo (x ++ 63 :: paddingAuthority n) =
      List.replicate n 122 ++ 58 :: decimal 1 := by
    unfold dropUserinfo
    rw [hcut]
  rw [hdrop]
  refine hostPort_again (fun hhead => ?_) (by simp; omega) (by decide)
  exact absurd (List.eq_of_mem_replicate (List.mem_of_head? hhead)) (by decide)

theorem splitQuery_skip {x y : Bytes} (hx : 63 ∉ x) :
    (splitQuery (x ++ y)).1 = x ++ (splitQuery y).1 := by
  obtain ⟨hno, ⟨hy, -⟩ | hy⟩ := splitQuery_cases y
  · have hnone : 63 ∉ x ++ y := by
      rw [hy]
      exact fun hmem => (List.mem_append.1 hmem).elim hx hno
    rw [← hy]
    unfold splitQuery
    rw [cutFirst_eq_none.2 hnone]
    rfl
  · have hfirst : 63 ∉ x ++ (splitQuery y).1 := fun hmem =>
      (List.mem_append.1 hmem).elim hx hno
    have hshape : x ++ y = x ++ (splitQuery y).1 ++ 63 :: (splitQuery y).2 := by
      rw [List.append_assoc, ← hy]
    rw [hshape, splitQuery_of_mark hfirst]

theorem splitQuery_slash (rest : Bytes) : ∃ p, (splitQuery (47 :: rest)).1 = 47 :: p := by
  have hskip : (splitQuery ([47] ++ rest)).1 = [47] ++ (splitQuery rest).1 :=
    splitQuery_skip (by decide)
  exact ⟨_, hskip⟩

/-- With the query in front of the slash, a parameter nobody named changes the key. -/
theorem query_shown (hq : ¬ QueryBehindSlash u) (h : parse u keepCgi = some k) :
    ∃ u' k', SameNamed keepCgi u u' ∧ parse u' keepCgi = some k' ∧ k'.key ≠ k.key := by
  obtain ⟨s, a, rest, host, port, hp⟩ := parse_iff.1 h
  obtain ⟨hu, hnever, hs, ha, hslash⟩ := cutUrl_iff.1 hp.cut
  let n := k.key.length + keepCgi.flatten.length + 1
  have hn : keepCgi.flatten.length ≤ n := by omega
  have hsame : ∀ {x q : Bytes}, u = x ++ 63 :: q → 63 ∉ x →
      SameNamed keepCgi u (x ++ 63 :: (padding n ++ 38 :: q)) := by
    rintro x q rfl hx
    unfold SameNamed
    rw [splitQuery_of_mark hx, splitQuery_of_mark hx]
    exact ⟨rfl, (namedParams_padding hn q).symm⟩
  by_cases hscheme : 63 ∈ s
  · -- The scheme grows by the parameter.
    obtain ⟨x, y, hcut⟩ : ∃ x y, cutFirst 63 s = some (x, y) := by
      cases hcut : cutFirst 63 s with
      | none => exact absurd hscheme (cutFirst_eq_none.1 hcut)
      | some p => exact ⟨p.1, p.2, rfl⟩
    obtain ⟨rfl, hx⟩ := cutFirst_iff.1 hcut
    have hcut' : cutUrl (x ++ 63 :: (padding n ++ 38 :: (y ++ (schemeMark ++ (a ++ 47 :: rest))))) =
        some (x ++ 63 :: (padding n ++ 38 :: y), a, rest) := by
      refine cutUrl_iff.2 ⟨by simp, neverStarts_padding n hnever, by simp, ha, hslash⟩
    have hport : defaultPort (toLower (x ++ 63 :: (padding n ++ 38 :: y))) =
        defaultPort (toLower (x ++ 63 :: y)) := by
      rw [defaultPort_of_query (List.mem_append_right _ (List.mem_cons_self ..)),
        defaultPort_of_query (List.mem_append_right _ (List.mem_cons_self ..))]
    have hp' : Parsed (x ++ 63 :: (padding n ++ 38 :: (y ++ (schemeMark ++ (a ++ 47 :: rest)))))
        keepCgi (x ++ 63 :: (padding n ++ 38 :: y)) a rest host port _ :=
      ⟨hcut', by rw [hostPort_congr hport]; exact hp.named, hp.host_ne, hp.port_pos, rfl⟩
    refine ⟨_, _, hsame (by rw [hu]; simp) hx, parse_iff.2 ⟨_, _, _, _, _, hp'⟩, fun heq => ?_⟩
    have hlen := length_key hp'
    rw [heq, length_key hp] at hlen
    simp only [List.length_append, List.length_cons] at hlen
    omega
  · by_cases hauth : 63 ∈ a
    · -- The parameter ends the authority with a host of its own.
      obtain ⟨x, y, hcut⟩ : ∃ x y, cutFirst 63 a = some (x, y) := by
        cases hcut : cutFirst 63 a with
        | none => exact absurd hauth (cutFirst_eq_none.1 hcut)
        | some p => exact ⟨p.1, p.2, rfl⟩
      obtain ⟨rfl, hx⟩ := cutFirst_iff.1 hcut
      have hbase : 63 ∉ s ++ (schemeMark ++ x) := fun hmem =>
        (List.mem_append.1 hmem).elim hscheme fun hmem =>
          (List.mem_append.1 hmem).elim (by decide) hx
      have hcut' : cutUrl (s ++ (schemeMark ++ x) ++ 63 :: (padding n ++ 38 :: (y ++ 47 :: rest))) =
          some (s, x ++ 63 :: paddingAuthority n, 38 :: (y ++ 47 :: rest)) := by
        refine cutUrl_iff.2 ⟨by simp [padding], hnever.found, hs, by simp, fun hmem => ?_⟩
        rcases List.mem_append.1 hmem with h | h
        · exact hslash (List.mem_append_left _ h)
        · exact slash_paddingAuthority n ((List.mem_cons.1 h).resolve_left (by decide))
      have hp' : Parsed (s ++ (schemeMark ++ x) ++ 63 :: (padding n ++ 38 :: (y ++ 47 :: rest)))
          keepCgi s (x ++ 63 :: paddingAuthority n) (38 :: (y ++ 47 :: rest))
          (List.replicate n 122) 1 _ :=
        ⟨hcut', hostPort_padding _ _ _ (by omega), by simp [n], by decide, rfl⟩
      refine ⟨_, _, hsame (by rw [hu]; simp) hbase, parse_iff.2 ⟨_, _, _, _, _, hp'⟩,
        fun heq => ?_⟩
      have hlen := length_key hp'
      rw [heq, List.length_replicate] at hlen
      omega
    · refine absurd ?_ hq
      have hbase : 63 ∉ s ++ (schemeMark ++ a) := fun hmem =>
        (List.mem_append.1 hmem).elim hscheme fun hmem =>
          (List.mem_append.1 hmem).elim (by decide) hauth
      obtain ⟨p, hpath⟩ := splitQuery_slash rest
      have hfst : (splitQuery u).1 = s ++ (schemeMark ++ (a ++ 47 :: p)) := by
        have hshape : u = s ++ (schemeMark ++ a) ++ 47 :: rest := by
          rw [hu]
          simp
        rw [hshape, splitQuery_skip hbase, hpath]
        simp
      unfold QueryBehindSlash
      rw [hfst, cutUrl_iff.2 ⟨rfl, hnever.found, hs, ha, hslash⟩]
      rfl

/-- The key of a URL is canonical exactly when its query is behind the slash. -/
theorem canonical_iff {u : Bytes} {keepCgi : List Bytes} {k : KeyParts}
    (h : parse u keepCgi = some k) : Canonical keepCgi u k ↔ QueryBehindSlash u := by
  constructor
  · intro hk
    by_contra hq
    obtain ⟨u', k', hsame, hparse, hne⟩ := query_shown hq h
    exact hne (hk.query u' k' hsame hparse)
  · intro hq
    exact ⟨⟨k, parse_key h, rfl⟩,
      fun u' k' hu h' => congrArg KeyParts.key (userinfo_silent hu h h'),
      fun u' k' hsame h' => congrArg KeyParts.key (query_silent hq hsame h h')⟩

/-- Userinfo, case, a parent segment and a token leave the key alone. -/
theorem plain_canonical : Canonical [] (ascii "root://u@Host//a/../b?authz=t")
    { key := ascii "root://host:1094/b", scheme := ascii "root", host := ascii "host" } :=
  (canonical_iff (by decide +kernel)).2 (by unfold QueryBehindSlash; decide +kernel)

/-- A URL without a path: the token is taken for the end of the host. -/
def pathless : Bytes := ascii "root://host?authz=a/b"

/-- The token is in the key, and another token makes another key. -/
theorem pathless_shows :
    parse pathless [] = some { key := ascii "root://host?authz=a:1094/b"
                               scheme := ascii "root"
                               host := ascii "host?authz=a" } ∧
      ∀ k, parse pathless [] = some k → ¬ Canonical [] pathless k := by
  have hkey : parse pathless [] = some { key := ascii "root://host?authz=a:1094/b"
                                         scheme := ascii "root"
                                         host := ascii "host?authz=a" } := by
    decide +kernel
  refine ⟨hkey, fun k hk hcanonical => ?_⟩
  rw [hkey] at hk
  cases hk
  have hsame : SameNamed [] pathless (ascii "root://host?authz=c/b") := by
    unfold SameNamed
    decide +kernel
  have hother := hcanonical.query (ascii "root://host?authz=c/b")
    { key := ascii "root://host?authz=c:1094/b"
      scheme := ascii "root"
      host := ascii "host?authz=c" } hsame (by decide +kernel)
  revert hother
  decide +kernel

end UrlKey

end UCache
