/-
Module: UCache.Transpose.FileHeader
Purpose: The two readers of the file header, and the window that changes its end: when they agree
  before and after.
Trusted boundary: none
Main exports: ContainerHead, containerHead, header_readers_agree_iff
-/
import Mathlib.Tactic.IntervalCases
import UCache.Transpose.FillLayout

namespace UCache

open Lib

/-! ### The second reader -/

/-- [SRC TreeMeta.cc:459-480] What the parse of a container takes from the file header. -/
structure ContainerHead where
  large : Bool
  headerSeekWidth : Nat
  fend : Int
deriving DecidableEq, Repr

/-- [SRC TreeMeta.cc:463-480] The header step of `parseContainerFrom`. -/
def containerHead (head : Bytes) : Option ContainerHead :=
  if head.length < 20 ∨ slice head 0 4 ≠ ascii "root" then none
  else
    let large := decide (1000000 < beGetInt head 4 4)
    some
      { large := large
        headerSeekWidth := if large then 8 else 4
        fend := if large then beGetInt head 12 8 else beGetInt head 12 4 }

/-- Every field of the header but its version, `fEND`, and the width it says. -/
structure SameHeader (H H' : Header) : Prop where
  begin : H'.begin = H.begin
  seekFree : H'.seekFree = H.seekFree
  nbytesFree : H'.nbytesFree = H.nbytesFree
  nfree : H'.nfree = H.nfree
  nbytesName : H'.nbytesName = H.nbytesName
  compress : H'.compress = H.compress
  seekInfo : H'.seekInfo = H.seekInfo
  nbytesInfo : H'.nbytesInfo = H.nbytesInfo
  uuid : H'.uuid = H.uuid

/-- The two readers see one layout and one end. -/
structure ReadersAgree (H : Header) (c : ContainerHead) : Prop where
  large : c.large = H.large
  width : c.headerSeekWidth = if H.large then 8 else 4
  fend : c.fend = H.stop

/-- The header with the window for `newEnd` is read by both, with this end and nothing else
changed. -/
def ShownEnd (header : Bytes) (H : Header) (newEnd : Nat) : Prop :=
  ∃ w H' c', headerWindowForEnd header newEnd = .ok w ∧
    parseHeader (patch header w.off w.bytes) = some H' ∧
      containerHead (patch header w.off w.bytes) = some c' ∧
        H'.stop = newEnd ∧ c'.fend = newEnd ∧ SameHeader H H'

/-! ### Fields -/

theorem beGetInt_range {p : Bytes} {off n : Nat} (hn : n = 4 ∨ n = 8) :
    -(256 ^ n : Int) ≤ 2 * beGetInt p off n ∧ 2 * beGetInt p off n < 256 ^ n := by
  have hlt := ofLe_lt (slice p off n).reverse
  rw [List.length_reverse, length_slice] at hlt
  have hle : 256 ^ min n (p.length - off) ≤ 256 ^ n :=
    Nat.pow_le_pow_right (by omega) (Nat.min_le_left _ _)
  have hread : beGet p off n < 256 ^ n := Nat.lt_of_lt_of_le hlt hle
  unfold beGetInt signed
  obtain rfl | rfl := hn
  · split <;> omega
  · split <;> omega

/-- A field of a header that begins with known bytes. -/
theorem beGetInt_head {p : Bytes} {off n : Nat} {v : Int} (hread : slice p off n = beInt n v)
    (hlo : -(256 ^ n : Int) ≤ 2 * v) (hhi : 2 * v < 256 ^ n) : beGetInt p off n = v := by
  rw [beGetInt, beGet, hread, signed_beInt hlo hhi]

/-- A field apart from the one that was written. -/
theorem beGetInt_bePut_apart {p : Bytes} {off n pos k : Nat} {v : Int} (h : off + n ≤ p.length)
    (hpos : pos + k ≤ off ∨ off + n ≤ pos) :
    beGetInt (bePut p off n v) pos k = beGetInt p pos k := by
  rw [beGetInt, beGetInt, beGet_congr]
  intro i hi₁ hi₂
  exact getElem?_bePut_apart h (by omega)

theorem slice_bePut_apart {p : Bytes} {off n pos k : Nat} {v : Int} (h : off + n ≤ p.length)
    (hpos : pos + k ≤ off ∨ off + n ≤ pos) :
    slice (bePut p off n v) pos k = slice p pos k := by
  apply List.ext_getElem?
  intro i
  rw [getElem?_slice, getElem?_slice]
  by_cases hi : i < k
  · rw [if_pos hi, if_pos hi, getElem?_bePut_apart h (by omega)]
  · rw [if_neg hi, if_neg hi]

/-! ### The two layouts -/

variable {h : Bytes} {H : Header}

/-- The fields in the 64-bit layout. -/
def wideHeader (h : Bytes) : Header where
  version := beGetInt h 4 4
  begin := beGetInt h 8 4
  stop := beGetInt h 12 8
  seekFree := beGetInt h 20 8
  nbytesFree := beGetInt h 28 4
  nfree := beGetInt h 32 4
  nbytesName := beGetInt h 36 4
  compress := beGetInt h 41 4
  seekInfo := beGetInt h 45 8
  nbytesInfo := beGetInt h 53 4
  uuid := slice h 57 18
  large := true

/-- The fields in the 32-bit layout. -/
def narrowHeader (h : Bytes) : Header where
  version := beGetInt h 4 4
  begin := beGetInt h 8 4
  stop := beGetInt h 12 4
  seekFree := beGetInt h 16 4
  nbytesFree := beGetInt h 20 4
  nfree := beGetInt h 24 4
  nbytesName := beGetInt h 28 4
  compress := beGetInt h 33 4
  seekInfo := beGetInt h 37 4
  nbytesInfo := beGetInt h 41 4
  uuid := slice h 45 18
  large := false

/-- What a header was read from. -/
structure HeaderAt (h : Bytes) (H : Header) : Prop where
  length : 75 ≤ h.length
  magic : slice h 0 4 = ascii "root"
  begin : 75 ≤ beGetInt h 8 4
  fields : H = if 1000000 ≤ beGetInt h 4 4 then wideHeader h else narrowHeader h

theorem parseHeader_iff : parseHeader h = some H ↔ HeaderAt h H := by
  unfold parseHeader
  constructor
  · intro hp
    split at hp
    · cases hp
    · rename_i hlen
      simp only at hp
      split at hp
      · rename_i hbegin
        cases hp
        exact ⟨by omega, by tauto, hbegin, rfl⟩
      · cases hp
  · rintro ⟨hlen, hmagic, hbegin, rfl⟩
    rw [if_neg (by simp only [hmagic, ne_eq, not_true, or_false]; omega)]
    simp only [hbegin, if_true]
    rfl

theorem HeaderAt.version (hat : HeaderAt h H) : H.version = beGetInt h 4 4 := by
  rw [hat.fields]
  split <;> rfl

theorem HeaderAt.wide (hat : HeaderAt h H) (hv : 1000000 ≤ H.version) : H = wideHeader h := by
  rw [hat.version] at hv
  rw [hat.fields, if_pos hv]

theorem HeaderAt.narrow (hat : HeaderAt h H) (hv : H.version < 1000000) : H = narrowHeader h := by
  rw [hat.version] at hv
  rw [hat.fields, if_neg (by omega)]

/-- The second reader on a header that the first accepts. -/
theorem containerHead_of (hat : HeaderAt h H) :
    containerHead h = some
      { large := decide (1000000 < H.version)
        headerSeekWidth := if decide (1000000 < H.version) then 8 else 4
        fend := if decide (1000000 < H.version) then beGetInt h 12 8 else beGetInt h 12 4 } := by
  rw [containerHead, if_neg (by
    have := hat.length
    simp only [hat.magic, ne_eq, not_true, or_false]
    omega), hat.version]

/-- Before the window the readers agree on every version but one. -/
theorem readersAgree_iff {c : ContainerHead} (hat : HeaderAt h H) (hc : containerHead h = some c) :
    ReadersAgree H c ↔ H.version ≠ 1000000 := by
  rw [containerHead_of hat, Option.some.injEq] at hc
  constructor
  · rintro ⟨hlarge, -, -⟩ hv
    have hwide : H.large = true := by
      rw [hat.wide (by omega)]
      rfl
    rw [← hc, hwide] at hlarge
    simp [hv] at hlarge
  · intro hv
    by_cases hwide : 1000000 < H.version
    · have hH := hat.wide (by omega)
      have hl : H.large = true := by
        rw [hH]
        rfl
      have hstop : H.stop = beGetInt h 12 8 := by
        rw [hH]
        rfl
      subst hc
      constructor <;> simp [hwide, hl, hstop]
    · have hH := hat.narrow (by omega)
      have hl : H.large = false := by
        rw [hH]
        rfl
      have hstop : H.stop = beGetInt h 12 4 := by
        rw [hH]
        rfl
      subst hc
      constructor <;> simp [hwide, hl, hstop]

/-! ### After the window -/

/-- `fEND` of either width written in place. -/
theorem headerAt_put {h : Bytes} {H : Header} {n : Nat} {v : Int} (hat : HeaderAt h H)
    (hn : n = if 1000000 ≤ H.version then 8 else 4) (hlo : -(256 ^ n : Int) ≤ 2 * v)
    (hhi : 2 * v < 256 ^ n) : HeaderAt (bePut h 12 n v) { H with stop := v } := by
  have hlen := hat.length
  have hn48 : n = 4 ∨ n = 8 := by
    rw [hn]
    split <;> omega
  have hle : 12 + n ≤ h.length := by omega
  have hsame : ∀ pos k, pos + k ≤ 12 ∨ 12 + n ≤ pos →
      beGetInt (bePut h 12 n v) pos k = beGetInt h pos k := by
    intro pos k hpos
    exact beGetInt_bePut_apart hle hpos
  refine ⟨?_, ?_, ?_, ?_⟩
  · rwa [length_bePut hle]
  · rw [slice_bePut_apart hle (by omega), hat.magic]
  · rw [hsame 8 4 (by omega)]
    exact hat.begin
  · rw [hsame 4 4 (by omega), ← hat.version]
    split at hn
    · rename_i hv
      subst hn
      rw [if_pos hv, hat.wide hv]
      simp only [wideHeader]
      rw [hsame 4 4 (by omega), hsame 8 4 (by omega), hsame 20 8 (by omega), hsame 28 4 (by omega),
        hsame 32 4 (by omega), hsame 36 4 (by omega), hsame 41 4 (by omega), hsame 45 8 (by omega),
        hsame 53 4 (by omega), slice_bePut_apart hle (by omega), beGetInt_bePut hle hlo hhi]
    · rename_i hv
      subst hn
      rw [if_neg hv, hat.narrow (by omega)]
      simp only [narrowHeader]
      rw [hsame 4 4 (by omega), hsame 8 4 (by omega), hsame 16 4 (by omega), hsame 20 4 (by omega),
        hsame 24 4 (by omega), hsame 28 4 (by omega), hsame 33 4 (by omega), hsame 37 4 (by omega),
        hsame 41 4 (by omega), slice_bePut_apart hle (by omega), beGetInt_bePut hle hlo hhi]

/-- The fields that `largeHeader` writes, one by one. -/
def largeFields (H : Header) (newEnd : Nat) : List Bytes :=
  [ascii "root", beInt 4 (if H.large then H.version else H.version + 1000000), beInt 4 H.begin,
    beInt 8 newEnd, beInt 8 H.seekFree, beInt 4 H.nbytesFree, beInt 4 H.nfree,
    beInt 4 H.nbytesName, [8], beInt 4 H.compress, beInt 8 H.seekInfo, beInt 4 H.nbytesInfo,
    H.uuid]

theorem largeHeader_fields (H : Header) (newEnd : Nat) :
    largeHeader H newEnd = (largeFields H newEnd).flatten := by
  simp only [largeHeader, largeFields, List.flatten_cons, List.flatten_nil, List.append_nil,
    List.append_assoc]

/-- Where field number `i` starts. -/
def largeOff (i : Nat) : Nat := [0, 4, 8, 12, 20, 28, 32, 36, 40, 41, 45, 53, 57].getD i 75

theorem slice_large (H : Header) (newEnd : Nat) (rest : Bytes) {i off n : Nat} {l : Bytes}
    (hl : (largeFields H newEnd)[i]? = some l) (hoff : largeOff i = off) (hn : l.length = n) :
    slice (largeHeader H newEnd ++ rest) off n = l := by
  rw [largeHeader_fields, ← hoff]
  apply slice_piece rest hl _ hn
  have hi : i < 13 := (List.getElem?_eq_some_iff.1 hl).1
  interval_cases i <;> simp [largeFields, largeOff]

/-- A number of `largeHeader` that fits its field. -/
theorem beGetInt_large (H : Header) (newEnd : Nat) (rest : Bytes) {i off n : Nat} {v : Int}
    (hl : (largeFields H newEnd)[i]? = some (beInt n v)) (hoff : largeOff i = off)
    (hlo : -(256 ^ n : Int) ≤ 2 * v) (hhi : 2 * v < 256 ^ n) :
    beGetInt (largeHeader H newEnd ++ rest) off n = v :=
  beGetInt_head (slice_large H newEnd rest hl hoff (length_beInt n v)) hlo hhi

/-- The numbers of a 32-bit header are 32-bit signed integers. -/
structure Numbers32 (H : Header) : Prop where
  begin : -2 ^ 31 ≤ H.begin ∧ H.begin < 2 ^ 31
  seekFree : -2 ^ 31 ≤ H.seekFree ∧ H.seekFree < 2 ^ 31
  nbytesFree : -2 ^ 31 ≤ H.nbytesFree ∧ H.nbytesFree < 2 ^ 31
  nfree : -2 ^ 31 ≤ H.nfree ∧ H.nfree < 2 ^ 31
  nbytesName : -2 ^ 31 ≤ H.nbytesName ∧ H.nbytesName < 2 ^ 31
  compress : -2 ^ 31 ≤ H.compress ∧ H.compress < 2 ^ 31
  seekInfo : -2 ^ 31 ≤ H.seekInfo ∧ H.seekInfo < 2 ^ 31
  nbytesInfo : -2 ^ 31 ≤ H.nbytesInfo ∧ H.nbytesInfo < 2 ^ 31

theorem numbers32 (h : Bytes) : Numbers32 (narrowHeader h) := by
  have hrange : ∀ off, -2 ^ 31 ≤ beGetInt h off 4 ∧ beGetInt h off 4 < 2 ^ 31 := by
    intro off
    have := @beGetInt_range h off 4 (Or.inl rfl)
    omega
  constructor <;> exact hrange _

/-- The version that the 64-bit layout of a 32-bit header says. -/
theorem version_large (hat : HeaderAt h H) (hhi : H.version < 1000000) (newEnd : Nat)
    (rest : Bytes) : beGetInt (largeHeader H newEnd ++ rest) 4 4 = H.version + 1000000 := by
  have hlarge : H.large = false := by
    rw [hat.narrow hhi]
    rfl
  have hrange := @beGetInt_range h 4 4 (Or.inl rfl)
  rw [← hat.version] at hrange
  exact @beGetInt_large H newEnd rest 1 4 4 (H.version + 1000000) (by simp [largeFields, hlarge])
    rfl (by omega) (by omega)

/-- A 32-bit header rewritten in the 64-bit layout, with bytes behind it. -/
theorem headerAt_large {h rest : Bytes} {H : Header} {newEnd : Nat} (hat : HeaderAt h H)
    (hlo : 0 ≤ H.version) (hhi : H.version < 1000000) (hend : newEnd < 2 ^ 63) :
    HeaderAt (largeHeader H newEnd ++ rest)
      { H with version := H.version + 1000000, stop := newEnd, large := true } := by
  have hH := hat.narrow hhi
  have huuid : H.uuid.length = 18 := parseHeader_uuid (parseHeader_iff.2 hat)
  have h32 : Numbers32 H := by
    rw [hH]
    exact numbers32 h
  have hb := h32.begin
  have h75 : 75 ≤ H.begin := by
    rw [hH]
    exact hat.begin
  have hversion := version_large hat hhi newEnd rest
  have hbegin : beGetInt (largeHeader H newEnd ++ rest) 8 4 = H.begin :=
    @beGetInt_large H newEnd rest 2 8 4 H.begin rfl rfl (by omega) (by omega)
  refine ⟨?_, ?_, ?_, ?_⟩
  · rw [List.length_append, largeHeader_fields]
    simp [largeFields, huuid]
  · exact @slice_large H newEnd rest 0 0 4 (ascii "root") rfl rfl rfl
  · rw [hbegin]
    exact h75
  · rw [hversion, if_pos (by omega)]
    simp only [wideHeader]
    have hfree := h32.seekFree
    have hinfo := h32.seekInfo
    have hnf := h32.nbytesFree
    have hf := h32.nfree
    have hname := h32.nbytesName
    have hc := h32.compress
    have hni := h32.nbytesInfo
    rw [hversion, hbegin,
      @beGetInt_large H newEnd rest 3 12 8 newEnd rfl rfl (by omega) (by omega),
      @beGetInt_large H newEnd rest 4 20 8 H.seekFree rfl rfl (by omega) (by omega),
      @beGetInt_large H newEnd rest 5 28 4 H.nbytesFree rfl rfl (by omega) (by omega),
      @beGetInt_large H newEnd rest 6 32 4 H.nfree rfl rfl (by omega) (by omega),
      @beGetInt_large H newEnd rest 7 36 4 H.nbytesName rfl rfl (by omega) (by omega),
      @beGetInt_large H newEnd rest 9 41 4 H.compress rfl rfl (by omega) (by omega),
      @beGetInt_large H newEnd rest 10 45 8 H.seekInfo rfl rfl (by omega) (by omega),
      @beGetInt_large H newEnd rest 11 53 4 H.nbytesInfo rfl rfl (by omega) (by omega),
      @slice_large H newEnd rest 12 57 18 H.uuid rfl rfl huuid]

/-- The three windows. -/
theorem headerWindow_cases (hat : HeaderAt h H) (newEnd : Nat) :
    ∃ w, headerWindowForEnd h newEnd = .ok w ∧ patch h w.off w.bytes =
      if 1000000 ≤ H.version then bePut h 12 8 newEnd
      else if newEnd < 2 ^ 31 then bePut h 12 4 newEnd
      else largeHeader H newEnd ++ h.drop (largeHeader H newEnd).length := by
  unfold headerWindowForEnd
  simp only [parseHeader_iff.2 hat]
  by_cases hv : 1000000 ≤ H.version
  · have hlarge : H.large = true := by
      rw [hat.wide hv]
      rfl
    rw [if_pos hlarge, if_pos hv]
    exact ⟨_, rfl, rfl⟩
  · have hlarge : ¬H.large = true := by
      rw [hat.narrow (by omega)]
      exact Bool.false_ne_true
    rw [if_neg hlarge, if_neg hv]
    split
    · exact ⟨_, rfl, rfl⟩
    · refine ⟨_, rfl, ?_⟩
      simp [patch]

/-- A header that the first reader takes with this end and the second as it does. -/
theorem shownEnd_of {p : Bytes} {H' : Header} {newEnd : Nat} {w : Window}
    (hw : headerWindowForEnd h newEnd = .ok w) (hp : patch h w.off w.bytes = p)
    (hat' : HeaderAt p H') (hstop : H'.stop = newEnd) (hne : H'.version ≠ 1000000)
    (hsame : SameHeader H H') : ShownEnd h H newEnd := by
  have hagree := (readersAgree_iff hat' (containerHead_of hat')).2 hne
  refine ⟨w, H', _, hw, ?_, ?_, hstop, hagree.fend.trans hstop, hsame⟩
  · rw [hp]
    exact parseHeader_iff.2 hat'
  · rw [hp]
    exact containerHead_of hat'

/-- [SRC FillLayout.cc:77-153, TreeMeta.cc:463-480] The readers agree before and after the window
exactly when the version is not the boundary itself, and a header that is promoted does not land
on it or below. -/
theorem header_readers_agree_iff {h : Bytes} {H : Header} {c : ContainerHead}
    (hH : parseHeader h = some H) (hc : containerHead h = some c) {newEnd : Nat}
    (hend : newEnd < 2 ^ 63) : (ReadersAgree H c ∧ ShownEnd h H newEnd) ↔
      H.version ≠ 1000000 ∧ (2 ^ 31 ≤ newEnd → 0 < H.version) := by
  have hat := parseHeader_iff.1 hH
  obtain ⟨w, hw, hpatch⟩ := headerWindow_cases hat newEnd
  rw [readersAgree_iff hat hc]
  constructor
  · rintro ⟨hne, w', H', c', hw', -, hc', -, hfend, -⟩
    refine ⟨hne, ?_⟩
    intro hbig
    by_contra hneg
    rw [hw, Except.ok.injEq] at hw'
    subst hw'
    rw [hpatch, if_neg (by omega), if_neg (by omega), containerHead] at hc'
    split at hc'
    · cases hc'
    · rw [Option.some.injEq] at hc'
      rw [version_large hat (by omega)] at hc'
      have hread := @beGetInt_range (largeHeader H newEnd ++ h.drop (largeHeader H newEnd).length)
        12 4 (Or.inl rfl)
      have hsmall : ¬1000000 < H.version + 1000000 := by omega
      rw [← hc'] at hfend
      simp only [hsmall, decide_false, Bool.false_eq_true, if_false] at hfend
      omega
  · rintro ⟨hne, hpos⟩
    refine ⟨hne, ?_⟩
    by_cases hv : 1000000 ≤ H.version
    · rw [if_pos hv] at hpatch
      have hat' := @headerAt_put h H 8 newEnd hat (by rw [if_pos hv]) (by omega) (by omega)
      exact shownEnd_of hw hpatch hat' rfl hne ⟨rfl, rfl, rfl, rfl, rfl, rfl, rfl, rfl, rfl⟩
    · rw [if_neg hv] at hpatch
      by_cases hsmall : newEnd < 2 ^ 31
      · rw [if_pos hsmall] at hpatch
        have hat' := @headerAt_put h H 4 newEnd hat (by rw [if_neg hv]) (by omega) (by omega)
        exact shownEnd_of hw hpatch hat' rfl hne ⟨rfl, rfl, rfl, rfl, rfl, rfl, rfl, rfl, rfl⟩
      · rw [if_neg hsmall] at hpatch
        have hlo := hpos (by omega)
        have hat' := @headerAt_large h (h.drop (largeHeader H newEnd).length) H newEnd hat
          (by omega) (by omega) hend
        refine shownEnd_of hw hpatch hat' rfl ?_ ⟨rfl, rfl, rfl, rfl, rfl, rfl, rfl, rfl, rfl⟩
        show H.version + 1000000 ≠ 1000000
        omega

/-- A file header of this version, 100 bytes as files have it. -/
def headerOf (version : Int) : Bytes :=
  ascii "root" ++ beInt 4 version ++ beInt 4 100 ++ beInt 4 5000 ++ beInt 4 4900 ++ beInt 4 60 ++
    beInt 4 1 ++ beInt 4 58 ++ [4] ++ beInt 4 505 ++ beInt 4 4000 ++ beInt 4 200 ++
      List.replicate 55 0

/-- At the boundary itself the first reader takes `fEND` at 64 bits, the second at 32. -/
theorem boundary_version_disagrees : ∃ H c, parseHeader (headerOf 1000000) = some H ∧
    containerHead (headerOf 1000000) = some c ∧ H.large = true ∧ c.large = false ∧
      c.fend = 5000 ∧ H.stop = 5000 * 2 ^ 32 + 4900 := by
  refine ⟨wideHeader (headerOf 1000000), ⟨false, 4, 5000⟩, ?_, ?_, ?_, ?_, ?_, ?_⟩ <;> decide +kernel

/-- A 32-bit header of a common version, promoted. -/
theorem headerOf_shown : ∃ H, parseHeader (headerOf 62400) = some H ∧
    ShownEnd (headerOf 62400) H (2 ^ 32) := by
  refine ⟨narrowHeader (headerOf 62400), by decide +kernel, ?_⟩
  have hH : parseHeader (headerOf 62400) = some (narrowHeader (headerOf 62400)) := by
    decide +kernel
  have hc : containerHead (headerOf 62400) = some ⟨false, 4, 5000⟩ := by decide +kernel
  exact ((header_readers_agree_iff hH hc (by decide)).2 ⟨by decide +kernel, by decide +kernel⟩).2

end UCache
