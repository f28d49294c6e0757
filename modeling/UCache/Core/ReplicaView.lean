/-
Module: UCache.Core.ReplicaView
Purpose: The stitched view of a replica: splitting a range into pieces of the overlay and of the
  origin, and reading the overlay with every page checked.
Trusted boundary: none
Main exports: ReplicaView.Seg, ReplicaView.map, ReplicaView.read
-/
import UCache.Core.Reading
import UCache.Core.ReplicaFile
import UCache.Lib.Search

namespace UCache

open Lib

namespace ReplicaView

/-! ### Splitting a range -/

/-- [SRC ReplicaStore.h:54-59] A piece of a stitched range. -/
structure Seg where
  overlay : Bool
  off : Nat
  len : Nat
  tdataOff : Nat := 0
deriving DecidableEq, Repr

/-- [SRC ReplicaStore.cc:41-44] The gap before an extent is the origin's. -/
def gapBefore (pos : Nat) (e : Extent) : List Seg :=
  if pos < e.virtOff then [{ overlay := false, off := pos, len := e.virtOff - pos }] else []

/-- [SRC ReplicaStore.cc:36-51] The walk over the extents from `pos` to `stop`. -/
def mapFrom (stop : Nat) : Nat → List Extent → List Seg
  | pos, [] => if pos < stop then [{ overlay := false, off := pos, len := stop - pos }] else []
  | pos, e :: rest =>
      if pos < stop then
        if stop ≤ e.virtOff then [{ overlay := false, off := pos, len := stop - pos }]
        else
          let gap := gapBefore pos e
          let at' := max pos e.virtOff
          let segEnd := min stop (add64 e.virtOff e.len)
          if at' < segEnd then
            gap ++
              { overlay := true
                off := at'
                len := segEnd - at'
                tdataOff := add64 e.tdataOff (at' - e.virtOff) } :: mapFrom stop segEnd rest
          else gap ++ mapFrom stop at' rest
      else []

/-- [SRC ReplicaStore.cc:22-53] The pieces of `[off, off + len)`, as far as the stitched file goes:
the walk starts at the first extent that ends after `off`. -/
def map (m : ReplicaMeta) (off len : Nat) : List Seg :=
  let stop := min (add64 off len) m.virtualSize
  if m.virtualSize ≤ off ∨ stop ≤ off then []
  else
    mapFrom stop off
      (m.extents.drop (search (fun e => decide (add64 e.virtOff e.len ≤ off)) m.extents))

/-! ### Reading the overlay -/

/-- [SRC ReplicaStore.cc:112-115] The last page of the run that starts at `first`. -/
def runEnd (m : ReplicaMeta) (first last : Nat) : Nat → Nat → Nat
  | 0, rl => rl
  | fuel + 1, rl =>
      if rl < last ∧ m.runBytes first (rl + 1) ≤ FileEntry.kMaxCoalescedRead then
        runEnd m first last fuel (rl + 1)
      else rl

/-- [SRC ReplicaStore.cc:131-148] `n` pages from page `i` on, at `o` of what was read: each there in
full and with its CRC. -/
def verifyPages (m : ReplicaMeta) (data : Bytes) : Nat → Nat → Nat → Bool
  | 0, _, _ => true
  | n + 1, i, o =>
      decide (o + m.pageBytes i ≤ data.length) &&
        decide (m.pageCrcs[i]? = some (crc32c (slice data o (m.pageBytes i)))) &&
          verifyPages m data n (i + 1) (o + m.pageBytes i)

/-- What one read of the file gives for a run of pages; `pread` answers with a part of what was
asked for, from its start. -/
def runData (m : ReplicaMeta) (pread : Nat → Nat → Bytes) (rf rl : Nat) : Bytes :=
  (pread (rf * kOverlayPageSize) (m.runBytes rf rl)).take (m.runBytes rf rl)

def verifyRun (m : ReplicaMeta) (data : Bytes) (rf rl : Nat) : Bool :=
  verifyPages m data (rl + 1 - rf) rf 0

/-- [SRC ReplicaStore.cc:116-159] The run's bytes go to the caller's buffer: all of them when the
run lies in the request, else the part that was asked for. -/
def placeRun (m : ReplicaMeta) (tdataOff len : Nat) (out data : Bytes) (rf rl : Nat) : Bytes :=
  let rStart := rf * kOverlayPageSize
  let rBytes := m.runBytes rf rl
  if tdataOff ≤ rStart ∧ rStart + rBytes ≤ tdataOff + len then patch out (rStart - tdataOff) data
  else
    let cStart := max tdataOff rStart
    let cEnd := min (tdataOff + len) (rStart + rBytes)
    patch out (cStart - tdataOff) (slice data (cStart - rStart) (cEnd - cStart))

/-- [SRC ReplicaStore.cc:111-160] The loop over the runs. -/
def readRuns (m : ReplicaMeta) (pread : Nat → Nat → Bytes) (tdataOff len last : Nat) :
    Nat → Nat → Bytes → Option Bytes
  | 0, rf, out => if rf ≤ last then none else some out
  | fuel + 1, rf, out =>
      if rf ≤ last then
        let rl := runEnd m rf last (last - rf) rf
        let data := runData m pread rf rl
        if verifyRun m data rf rl then
          readRuns m pread tdataOff len last fuel (rl + 1) (placeRun m tdataOff len out data rf rl)
        else none
      else some out

/-- [SRC ReplicaStore.cc:98-162] `len` bytes of the overlay from `tdataOff` on into a buffer; nothing
when a page is short or fails its CRC. -/
def read (m : ReplicaMeta) (pread : Nat → Nat → Bytes) (tdataOff len : Nat) (out : Bytes) :
    Option Bytes :=
  if len = 0 then some out
  else if 2 ^ 64 ≤ tdataOff + len ∨ m.tdataBytes < tdataOff + len then none
  else
    let first := tdataOff / kOverlayPageSize
    let last := (tdataOff + len - 1) / kOverlayPageSize
    readRuns m pread tdataOff len last (last + 1 - first) first out

end ReplicaView

/-! ### What a stitched file consists of -/

def Extent.covers (e : Extent) (v : Nat) : Bool := decide (e.virtOff ≤ v) && decide (v < e.stop)

/-- Byte `v` of the stitched file: from the overlay where an extent says so, else the origin's. -/
def stitchedByte (m : ReplicaMeta) (tdata origin : Bytes) (v : Nat) : Option UInt8 :=
  match m.extents.find? fun e => e.covers v with
  | some e => tdata[e.tdataOff + (v - e.virtOff)]?
  | none => origin[v]?

/-- Pieces that follow one another from `a` to `b`, none of them empty. -/
def SegsFrom : Nat → List ReplicaView.Seg → Nat → Prop
  | a, [], b => a = b
  | a, s :: rest, b => s.off = a ∧ 0 < s.len ∧ SegsFrom (a + s.len) rest b

/-- A piece of the overlay lies in one extent, at that extent's place in `.tdata`; a piece of the
origin is apart from every extent. -/
def SegOk (extents : List Extent) (s : ReplicaView.Seg) : Prop :=
  if s.overlay then
    ∃ e ∈ extents, e.virtOff ≤ s.off ∧ s.off + s.len ≤ e.stop ∧
      s.tdataOff = e.tdataOff + (s.off - e.virtOff)
  else ∀ e ∈ extents, e.stop ≤ s.off ∨ s.off + s.len ≤ e.virtOff

/-! ### The extents are in order -/

variable {extents : List Extent}

theorem ExtentsFrom.mono {a b : Nat} (h : ExtentsFrom b extents) (hab : a ≤ b) :
    ExtentsFrom a extents := by
  cases extents with
  | nil => trivial
  | cons e rest => exact ⟨Nat.le_trans hab h.1, h.2⟩

theorem ExtentsFrom.virtOff_ge {a : Nat} (h : ExtentsFrom a extents) {e : Extent}
    (he : e ∈ extents) : a ≤ e.virtOff := by
  induction extents generalizing a with
  | nil => cases he
  | cons x rest ih =>
      rcases List.mem_cons.1 he with rfl | hmem
      · exact h.1
      · have := ih h.2.2 hmem
        have := h.1
        unfold Extent.stop at *
        omega

theorem ExtentsFrom.pairwise {a : Nat} (h : ExtentsFrom a extents) :
    extents.Pairwise fun x y => x.stop ≤ y.virtOff := by
  induction extents generalizing a with
  | nil => exact List.Pairwise.nil
  | cons e rest ih => exact List.Pairwise.cons (fun y hy => h.2.2.virtOff_ge hy) (ih h.2.2)

theorem ExtentsFrom.drop {a : Nat} (h : ExtentsFrom a extents) (k : Nat) :
    ExtentsFrom a (extents.drop k) := by
  induction k generalizing a extents with
  | zero => exact h
  | succ k ih =>
      cases extents with
      | nil => trivial
      | cons e rest =>
          have hstop : a ≤ e.stop := by
            have := h.1
            unfold Extent.stop
            omega
          exact ih (h.2.2.mono hstop)

/-- Extents in order are apart: the one that covers a position is the one the search finds. -/
theorem find_extent (h : extents.Pairwise fun x y => x.stop ≤ y.virtOff) {e : Extent}
    (he : e ∈ extents) {v : Nat} (hv : e.covers v = true) :
    extents.find? (fun e => e.covers v) = some e := by
  induction extents with
  | nil => cases he
  | cons x rest ih =>
      rw [List.pairwise_cons] at h
      rcases List.mem_cons.1 he with rfl | hmem
      · exact List.find?_cons_of_pos hv
      · have hle := h.1 e hmem
        have hnot : ¬ x.covers v = true := by
          simp only [Extent.covers, Bool.and_eq_true, decide_eq_true_eq] at hv ⊢
          omega
        rw [List.find?_cons_of_neg (by simpa using hnot)]
        exact ih h.2 hmem

/-! ### The split -/

namespace ReplicaView

variable {m : ReplicaMeta}

theorem segsFrom_append {a b c : Nat} {l l' : List Seg} (h : SegsFrom a l b)
    (h' : SegsFrom b l' c) : SegsFrom a (l ++ l') c := by
  induction l generalizing a with
  | nil =>
      cases h
      exact h'
  | cons s rest ih => exact ⟨h.1, h.2.1, ih h.2.2⟩

/-- A piece between the extents before it and those after it is the origin's. -/
theorem segOk_origin {before rest : List Extent} (hall : m.extents = before ++ rest) {pos len : Nat}
    (hbefore : ∀ e ∈ before, e.stop ≤ pos) (hafter : ∀ e ∈ rest, pos + len ≤ e.virtOff) :
    SegOk m.extents { overlay := false, off := pos, len := len } := by
  intro e he
  rw [hall] at he
  rcases List.mem_append.1 he with he | he
  · exact Or.inl (hbefore e he)
  · exact Or.inr (hafter e he)

theorem gapBefore_spec {before rest : List Extent} {e : Extent}
    (hall : m.extents = before ++ e :: rest) {a pos : Nat} (hrest : ExtentsFrom a (e :: rest))
    (hbefore : ∀ e ∈ before, e.stop ≤ pos) :
    SegsFrom pos (gapBefore pos e) (max pos e.virtOff) ∧
      ∀ s ∈ gapBefore pos e, SegOk m.extents s := by
  unfold gapBefore
  split
  · rename_i hlt
    refine ⟨⟨rfl, by simp only; omega, by simp only [SegsFrom]; omega⟩, ?_⟩
    intro s hs
    rw [List.mem_singleton] at hs
    subst hs
    apply segOk_origin hall hbefore
    intro x hx
    have hge := (show ExtentsFrom e.virtOff (e :: rest) from ⟨Nat.le_refl _, hrest.2⟩).virtOff_ge hx
    omega
  · exact ⟨by simp only [SegsFrom]; omega, by simp⟩

/-- The walk splits the rest of the range.  The extents before the walk end at or before `pos`. -/
theorem mapFrom_spec {m : ReplicaMeta} (hok : m.Ok) {stop : Nat}
    {before rest : List Extent} (hall : m.extents = before ++ rest) {a pos : Nat}
    (hrest : ExtentsFrom a rest) (hpos : pos ≤ stop)
    (hbefore : pos < stop → ∀ e ∈ before, e.stop ≤ pos) :
    SegsFrom pos (mapFrom stop pos rest) stop ∧
      ∀ s ∈ mapFrom stop pos rest, SegOk m.extents s := by
  induction rest generalizing before a pos with
  | nil =>
      rw [mapFrom]
      by_cases hlt : pos < stop
      · rw [if_pos hlt]
        refine ⟨⟨rfl, by simp only; omega, by simp only [SegsFrom]; omega⟩, ?_⟩
        intro s hs
        rw [List.mem_singleton] at hs
        subst hs
        intro e he
        rw [hall, List.append_nil] at he
        exact Or.inl (hbefore hlt e he)
      · rw [if_neg hlt]
        exact ⟨by simp only [SegsFrom]; omega, by simp⟩
  | cons e rest ih =>
      have he : e ∈ m.extents := by simp [hall]
      obtain ⟨hvirt, htdata⟩ := hok.inside e he
      have hadd : add64 e.virtOff e.len = e.stop := add64_of_le hvirt hok.sizes.1
      have hall' : m.extents = (before ++ [e]) ++ rest := by simp [hall]
      have hlen := hrest.2.1
      rw [mapFrom]
      by_cases hlt : pos < stop
      · rw [if_pos hlt]
        have hb := hbefore hlt
        by_cases hfar : stop ≤ e.virtOff
        · rw [if_pos hfar]
          refine ⟨⟨rfl, by simp only; omega, by simp only [SegsFrom]; omega⟩, ?_⟩
          intro s hs
          rw [List.mem_singleton] at hs
          subst hs
          apply segOk_origin hall hb
          intro x hx
          have hge :=
            (show ExtentsFrom e.virtOff (e :: rest) from ⟨Nat.le_refl _, hrest.2⟩).virtOff_ge hx
          omega
        · rw [if_neg hfar]
          obtain ⟨hgap, hgapOk⟩ := gapBefore_spec hall hrest hb
          simp only [hadd]
          have hstopE : e.stop = e.virtOff + e.len := rfl
          have hpassed : ∀ q, pos ≤ q → (q < stop → e.stop ≤ q) →
              q < stop → ∀ x ∈ before ++ [e], x.stop ≤ q := by
            intro q hq hend hmore x hx
            rcases List.mem_append.1 hx with hx | hx
            · have := hb x hx
              omega
            · rw [List.mem_singleton.1 hx]
              exact hend hmore
          by_cases hseg : max pos e.virtOff < min stop e.stop
          · rw [if_pos hseg]
            have hnext := @ih (before ++ [e]) hall' e.stop (min stop e.stop) hrest.2.2 (by omega)
              (hpassed _ (by omega) (by omega))
            have htd : add64 e.tdataOff (max pos e.virtOff - e.virtOff) =
                e.tdataOff + (max pos e.virtOff - e.virtOff) :=
              add64_of_le (by omega : _ ≤ m.tdataBytes) hok.sizes.2
            refine ⟨segsFrom_append hgap ⟨rfl, by simp only; omega, ?_⟩, ?_⟩
            · have hend : max pos e.virtOff + (min stop e.stop - max pos e.virtOff) =
                  min stop e.stop := by omega
              simp only [hend]
              exact hnext.1
            · intro s hs
              rcases List.mem_append.1 hs with hs | hs
              · exact hgapOk s hs
              · rcases List.mem_cons.1 hs with rfl | hs
                · refine ⟨e, he, ?_, ?_, htd⟩ <;> simp only <;> omega
                · exact hnext.2 s hs
          · rw [if_neg hseg]
            have hnext := @ih (before ++ [e]) hall' e.stop (max pos e.virtOff) hrest.2.2 (by omega)
              (hpassed _ (by omega) (by omega))
            refine ⟨segsFrom_append hgap hnext.1, ?_⟩
            intro s hs
            rcases List.mem_append.1 hs with hs | hs
            · exact hgapOk s hs
            · exact hnext.2 s hs
      · rw [if_neg hlt]
        exact ⟨by simp only [SegsFrom]; omega, by simp⟩

/-- The range is split into pieces of the overlay and of the origin. -/
theorem map_spec (hok : m.Ok) {off len : Nat} (hlen : off + len < 2 ^ 64) :
    SegsFrom off (map m off len) (max off (min (off + len) m.virtualSize)) ∧
      ∀ s ∈ map m off len, SegOk m.extents s := by
  have hadd : add64 off len = off + len := Nat.mod_eq_of_lt hlen
  simp only [map, hadd]
  by_cases hout : m.virtualSize ≤ off ∨ min (off + len) m.virtualSize ≤ off
  · rw [if_pos hout]
    exact ⟨by simp only [SegsFrom]; omega, by simp⟩
  · rw [if_neg hout]
    have hmax : max off (min (off + len) m.virtualSize) = min (off + len) m.virtualSize := by omega
    have hstop : ∀ e ∈ m.extents, add64 e.virtOff e.len = e.stop := fun e he =>
      add64_of_le (hok.inside e he).1 hok.sizes.1
    -- The search is in order: an extent that ends at or before `off` has such extents before it.
    have hsorted : m.extents.Pairwise fun x y =>
        decide (add64 y.virtOff y.len ≤ off) = true →
          decide (add64 x.virtOff x.len ≤ off) = true := by
      refine hok.ordered.pairwise.imp_of_mem ?_
      intro x y hx hy hxy
      rw [hstop x hx, hstop y hy]
      simp only [decide_eq_true_eq]
      unfold Extent.stop at *
      omega
    rw [hmax]
    refine mapFrom_spec hok (List.take_append_drop _ _).symm (hok.ordered.drop _)
      (by omega) ?_
    intro _ e he
    obtain ⟨i, hi⟩ := List.mem_iff_getElem?.1 he
    rw [List.getElem?_take] at hi
    split at hi
    · rename_i hlt
      have hright := (search_iff hsorted hi).2 hlt
      rw [hstop e (List.mem_of_getElem? hi)] at hright
      simpa using hright
    · cases hi

/-! ### Reading -/

variable {pread : Nat → Nat → Bytes}

theorem runEnd_spec (m : ReplicaMeta) {first last : Nat} (fuel : Nat) {rl : Nat} (h : rl ≤ last) :
    rl ≤ runEnd m first last fuel rl ∧ runEnd m first last fuel rl ≤ last := by
  induction fuel generalizing rl with
  | zero => exact ⟨Nat.le_refl _, h⟩
  | succ fuel ih =>
      rw [runEnd]
      split
      · rename_i hmore
        have := @ih (rl + 1) (by omega)
        omega
      · exact ⟨Nat.le_refl _, h⟩

/-- Only the tail page is short. -/
theorem pageBytes_full {i : Nat} (h : (i + 1) * kOverlayPageSize ≤ m.tdataBytes) :
    m.pageBytes i = kOverlayPageSize := by
  unfold ReplicaMeta.pageBytes
  rw [Nat.succ_mul] at h
  omega

/-- Every page of a run that passed is there in full, at its place, and has its CRC. -/
theorem verifyPages_spec {data : Bytes} {n i o : Nat}
    (hfull : ∀ j, j + 1 < n → m.pageBytes (i + j) = kOverlayPageSize)
    (h : verifyPages m data n i o = true) {j : Nat} (hj : j < n) :
    o + j * kOverlayPageSize + m.pageBytes (i + j) ≤ data.length ∧
      m.pageCrcs[i + j]? =
        some (crc32c (slice data (o + j * kOverlayPageSize) (m.pageBytes (i + j)))) := by
  induction n generalizing i o j with
  | zero => omega
  | succ n ih =>
      simp only [verifyPages, Bool.and_eq_true, decide_eq_true_eq] at h
      obtain ⟨⟨hlen, hcrc⟩, hrest⟩ := h
      cases j with
      | zero => simpa using ⟨hlen, hcrc⟩
      | succ j =>
          have hthis := hfull 0 (by omega)
          rw [Nat.add_zero] at hthis
          have hfull' : ∀ k, k + 1 < n → m.pageBytes (i + 1 + k) = kOverlayPageSize := by
            intro k hk
            rw [Nat.add_right_comm, Nat.add_assoc]
            exact hfull (k + 1) (by omega)
          have hnext := ih hfull' hrest (by omega : j < n)
          rw [hthis] at hnext
          have hplace : o + (j + 1) * kOverlayPageSize =
              o + kOverlayPageSize + j * kOverlayPageSize := by
            rw [Nat.succ_mul]
            omega
          have hindex : i + (j + 1) = i + 1 + j := by omega
          rw [hplace, hindex]
          exact hnext

/-- Before the last page of a run every page is full. -/
theorem pageBytes_run {rf rl : Nat} (hrl : rl * kOverlayPageSize < m.tdataBytes) :
    ∀ j, j + 1 < rl + 1 - rf → m.pageBytes (rf + j) = kOverlayPageSize := by
  intro j hj
  apply pageBytes_full
  have hmul : (rf + j + 1) * kOverlayPageSize ≤ rl * kOverlayPageSize :=
    Nat.mul_le_mul_right _ (by omega)
  exact Nat.le_trans hmul (Nat.le_of_lt hrl)

/-- The pages of a run of which the last starts inside the overlay. -/
theorem verifyRun_spec {data : Bytes} {rf rl : Nat} (hrl : rl * kOverlayPageSize < m.tdataBytes)
    (h : verifyRun m data rf rl = true) {i : Nat} (hlo : rf ≤ i) (hhi : i ≤ rl) :
    (i - rf) * kOverlayPageSize + m.pageBytes i ≤ data.length ∧
      m.pageCrcs[i]? = some (crc32c (slice data ((i - rf) * kOverlayPageSize) (m.pageBytes i))) := by
  have hspec := verifyPages_spec (pageBytes_run hrl) h (by omega : i - rf < rl + 1 - rf)
  rwa [Nat.zero_add, Nat.add_sub_cancel' hlo] at hspec

theorem length_runData {rf rl : Nat} (hle : rf ≤ rl) (hrl : rl * kOverlayPageSize < m.tdataBytes)
    (h : verifyRun m (runData m pread rf rl) rf rl = true) :
    (runData m pread rf rl).length = m.runBytes rf rl := by
  have hlast := (verifyRun_spec hrl h hle (Nat.le_refl rl)).1
  have hmul : (rl - rf) * kOverlayPageSize = rl * kOverlayPageSize - rf * kOverlayPageSize :=
    Nat.sub_mul _ _ _
  have hle' : rf * kOverlayPageSize ≤ rl * kOverlayPageSize := Nat.mul_le_mul_right _ hle
  have htake : (runData m pread rf rl).length ≤ m.runBytes rf rl := by
    rw [runData, List.length_take]
    omega
  unfold ReplicaMeta.runBytes at *
  omega

/-- What passes the check is what `T` has there. -/
def Delivers (m : ReplicaMeta) (pread : Nat → Nat → Bytes) (T : Bytes) : Prop :=
  ∀ rf rl, rf ≤ rl → rl * kOverlayPageSize < m.tdataBytes →
    verifyRun m (runData m pread rf rl) rf rl = true →
      ∀ j < m.runBytes rf rl, (runData m pread rf rl)[j]? = T[rf * kOverlayPageSize + j]?

theorem placeRun_spec {m : ReplicaMeta} {T out data : Bytes} {tdataOff len rf rl : Nat}
    (hout : out.length = len) (hle : rf ≤ rl)
    (hdata : ∀ j < data.length, data[j]? = T[rf * kOverlayPageSize + j]?)
    (hlen : data.length = m.runBytes rf rl)
    (hfirst : rf * kOverlayPageSize < tdataOff + len)
    (hlast : tdataOff < rl * kOverlayPageSize + m.pageBytes rl) :
    (placeRun m tdataOff len out data rf rl).length = len ∧
      ∀ k, (placeRun m tdataOff len out data rf rl)[k]? =
        if rf * kOverlayPageSize ≤ tdataOff + k ∧ tdataOff + k < tdataOff + len ∧
          tdataOff + k < rl * kOverlayPageSize + m.pageBytes rl then T[tdataOff + k]?
        else out[k]? := by
  have hstart : rf * kOverlayPageSize ≤ rl * kOverlayPageSize := Nat.mul_le_mul_right _ hle
  have hbytes : rf * kOverlayPageSize + m.runBytes rf rl =
      rl * kOverlayPageSize + m.pageBytes rl := by
    unfold ReplicaMeta.runBytes
    omega
  -- Both ways of placing the bytes copy the part of the run that was asked for.
  have hcopy : placeRun m tdataOff len out data rf rl =
      patch out (max tdataOff (rf * kOverlayPageSize) - tdataOff)
        (slice data (max tdataOff (rf * kOverlayPageSize) - rf * kOverlayPageSize)
          (min (tdataOff + len) (rf * kOverlayPageSize + m.runBytes rf rl) -
            max tdataOff (rf * kOverlayPageSize))) := by
    unfold placeRun
    simp only
    split
    · rename_i hdirect
      have hmax : max tdataOff (rf * kOverlayPageSize) = rf * kOverlayPageSize := by omega
      have hmin : min (tdataOff + len) (rf * kOverlayPageSize + m.runBytes rf rl) =
          rf * kOverlayPageSize + m.runBytes rf rl := by omega
      rw [hmax, hmin, Nat.sub_self, Nat.add_sub_cancel_left, ← hlen]
      simp [slice]
    · rfl
  rw [hcopy]
  have hspec := @getElem?_copy T data out tdataOff (rf * kOverlayPageSize)
    (max tdataOff (rf * kOverlayPageSize))
    (min (tdataOff + len) (rf * kOverlayPageSize + m.runBytes rf rl)) hdata (by omega) (by omega)
    (by omega) (by omega) (by omega)
  refine ⟨by rw [hspec.1, hout], ?_⟩
  intro k
  rw [hspec.2 k]
  congr 1
  rw [eq_iff_iff]
  omega

theorem readRuns_of_lt (m : ReplicaMeta) (pread : Nat → Nat → Bytes) (tdataOff len : Nat)
    {last rf : Nat} (fuel : Nat) (out : Bytes) (h : ¬ rf ≤ last) :
    readRuns m pread tdataOff len last fuel rf out = some out := by
  cases fuel with
  | zero => rw [readRuns, if_neg h]
  | succ fuel => rw [readRuns, if_neg h]

/-- Where a page that starts inside the overlay ends. -/
theorem page_end {i : Nat} (h : i * kOverlayPageSize < m.tdataBytes) :
    i * kOverlayPageSize + m.pageBytes i = min ((i + 1) * kOverlayPageSize) m.tdataBytes := by
  rw [Nat.succ_mul]
  unfold ReplicaMeta.pageBytes
  generalize i * kOverlayPageSize = start at h ⊢
  generalize kOverlayPageSize = P
  omega

/-- The loop over the runs: what lies before the next run is in place. -/
theorem readRuns_spec {m : ReplicaMeta} {pread : Nat → Nat → Bytes} {T : Bytes}
    (hT : Delivers m pread T) {tdataOff len last : Nat} (hlen : 0 < len)
    (hinside : tdataOff + len ≤ m.tdataBytes)
    (hlast : last * kOverlayPageSize < tdataOff + len)
    (hlast' : tdataOff + len ≤ (last + 1) * kOverlayPageSize) {fuel rf : Nat} {out out' : Bytes}
    (hrf : tdataOff < (rf + 1) * kOverlayPageSize) (hout : out.length = len)
    (hdone : ∀ k < len, tdataOff + k < rf * kOverlayPageSize → out[k]? = T[tdataOff + k]?)
    (h : readRuns m pread tdataOff len last fuel rf out = some out') :
    out'.length = len ∧ ∀ k < len, out'[k]? = T[tdataOff + k]? := by
  -- Behind the last page everything is in place.
  have hend : ∀ {rf : Nat} {out : Bytes}, ¬ rf ≤ last → out.length = len →
      (∀ k < len, tdataOff + k < rf * kOverlayPageSize → out[k]? = T[tdataOff + k]?) →
        out.length = len ∧ ∀ k < len, out[k]? = T[tdataOff + k]? := by
    intro rf out hgt hout hdone
    have hmul : (last + 1) * kOverlayPageSize ≤ rf * kOverlayPageSize :=
      Nat.mul_le_mul_right _ (by omega)
    exact ⟨hout, fun k hk => hdone k hk (by omega)⟩
  induction fuel generalizing rf out with
  | zero =>
      by_cases hle : rf ≤ last
      · rw [readRuns, if_pos hle] at h
        cases h
      · rw [readRuns_of_lt m pread tdataOff len 0 out hle] at h
        cases h
        exact hend hle hout hdone
  | succ fuel ih =>
      by_cases hle : rf ≤ last
      · rw [readRuns, if_pos hle] at h
        simp only at h
        obtain ⟨hrl, hrl'⟩ := @runEnd_spec m rf last (last - rf) rf hle
        generalize runEnd m rf last (last - rf) rf = rl at h hrl hrl'
        split at h
        · rename_i hverified
          have hmul : rf * kOverlayPageSize ≤ rl * kOverlayPageSize := Nat.mul_le_mul_right _ hrl
          have hrlLe : rl * kOverlayPageSize ≤ last * kOverlayPageSize :=
            Nat.mul_le_mul_right _ hrl'
          have hnext : (rf + 1) * kOverlayPageSize ≤ (rl + 1) * kOverlayPageSize :=
            Nat.mul_le_mul_right _ (by omega)
          have hrlIn : rl * kOverlayPageSize < tdataOff + len := Nat.lt_of_le_of_lt hrlLe hlast
          have hrlBytes : rl * kOverlayPageSize < m.tdataBytes := Nat.lt_of_lt_of_le hrlIn hinside
          have hpage := page_end hrlBytes
          have hdataLen := length_runData hrl hrlBytes hverified
          have hplaced := @placeRun_spec m T out (runData m pread rf rl) tdataOff len rf rl hout hrl
            (by
              intro j hj
              exact hT rf rl hrl hrlBytes hverified j (hdataLen ▸ hj))
            hdataLen (Nat.lt_of_le_of_lt hmul hrlIn)
            (by
              rw [hpage]
              exact Nat.lt_min.2 ⟨Nat.lt_of_lt_of_le hrf hnext, by omega⟩)
          have hrl₁ : (rl + 1) * kOverlayPageSize ≤ (rl + 1 + 1) * kOverlayPageSize :=
            Nat.mul_le_mul_right _ (by omega)
          refine @ih (rl + 1) _ (Nat.lt_of_lt_of_le (Nat.lt_of_lt_of_le hrf hnext) hrl₁) hplaced.1
            ?_ h
          intro k hk hbefore
          rw [hplaced.2 k, hpage]
          split
          · rfl
          · rename_i hnot
            apply hdone k hk
            by_contra hge
            exact hnot ⟨Nat.le_of_not_lt hge, by omega, Nat.lt_min.2 ⟨hbefore, by omega⟩⟩
        · cases h
      · rw [readRuns_of_lt m pread tdataOff len _ out hle] at h
        cases h
        exact hend hle hout hdone

/-- A read that succeeds has filled the buffer with the bytes of the overlay. -/
theorem read_spec {T : Bytes} (hT : Delivers m pread T) {tdataOff len : Nat} {out out' : Bytes}
    (hout : out.length = len) (h : read m pread tdataOff len out = some out') :
    out'.length = len ∧ ∀ k < len, out'[k]? = T[tdataOff + k]? := by
  have hP : 0 < kOverlayPageSize := by decide
  unfold read at h
  split at h
  · cases h
    exact ⟨hout, by omega⟩
  split at h
  · cases h
  · rename_i hlen hinside
    have hlast := Nat.div_mul_le_self (tdataOff + len - 1) kOverlayPageSize
    have hlast' := Nat.lt_mul_div_succ (tdataOff + len - 1) hP
    have hfirst := Nat.div_mul_le_self tdataOff kOverlayPageSize
    have hfirst' := Nat.lt_mul_div_succ tdataOff hP
    simp only at h
    generalize (tdataOff + len - 1) / kOverlayPageSize = last at h hlast hlast'
    generalize tdataOff / kOverlayPageSize = first at h hfirst hfirst'
    rw [Nat.mul_comm] at hlast' hfirst'
    exact readRuns_spec hT (by omega) (by omega) (by omega) (by omega) hfirst' hout
      (fun k _ hk => absurd hk (by omega)) h

/-- A file that is read as it is. -/
theorem delivers_file {tdata : Bytes} (h : ∀ off n, pread off n <+: slice tdata off n) :
    Delivers m pread tdata := by
  intro rf rl hle hrl hverified j hj
  have hlen := length_runData hle hrl hverified
  obtain ⟨rest, hrest⟩ : runData m pread rf rl <+:
      slice tdata (rf * kOverlayPageSize) (m.runBytes rf rl) :=
    (List.take_prefix _ _).trans (h _ _)
  have hsame : (runData m pread rf rl ++ rest)[j]? = (runData m pread rf rl)[j]? :=
    List.getElem?_append_left (by omega)
  rw [← hsame, hrest, getElem?_slice, if_pos hj]

/-- A run that is there in full, every page with its CRC, passes. -/
theorem verifyPages_of {data : Bytes} {n i o : Nat}
    (hfull : ∀ j, j + 1 < n → m.pageBytes (i + j) = kOverlayPageSize)
    (h : ∀ j < n, o + j * kOverlayPageSize + m.pageBytes (i + j) ≤ data.length ∧
      m.pageCrcs[i + j]? =
        some (crc32c (slice data (o + j * kOverlayPageSize) (m.pageBytes (i + j))))) :
    verifyPages m data n i o = true := by
  induction n generalizing i o with
  | zero => rfl
  | succ n ih =>
      have hthis := h 0 (by omega)
      rw [Nat.zero_mul, Nat.add_zero, Nat.add_zero] at hthis
      simp only [verifyPages, Bool.and_eq_true, decide_eq_true_eq]
      refine ⟨hthis, ?_⟩
      cases n with
      | zero => rfl
      | succ n =>
          have hpage := hfull 0 (by omega)
          rw [Nat.add_zero] at hpage
          rw [hpage]
          apply ih
          · intro j hj
            rw [Nat.add_right_comm, Nat.add_assoc]
            exact hfull (j + 1) (by omega)
          · intro j hj
            have hnext := h (j + 1) (by omega)
            have hplace : o + (j + 1) * kOverlayPageSize =
                o + kOverlayPageSize + j * kOverlayPageSize := by
              rw [Nat.succ_mul, Nat.add_right_comm, Nat.add_assoc]
            have hindex : i + (j + 1) = i + 1 + j := by omega
            rwa [hplace, hindex] at hnext

/-- A page of a run, in the bytes of the run. -/
theorem page_in_run {rf rl i : Nat} (hrl : rl * kOverlayPageSize < m.tdataBytes) (hlo : rf ≤ i)
    (hhi : i ≤ rl) :
    rf * kOverlayPageSize + (i - rf) * kOverlayPageSize = i * kOverlayPageSize ∧
      (i - rf) * kOverlayPageSize + m.pageBytes i ≤ m.runBytes rf rl := by
  have hsub : (i - rf) * kOverlayPageSize = i * kOverlayPageSize - rf * kOverlayPageSize :=
    Nat.sub_mul _ _ _
  have hlo' : rf * kOverlayPageSize ≤ i * kOverlayPageSize := Nat.mul_le_mul_right _ hlo
  have hhi' : i * kOverlayPageSize ≤ rl * kOverlayPageSize := Nat.mul_le_mul_right _ hhi
  have hend := page_end (Nat.lt_of_le_of_lt hhi' hrl)
  have hend' := page_end hrl
  have hnext : (i + 1) * kOverlayPageSize ≤ (rl + 1) * kOverlayPageSize :=
    Nat.mul_le_mul_right _ (by omega)
  unfold ReplicaMeta.runBytes
  rw [hsub, hend']
  generalize kOverlayPageSize = P at *
  generalize rf * P = a at *
  generalize i * P = b at *
  generalize (i + 1) * P = b' at *
  generalize (rl + 1) * P = c at *
  omega

/-- The bytes of a file that is as its sidecar says pass the check. -/
theorem verifyRun_file {m : ReplicaMeta} {T : Bytes} (hlen : T.length = m.tdataBytes)
    (hcrc : ∀ i, i * kOverlayPageSize < m.tdataBytes →
      m.pageCrcs[i]? = some (crc32c (slice T (i * kOverlayPageSize) (m.pageBytes i))))
    {rf rl : Nat} (hle : rf ≤ rl) (hrl : rl * kOverlayPageSize < m.tdataBytes) :
    verifyRun m (runData m (slice T) rf rl) rf rl = true := by
  have hdata : runData m (slice T) rf rl = slice T (rf * kOverlayPageSize) (m.runBytes rf rl) := by
    rw [runData, slice, List.take_take, Nat.min_self]
  apply verifyPages_of (pageBytes_run hrl)
  intro j hj
  have hjrl : rf + j ≤ rl := by
    clear hrl
    omega
  obtain ⟨hplace, hinside⟩ := page_in_run hrl (Nat.le_add_right rf j) hjrl
  rw [Nat.add_sub_cancel_left] at hplace hinside
  have hlt : (rf + j) * kOverlayPageSize < m.tdataBytes :=
    Nat.lt_of_le_of_lt (Nat.mul_le_mul_right _ hjrl) hrl
  have hstart : rf * kOverlayPageSize ≤ rl * kOverlayPageSize := Nat.mul_le_mul_right _ hle
  have hend := page_end hrl
  rw [hdata, Nat.zero_add, length_slice, slice_slice hinside, hplace]
  refine ⟨?_, hcrc _ hlt⟩
  have hroom : rf * kOverlayPageSize + m.runBytes rf rl ≤ T.length := by
    unfold ReplicaMeta.runBytes
    clear hinside hplace hlt hcrc
    generalize rl * kOverlayPageSize = b at *
    generalize (rl + 1) * kOverlayPageSize = b' at *
    generalize rf * kOverlayPageSize = a at *
    omega
  exact Nat.le_min.2 ⟨hinside, Nat.le_trans hinside (Nat.le_sub_of_add_le' hroom)⟩

/-- Pages that are the pages of `T` when their CRCs say so. -/
theorem delivers_of_pages {T : Bytes}
    (hpage : ∀ rf rl i, rf ≤ i → i ≤ rl → rl * kOverlayPageSize < m.tdataBytes →
      (i - rf) * kOverlayPageSize + m.pageBytes i ≤ (runData m pread rf rl).length →
      m.pageCrcs[i]? = some (crc32c
        (slice (runData m pread rf rl) ((i - rf) * kOverlayPageSize) (m.pageBytes i))) →
      slice (runData m pread rf rl) ((i - rf) * kOverlayPageSize) (m.pageBytes i) =
        slice T (i * kOverlayPageSize) (m.pageBytes i)) : Delivers m pread T := by
  have hP : 0 < kOverlayPageSize := by decide
  intro rf rl hle hrl hverified j hj
  -- The page the byte is in.
  have hdiv := Nat.div_mul_le_self j kOverlayPageSize
  have hmod := Nat.lt_div_mul_add (a := j) hP
  generalize j / kOverlayPageSize = q at hdiv hmod
  have hq : rf + q ≤ rl := by
    by_contra hgt
    have hmul : (rl + 1) * kOverlayPageSize ≤ (rf + q) * kOverlayPageSize :=
      Nat.mul_le_mul_right _ (by omega)
    have hend := page_end hrl
    rw [Nat.add_mul rf q] at hmul
    unfold ReplicaMeta.runBytes at hj
    generalize rf * kOverlayPageSize = a at *
    generalize rl * kOverlayPageSize = b at *
    generalize (rl + 1) * kOverlayPageSize = b' at *
    generalize q * kOverlayPageSize = c at *
    omega
  obtain ⟨hplace, hinside⟩ := page_in_run hrl (by omega : rf ≤ rf + q) hq
  obtain ⟨hlen, hcrc⟩ := verifyRun_spec hrl hverified (by omega : rf ≤ rf + q) hq
  have hsame := hpage rf rl (rf + q) (by omega) hq hrl hlen hcrc
  rw [Nat.add_sub_cancel_left] at hplace hinside hsame
  have hbyte : j - q * kOverlayPageSize < m.pageBytes (rf + q) := by
    have hqrl : (rf + q) * kOverlayPageSize ≤ rl * kOverlayPageSize := Nat.mul_le_mul_right _ hq
    have hend := page_end (Nat.lt_of_le_of_lt hqrl hrl)
    have hend' := page_end hrl
    have hstart : rf * kOverlayPageSize ≤ rl * kOverlayPageSize := Nat.mul_le_mul_right _ hle
    rw [Nat.succ_mul] at hend
    unfold ReplicaMeta.runBytes at hj
    generalize rl * kOverlayPageSize = b at *
    generalize (rl + 1) * kOverlayPageSize = b' at *
    generalize rf * kOverlayPageSize = a at *
    generalize (rf + q) * kOverlayPageSize = d at *
    generalize q * kOverlayPageSize = c at *
    generalize kOverlayPageSize = P at *
    omega
  have hget := congrArg (fun l => l[j - q * kOverlayPageSize]?) hsame
  simp only [getElem?_slice, if_pos hbyte] at hget
  rw [Nat.add_sub_cancel' hdiv] at hget
  rw [hget, ← hplace, Nat.add_assoc, Nat.add_sub_cancel' hdiv]

end ReplicaView

end UCache
