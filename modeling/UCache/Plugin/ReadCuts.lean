/-
Module: UCache.Plugin.ReadCuts
Purpose: Rounding a request out to whole pages and cutting what is fetched into legal elements, in
  the 64-bit words of the source: the loop over the cuts always ends, and its pieces are the run.
Trusted boundary: none
Main exports: readvElemEnd64, CutLoop, request_rounded_and_cut
-/
import UCache.Lib.Loop
import UCache.Plugin.MissedChunks

namespace UCache

open Lib

/-! ### The loop over the cuts -/

/-- [SRC ReadRounding.h:59-67] `readvElemEnd` with its sums in 64 bits. -/
def readvElemEnd64 (start stop pageSize : Nat) : Nat :=
  if sub64 stop start ≤ kMaxReadvElem then stop
  else
    let ceiling := add64 start kMaxReadvElem
    let cut := sub64 ceiling (ceiling % pageSize)
    min (if cut ≤ start then add64 start pageSize else cut) stop

/-- [SRC UCacheFile.cc:1137-1141] Where the loop over a run stands, and the elements it has made. -/
structure CutLoop where
  pos : Nat
  wire : List WireElem := []

namespace CutLoop

/-- The loop's guard. -/
def more (stop : Nat) (s : CutLoop) : Bool := decide (s.pos < stop)

/-- One turn of the loop. -/
def turn (pageSize stop : Nat) (s : CutLoop) : CutLoop :=
  let cut := readvElemEnd64 s.pos stop pageSize
  { pos := cut, wire := s.wire ++ [{ off := s.pos, len := sub64 cut s.pos }] }

end CutLoop

/-- Pieces that list every byte of a range once and in order, each of them legal and not empty,
and with a page boundary between any two. -/
structure CutInto (pageSize start stop : Nat) (wire : List WireElem) : Prop where
  bytes : wire.flatMap (fun w => List.range' w.off w.len) = List.range' start (stop - start)
  legal : ∀ w ∈ wire, 0 < w.len ∧ w.len ≤ kMaxReadvElem
  starts : ∀ w ∈ wire, w.off = start ∨ pageSize ∣ w.off
  ends : ∀ w ∈ wire, w.off + w.len = stop ∨ pageSize ∣ w.off + w.len

section Cutting

variable {pageSize : Nat} (hpos : 0 < pageSize) (hpage : pageSize ≤ kMaxReadvElem)

include hpos hpage

omit hpos in
/-- No sum of a cut leaves a word: what is behind a cut is at least an element long. -/
theorem readvElemEnd64_eq {start stop : Nat} (hle : start ≤ stop) (hstop : stop < 2 ^ 64) :
    readvElemEnd64 start stop pageSize = readvElemEnd start stop pageSize := by
  unfold readvElemEnd64 readvElemEnd
  rw [sub64_of_le hle hstop]
  split
  · rfl
  rename_i hlong
  have hceiling : add64 start kMaxReadvElem = start + kMaxReadvElem :=
    add64_of_le (n := stop) (by omega) hstop
  have hpageSum : add64 start pageSize = start + pageSize :=
    add64_of_le (n := stop) (by omega) hstop
  have hmod : (start + kMaxReadvElem) % pageSize ≤ start + kMaxReadvElem := Nat.mod_le _ _
  simp only [hceiling, hpageSum]
  rw [sub64_of_le hmod (by omega)]

/-- [SRC UCacheFile.cc:1137-1141] The loop over a run ends, with the elements of the run behind
those it had. -/
theorem cutLoop_ends {fuel pos stop : Nat} (hle : pos ≤ stop) (hstop : stop < 2 ^ 64)
    (hfuel : stop - pos ≤ fuel) (done : List WireElem) :
    loopFor (CutLoop.more stop) (CutLoop.turn pageSize stop) (fuel + 1) { pos, wire := done } =
      some { pos := stop, wire := done ++ cutRun pageSize fuel pos stop } := by
  induction fuel generalizing pos done with
  | zero =>
      have hend : pos = stop := by omega
      subst hend
      simp [loopFor, CutLoop.more, cutRun]
  | succ fuel ih =>
      rw [loopFor, cutRun]
      by_cases hlt : pos < stop
      · have hmore : CutLoop.more stop { pos, wire := done } = true := decide_eq_true hlt
        rw [if_pos hmore, if_pos hlt]
        have hcut : pos < readvElemEnd pos stop pageSize ∧
            readvElemEnd pos stop pageSize ≤ stop := by
          by_cases hlong : kMaxReadvElem < stop - pos
          · obtain ⟨-, hgt, hmax⟩ := readvElemEnd_of_long hpos hpage hlong
            exact ⟨hgt, by omega⟩
          · have hend : readvElemEnd pos stop pageSize = stop := if_pos (by omega)
            omega
        simp only [CutLoop.turn]
        rw [readvElemEnd64_eq hpage hle hstop, sub64_of_le hcut.1.le (by omega),
          ih hcut.2 (by omega), List.append_assoc, List.singleton_append]
      · have hend : pos = stop := by omega
        subst hend
        simp [CutLoop.more]

end Cutting

/-! ### The pieces -/

/-- Elements one behind the other have every byte of their range, in order. -/
theorem ElemsFrom.flatMap_range' {a b : Nat} {wire : List WireElem} (h : ElemsFrom a wire b) :
    wire.flatMap (fun w => List.range' w.off w.len) = List.range' a (b - a) := by
  induction wire generalizing a with
  | nil =>
      cases h
      simp
  | cons w rest ih =>
      obtain ⟨hoff, -, -, hrest⟩ := h
      have hle := hrest.le
      have hsplit : b - a = w.len + (b - (a + w.len)) := by omega
      rw [List.flatMap_cons, ih hrest, hoff, hsplit, ← List.range'_append_1]

section Edges

variable {pageSize : Nat} (hpos : 0 < pageSize) (hpage : pageSize ≤ kMaxReadvElem)

include hpos hpage

/-- Every cut but the last is at a page boundary, wherever the run starts. -/
theorem cutRun_boundaries {fuel pos stop : Nat} :
    ∀ w ∈ cutRun pageSize fuel pos stop, (w.off = pos ∨ pageSize ∣ w.off) ∧
      (w.off + w.len = stop ∨ pageSize ∣ w.off + w.len) := by
  induction fuel generalizing pos with
  | zero => simp [cutRun]
  | succ fuel ih =>
      unfold cutRun
      split
      · rename_i hlt
        intro w hw
        by_cases hlong : kMaxReadvElem < stop - pos
        · obtain ⟨hcut, hgt, -⟩ := readvElemEnd_of_long hpos hpage hlong
          have hdvd : pageSize ∣ readvElemEnd pos stop pageSize := hcut ▸ Nat.dvd_mul_left _ _
          rcases List.mem_cons.1 hw with rfl | hw
          · refine ⟨.inl rfl, .inr ?_⟩
            simp only
            rwa [Nat.add_sub_cancel' hgt.le]
          · obtain ⟨hoff, hend⟩ := ih w hw
            exact ⟨.inr (hoff.elim (fun h => h ▸ hdvd) id), hend⟩
        · have hend : readvElemEnd pos stop pageSize = stop := if_pos (by omega)
          rw [hend] at hw
          rcases List.mem_cons.1 hw with rfl | hw
          · refine ⟨.inl rfl, .inl ?_⟩
            simp only
            omega
          · cases fuel <;> simp [cutRun] at hw
      · simp

theorem cutRun_cutInto {start stop : Nat} (hle : start ≤ stop) :
    CutInto pageSize start stop (cutRun pageSize (stop - start) start stop) := by
  have hfrom := cutRun_from hpos hpage hle (Nat.le_refl _)
  exact ⟨hfrom.flatMap_range', fun w hw => (hfrom.mem hw).2.2,
    fun w hw => (cutRun_boundaries hpos hpage w hw).1,
    fun w hw => (cutRun_boundaries hpos hpage w hw).2⟩

end Edges

/-! ### Rounding -/

/-- Below the words' end the rounding is that of numbers. -/
theorem roundSpan64_eq {pageSize off len : Nat} (fileSize : Nat)
    (hfit : off + len + pageSize < 2 ^ 64) :
    roundSpan64 pageSize fileSize off len = roundSpan pageSize fileSize off len := by
  unfold roundSpan64 roundSpan
  rw [Nat.mod_eq_of_lt (by omega), add64_eq (by omega)]

/-- What rounding leaves: all that the request has in the file, between page boundaries and no
further than the file, or else the request as it was. -/
structure KeepsRequest (pageSize fileSize off len : Nat) (span : Nat × Nat) : Prop where
  covers : ∀ b, off ≤ b → b < off + len → b < fileSize → span.1 ≤ b ∧ b < span.2
  rounded : span = (off, off + len) ∨
    pageSize ∣ span.1 ∧ (pageSize ∣ span.2 ∨ span.2 = fileSize) ∧ span.2 ≤ fileSize

theorem roundSpan64_keeps {pageSize off len : Nat} (fileSize : Nat)
    (hfit : off + len + pageSize < 2 ^ 64) :
    KeepsRequest pageSize fileSize off len (roundSpan64 pageSize fileSize off len) := by
  rw [roundSpan64_eq fileSize hfit]
  constructor
  · intro b hfrom hto hfile
    obtain ⟨hstart, -, hstop⟩ := roundSpan_spec pageSize fileSize off len
    omega
  · unfold roundSpan
    simp only
    split
    · exact .inl rfl
    · refine .inr ⟨Nat.dvd_mul_left _ _, ?_, Nat.min_le_right _ _⟩
      rcases Nat.le_total ((off + len + pageSize - 1) / pageSize * pageSize) fileSize with h | h
      · rw [Nat.min_eq_left h]
        exact .inl (Nat.dvd_mul_left _ _)
      · exact .inr (Nat.min_eq_right h)

/-- For every page size up to 1 MiB, as those from 4 KiB on are: rounding keeps what a request has in the file, and the
loop over the cuts of a run ends, with pieces that are the run. -/
theorem request_rounded_and_cut {k : Nat} (hhigh : k ≤ 20) :
    (∀ fileSize off len, off + len + 2 ^ k < 2 ^ 64 →
      KeepsRequest (2 ^ k) fileSize off len (roundSpan64 (2 ^ k) fileSize off len)) ∧
    ∀ start stop, start < stop → stop < 2 ^ 64 → ∃ turns wire,
      loopFor (CutLoop.more stop) (CutLoop.turn (2 ^ k) stop) turns { pos := start } =
        some { pos := stop, wire } ∧ CutInto (2 ^ k) start stop wire := by
  have hpos : 0 < 2 ^ k := Nat.two_pow_pos k
  have hpage : 2 ^ k ≤ kMaxReadvElem := by
    have hmax : 2 ^ k ≤ 2 ^ 20 := Nat.pow_le_pow_right (by decide) hhigh
    unfold kMaxReadvElem
    omega
  refine ⟨fun fileSize off len hfit => roundSpan64_keeps fileSize hfit, ?_⟩
  intro start stop hlt hstop
  refine ⟨stop - start + 1, cutRun (2 ^ k) (stop - start) start stop, ?_,
    cutRun_cutInto hpos hpage hlt.le⟩
  have hends := cutLoop_ends hpos hpage hlt.le hstop (Nat.le_refl _) []
  rwa [List.nil_append] at hends

/-- Pages of a MiB, a request of five MiB from byte 5 on. -/
theorem five_mib_rounded_and_cut :
    KeepsRequest (2 ^ 20) (2 ^ 30) 5 (5 * 2 ^ 20) (roundSpan64 (2 ^ 20) (2 ^ 30) 5 (5 * 2 ^ 20)) ∧
      ∃ turns wire,
        loopFor (CutLoop.more (5 + 5 * 2 ^ 20)) (CutLoop.turn (2 ^ 20) (5 + 5 * 2 ^ 20)) turns
            { pos := 5 } = some { pos := 5 + 5 * 2 ^ 20, wire } ∧
          CutInto (2 ^ 20) 5 (5 + 5 * 2 ^ 20) wire :=
  have h := request_rounded_and_cut (k := 20) (by decide)
  ⟨h.1 _ _ _ (by decide), h.2 5 (5 + 5 * 2 ^ 20) (by decide) (by decide)⟩

end UCache
