/-
Module: UCache.Core.SlotOffsets
Purpose: The scan of a slot store with its offsets as the code computes them, modulo 2^64, on files
  of any content: when it ends, moves forward, stays inside the file and returns entries that do.
Trusted boundary: none
Main exports: turn, readBlocks, readBlocks_endsWell_iff
-/
import UCache.Core.SlotStore
import UCache.Lib.Loop

namespace UCache.SlotOffsets

open Lib SlotStore

/-! ### The loop -/

/-- [SRC SlotStore.cc:35] In 64 bits. -/
def alignUp64 (v : Nat) : Nat := add64 v (kAlign - 1) / kAlign * kAlign

/-- [SRC SlotStore.cc:367-369] Entry `i` of a table, its sums in 64 bits. -/
def entryAt64 (ents : Bytes) (pos blockLen i : Nat) : Option SlotEntry :=
  (decodeEntry (slice ents (i * kEntry) kEntry)).filter fun e =>
    decide (e.kind = .kept) ||
      (decide (pos ≤ e.off) && decide (add64 e.off e.len ≤ add64 pos blockLen))

/-- [SRC SlotStore.cc:358-371] The entries of a block; nothing when the table cannot be read or
fails its CRC. -/
def blockEntries64 (f : DataFile) (pos : Nat) (h : BlockHeader) : Option (List SlotEntry) :=
  let ents := f.read (add64 pos kBlockHeader) (h.n * kEntry)
  if h.n ≠ 0 ∧ (ents.length ≠ h.n * kEntry ∨ (crc32c ents).toNat ≠ h.entsCrc) then none
  else some ((List.range h.n).filterMap (entryAt64 ents pos h.blockLen))

/-- [SRC SlotStore.cc:350-352] Not debris: the block holds its table and ends in the file, as far as
64 bits tell. -/
def taken (f : DataFile) (pos : Nat) (h : BlockHeader) : Bool :=
  decide (kBlockHeader + h.n * kEntry ≤ h.blockLen) && decide (add64 pos h.blockLen ≤ f.size)

/-- One turn of the loop, and the reads it makes: where and how much. -/
def turnReads (f : DataFile) (storeId : UInt64) (s : Scan) : Scan × List (Nat × Nat) :=
  let head := (s.pos, kBlockHeader)
  match readHeader f storeId s.pos with
  | none => ({ s with pos := add64 s.pos kAlign }, [head])
  | some h =>
      let claimedEnd :=
        if kBlockHeader ≤ h.blockLen ∧ h.blockLen < 2 ^ 40 then
          max s.claimedEnd (add64 s.pos h.blockLen)
        else s.claimedEnd
      if taken f s.pos h then
        let reads :=
          if h.n = 0 then [head] else [head, (add64 s.pos kBlockHeader, h.n * kEntry)]
        match blockEntries64 f s.pos h with
        | none => ({ s with claimedEnd := claimedEnd, pos := add64 s.pos kAlign }, reads)
        | some es =>
            ({ claimedEnd := claimedEnd
               pos := alignUp64 (add64 s.pos h.blockLen)
               out := s.out ++ es }, reads)
      else ({ s with claimedEnd := claimedEnd, pos := add64 s.pos kAlign }, [head])

/-- One turn of the loop of `readBlocks`. -/
def turn (f : DataFile) (storeId : UInt64) (s : Scan) : Scan := (turnReads f storeId s).1

def reads (f : DataFile) (storeId : UInt64) (s : Scan) : List (Nat × Nat) :=
  (turnReads f storeId s).2

/-- [SRC SlotStore.cc:341] -/
def goesOn (f : DataFile) (s : Scan) : Bool := decide (add64 s.pos kBlockHeader ≤ f.size)

/-- [SRC SlotStore.cc:337-375] The loop from `readOff` on, for at most `n` tests of its guard, and
what it leaves in the store. -/
def readBlocks (f : DataFile) (storeId : UInt64) (n : Nat) (st : SlotStore) :
    Option (SlotStore × List SlotEntry) :=
  (loopFor (goesOn f) (turn f storeId) n { pos := st.readOff, claimedEnd := st.claimedEnd }).map
    fun s => ({ readOff := max st.readOff s.pos, claimedEnd := s.claimedEnd }, s.out)

/-! ### What is asked of it -/

/-- The record of `e` lies in a block that starts at `pos`, and in the file. -/
def InBlock (f : DataFile) (storeId : UInt64) (e : SlotEntry) : Prop :=
  ∃ pos h, readHeader f storeId pos = some h ∧ pos ≤ e.off ∧
    e.off + e.len ≤ pos + h.blockLen ∧ e.off + e.len ≤ f.size

/-- The loop ends, its offset never goes back, and what it reads and what it returns are inside the
file, over the integers.  An entry of a slot whose original is kept has no record. -/
structure EndsWell (f : DataFile) (storeId : UInt64) (st : SlotStore) : Prop where
  ends : ∃ n r, readBlocks f storeId n st = some r
  forward : ∀ k, Running (goesOn f) (turn f storeId) ⟨st.readOff, st.claimedEnd, []⟩ k →
    ((turn f storeId)^[k] ⟨st.readOff, st.claimedEnd, []⟩).pos ≤
      ((turn f storeId)^[k + 1] ⟨st.readOff, st.claimedEnd, []⟩).pos
  inside : ∀ k, Running (goesOn f) (turn f storeId) ⟨st.readOff, st.claimedEnd, []⟩ k →
    ∀ x ∈ reads f storeId ((turn f storeId)^[k] ⟨st.readOff, st.claimedEnd, []⟩),
      x.1 + x.2 ≤ f.size
  returned : ∀ n r, readBlocks f storeId n st = some r →
    ∀ e ∈ r.2, e.kind ≠ .kept → InBlock f storeId e

/-- What is needed at `pos` for one turn there to be as it should: its header ends below 2^64; the
table of what is taken for a block is in the file; and where that table is read, the end of the
block is below 2^64, or rounds up past `pos` again, and the end of every entry is below 2^64. -/
structure Sound (f : DataFile) (storeId : UInt64) (pos : Nat) : Prop where
  header : pos + kBlockHeader < 2 ^ 64
  table : ∀ h, readHeader f storeId pos = some h → taken f pos h = true →
    pos + kBlockHeader + h.n * kEntry ≤ f.size
  stop : ∀ h es, readHeader f storeId pos = some h → taken f pos h = true →
    blockEntries64 f pos h = some es →
      pos + h.blockLen < 2 ^ 64 ∨ pos < alignUp (pos + h.blockLen - 2 ^ 64)
  entries : ∀ h es, readHeader f storeId pos = some h → taken f pos h = true →
    blockEntries64 f pos h = some es → ∀ e ∈ es, e.kind ≠ .kept → e.off + e.len < 2 ^ 64

/-! ### One turn -/

variable {h : BlockHeader} {es : List SlotEntry}

section Turn

variable {f : DataFile} {storeId : UInt64} {s : Scan}

/-- A turn that takes a block. -/
theorem turn_block (hhead : readHeader f storeId s.pos = some h) (htaken : taken f s.pos h = true)
    (hes : blockEntries64 f s.pos h = some es) :
    (turn f storeId s).pos = alignUp64 (add64 s.pos h.blockLen) ∧
      (turn f storeId s).out = s.out ++ es := by
  simp only [turn, turnReads, hhead, htaken, if_true, hes, and_self]

/-- Any other turn goes on at the next boundary. -/
theorem turn_cases (f : DataFile) (storeId : UInt64) (s : Scan) :
    ((turn f storeId s).pos = add64 s.pos kAlign ∧ (turn f storeId s).out = s.out) ∨
      ∃ h es, readHeader f storeId s.pos = some h ∧ taken f s.pos h = true ∧
        blockEntries64 f s.pos h = some es := by
  cases hhead : readHeader f storeId s.pos with
  | none => exact .inl (by simp only [turn, turnReads, hhead, and_self])
  | some h =>
      by_cases htaken : taken f s.pos h = true
      · cases hes : blockEntries64 f s.pos h with
        | none => exact .inl (by simp only [turn, turnReads, hhead, htaken, if_true, hes, and_self])
        | some es => exact .inr ⟨h, es, rfl, htaken, hes⟩
      · exact .inl (by simp only [turn, turnReads, hhead, htaken, Bool.false_eq_true, if_false,
          and_self])

/-- A turn reads a header, and the table of a block that it takes for one. -/
theorem mem_reads {x : Nat × Nat} : x ∈ reads f storeId s ↔
    x = (s.pos, kBlockHeader) ∨ ∃ h, readHeader f storeId s.pos = some h ∧
      taken f s.pos h = true ∧ h.n ≠ 0 ∧ x = (add64 s.pos kBlockHeader, h.n * kEntry) := by
  cases hhead : readHeader f storeId s.pos with
  | none => simp [reads, turnReads, hhead]
  | some h =>
      by_cases htaken : taken f s.pos h = true
      · have hreads : reads f storeId s =
            if h.n = 0 then [(s.pos, kBlockHeader)]
            else [(s.pos, kBlockHeader), (add64 s.pos kBlockHeader, h.n * kEntry)] := by
          cases hes : blockEntries64 f s.pos h <;>
            simp only [reads, turnReads, hhead, htaken, if_true, hes]
        by_cases hn : h.n = 0 <;> simp [hreads, hn, htaken]
      · simp [reads, turnReads, hhead, htaken]

/-- The guard and the next offset look at the offset only. -/
theorem goesOn_congr {a b : Scan} (h : a.pos = b.pos) : goesOn f a = goesOn f b := by
  rw [goesOn, goesOn, h]

theorem turn_congr {a b : Scan} (h : a.pos = b.pos) :
    (turn f storeId a).pos = (turn f storeId b).pos := by
  rcases turn_cases f storeId a with ⟨ha, -⟩ | ⟨ha, ea, hhead, htaken, hes⟩
  · rcases turn_cases f storeId b with ⟨hb, -⟩ | ⟨hb, eb, hhead, htaken, hes⟩
    · rw [ha, hb, h]
    · rw [← h] at hhead htaken hes
      rw [(turn_block hhead htaken hes).1, (turn_block (h ▸ hhead) (h ▸ htaken) (h ▸ hes)).1, h]
  · rw [(turn_block hhead htaken hes).1, (turn_block (h ▸ hhead) (h ▸ htaken) (h ▸ hes)).1, h]

theorem le_alignUp (v : Nat) : v ≤ alignUp v := by
  unfold alignUp kAlign
  omega

theorem alignUp64_eq {v : Nat} (h : v < 2 ^ 64 - kAlign) : alignUp64 v = alignUp v := by
  rw [alignUp64, alignUp, add64, Nat.mod_eq_of_lt]
  · simp only [kAlign]
    omega
  · simp only [kAlign] at *
    omega

theorem blockLen_lt {pos : Nat} (hhead : readHeader f storeId pos = some h) :
    h.blockLen < 2 ^ 64 := by
  simp only [readHeader] at hhead
  split at hhead
  · cases hhead
    have hlen : (slice (f.read pos kBlockHeader) 16 8).length ≤ 8 := by
      rw [length_slice]
      exact Nat.min_le_left _ _
    exact Nat.lt_of_lt_of_le (ofLe_lt _) (Nat.pow_le_pow_right (by decide) hlen)
  · cases hhead

theorem taken_iff {pos : Nat} : taken f pos h = true ↔
    kBlockHeader + h.n * kEntry ≤ h.blockLen ∧ add64 pos h.blockLen ≤ f.size := by
  simp only [taken, Bool.and_eq_true, decide_eq_true_eq]

/-- Where nothing wraps, a turn moves on. -/
theorem lt_turn (hsize : f.size ≤ 2 ^ 63) (hgoes : goesOn f s = true)
    (hsound : Sound f storeId s.pos) : s.pos < (turn f storeId s).pos := by
  have hheader := hsound.header
  simp only [goesOn, decide_eq_true_eq] at hgoes
  rw [add64, Nat.mod_eq_of_lt hheader] at hgoes
  rcases turn_cases f storeId s with ⟨hpos, -⟩ | ⟨h, es, hhead, htaken, hes⟩
  · rw [hpos]
    simp only [add64, kAlign, kBlockHeader] at *
    omega
  · obtain ⟨htable, hend⟩ := taken_iff.1 htaken
    have hlen := blockLen_lt hhead
    have hwide : add64 s.pos h.blockLen < 2 ^ 64 - kAlign := by
      simp only [kAlign]
      omega
    rw [(turn_block hhead htaken hes).1, alignUp64_eq hwide]
    rcases hsound.stop h es hhead htaken hes with hfits | hpast
    · have hle := le_alignUp (s.pos + h.blockLen)
      rw [add64, Nat.mod_eq_of_lt hfits]
      simp only [kBlockHeader] at htable
      omega
    · by_cases hfits : s.pos + h.blockLen < 2 ^ 64
      · have hle := le_alignUp (s.pos + h.blockLen)
        rw [add64, Nat.mod_eq_of_lt hfits]
        simp only [kBlockHeader] at htable
        omega
      · have hmod : add64 s.pos h.blockLen = s.pos + h.blockLen - 2 ^ 64 := by
          simp only [add64, kBlockHeader] at *
          omega
        rwa [hmod]

end Turn

/-! ### The whole loop -/

section Scanned

variable {f : DataFile} {storeId : UInt64} {s : Scan}

/-- What an entry that a turn keeps was checked for. -/
theorem mem_blockEntries {pos : Nat} {e : SlotEntry} (hes : blockEntries64 f pos h = some es)
    (he : e ∈ es) : e.kind = .kept ∨ (pos ≤ e.off ∧ add64 e.off e.len ≤ add64 pos h.blockLen) := by
  simp only [blockEntries64] at hes
  split at hes
  · cases hes
  · cases hes
    obtain ⟨i, -, hi⟩ := List.mem_filterMap.1 he
    rw [entryAt64, Option.filter_eq_some_iff] at hi
    simpa only [Bool.or_eq_true, Bool.and_eq_true, decide_eq_true_eq] using hi.2

/-- Where nothing wraps, a record that a turn returns is in its block and in the file. -/
theorem inBlock_of_sound {pos : Nat} (hsound : Sound f storeId pos) {e : SlotEntry}
    (hhead : readHeader f storeId pos = some h) (htaken : taken f pos h = true)
    (hes : blockEntries64 f pos h = some es) (he : e ∈ es) (hkept : e.kind ≠ .kept) :
    InBlock f storeId e := by
  have hfits := hsound.entries h es hhead htaken hes e he hkept
  obtain ⟨hoff, hend⟩ := (mem_blockEntries hes he).resolve_left hkept
  obtain ⟨-, hin⟩ := taken_iff.1 htaken
  rw [add64, Nat.mod_eq_of_lt hfits] at hend
  have hwrap : add64 pos h.blockLen ≤ pos + h.blockLen := Nat.mod_le _ _
  exact ⟨pos, h, hhead, hoff, by omega, by omega⟩

/-- A turn only adds to what was found. -/
theorem found_grows (f : DataFile) (storeId : UInt64) (s : Scan) :
    s.out <+: (turn f storeId s).out := by
  rcases turn_cases f storeId s with ⟨-, hout⟩ | ⟨h, es, hhead, htaken, hes⟩
  · rw [hout]
  · rw [(turn_block hhead htaken hes).2]
    exact List.prefix_append _ _

theorem found_grows_iterate (f : DataFile) (storeId : UInt64) (s : Scan) {j k : Nat} (h : j ≤ k) :
    ((turn f storeId)^[j] s).out <+: ((turn f storeId)^[k] s).out := by
  induction k, h using Nat.le_induction with
  | base => exact List.prefix_refl _
  | succ k _ ih =>
      rw [Function.iterate_succ_apply']
      exact ih.trans (found_grows f storeId _)

/-- What was found was found by some turn. -/
theorem found_by_turn {k : Nat} {e : SlotEntry} (he : e ∈ ((turn f storeId)^[k] s).out) :
    e ∈ s.out ∨ ∃ j < k, ∃ h es, readHeader f storeId ((turn f storeId)^[j] s).pos = some h ∧
      taken f ((turn f storeId)^[j] s).pos h = true ∧
        blockEntries64 f ((turn f storeId)^[j] s).pos h = some es ∧ e ∈ es := by
  induction k with
  | zero => exact .inl he
  | succ k ih =>
      by_cases hold : e ∈ ((turn f storeId)^[k] s).out
      · rcases ih hold with hin | ⟨j, hj, hfound⟩
        · exact .inl hin
        · exact .inr ⟨j, by omega, hfound⟩
      · rw [Function.iterate_succ_apply'] at he
        rcases turn_cases f storeId ((turn f storeId)^[k] s) with
          ⟨-, hout⟩ | ⟨h, es, hhead, htaken, hes⟩
        · exact absurd (hout ▸ he) hold
        · rw [(turn_block hhead htaken hes).2, List.mem_append] at he
          exact .inr ⟨k, by omega, h, es, hhead, htaken, hes, he.resolve_left hold⟩

theorem readBlocks_eq_some {n : Nat} {st : SlotStore} {r : SlotStore × List SlotEntry}
    (h : readBlocks f storeId n st = some r) :
    ∃ k < n, (∀ j < k, goesOn f ((turn f storeId)^[j] ⟨st.readOff, st.claimedEnd, []⟩) = true) ∧
      goesOn f ((turn f storeId)^[k] ⟨st.readOff, st.claimedEnd, []⟩) = false ∧
        r.2 = ((turn f storeId)^[k] ⟨st.readOff, st.claimedEnd, []⟩).out := by
  obtain ⟨s, hs, rfl⟩ := Option.map_eq_some_iff.1 h
  obtain ⟨k, hk, hrun, hstop, rfl⟩ := loopFor_eq_some_iff.1 hs
  exact ⟨k, hk, hrun, hstop, rfl⟩

end Scanned

/-- Every state the loop is in when its guard lets a turn happen is at a sound offset. -/
def SoundRun (f : DataFile) (storeId : UInt64) (st : SlotStore) : Prop :=
  ∀ k, Running (goesOn f) (turn f storeId) ⟨st.readOff, st.claimedEnd, []⟩ k →
    Sound f storeId ((turn f storeId)^[k] ⟨st.readOff, st.claimedEnd, []⟩).pos

section Whole

variable {f : DataFile} {storeId : UInt64} {st : SlotStore}

theorem soundRun_of_endsWell (hsize : f.size ≤ 2 ^ 63) (hwell : EndsWell f storeId st) :
    SoundRun f storeId st := by
  intro k hrun
  have hheader : ((turn f storeId)^[k] ⟨st.readOff, st.claimedEnd, []⟩).pos + kBlockHeader ≤
      f.size := hwell.inside k hrun _ (mem_reads.2 (.inl rfl))
  have hadd : add64 ((turn f storeId)^[k] ⟨st.readOff, st.claimedEnd, []⟩).pos kBlockHeader =
      ((turn f storeId)^[k] ⟨st.readOff, st.claimedEnd, []⟩).pos + kBlockHeader :=
    Nat.mod_eq_of_lt (by omega)
  refine ⟨by omega, ?_, ?_, ?_⟩
  · intro h hhead htaken
    by_cases hn : h.n = 0
    · simpa [hn] using hheader
    · have htable := hwell.inside k hrun _ (mem_reads.2 (.inr ⟨h, hhead, htaken, hn, rfl⟩))
      rwa [hadd] at htable
  · intro h es hhead htaken hes
    by_contra hwrong
    obtain ⟨hwrap, hpast⟩ := not_or.1 hwrong
    obtain ⟨n, r, hr⟩ := hwell.ends
    obtain ⟨s, hs, -⟩ := Option.map_eq_some_iff.1 hr
    have hlen := blockLen_lt hhead
    obtain ⟨-, hend⟩ := taken_iff.1 htaken
    have hmod : add64 ((turn f storeId)^[k] ⟨st.readOff, st.claimedEnd, []⟩).pos h.blockLen =
        ((turn f storeId)^[k] ⟨st.readOff, st.claimedEnd, []⟩).pos + h.blockLen - 2 ^ 64 := by
      simp only [add64, kBlockHeader] at *
      omega
    have hnext := (turn_block hhead htaken hes).1
    rw [alignUp64_eq (by simp only [kAlign]; omega), hmod] at hnext
    have hforward := hwell.forward k hrun
    rw [Function.iterate_succ_apply', hnext] at hforward
    -- The offset neither goes back nor on: it stays.
    refine loopFor_stuck Scan.pos (fun _ _ => goesOn_congr) (fun _ _ => turn_congr) hrun ?_ n s hs
    rw [Function.iterate_succ_apply', hnext]
    exact Nat.le_antisymm (Nat.not_lt.1 hpast) hforward
  · intro h es hhead htaken hes e he hkept
    obtain ⟨n, r, hr⟩ := hwell.ends
    obtain ⟨m, -, -, hstop, hout⟩ := readBlocks_eq_some hr
    have hkm : k + 1 ≤ m := by
      by_contra hle
      rw [hrun m (by omega)] at hstop
      cases hstop
    have hin : e ∈ ((turn f storeId)^[k + 1] ⟨st.readOff, st.claimedEnd, []⟩).out := by
      rw [Function.iterate_succ_apply', (turn_block hhead htaken hes).2]
      exact List.mem_append_right _ he
    obtain ⟨pos, b, -, -, -, hfile⟩ := hwell.returned n r hr e
      (hout ▸ (found_grows_iterate f storeId _ hkm).subset hin) hkept
    omega

theorem endsWell_of_soundRun (hsize : f.size ≤ 2 ^ 63) (hsound : SoundRun f storeId st) :
    EndsWell f storeId st := by
  have hraise : ∀ k, Running (goesOn f) (turn f storeId) ⟨st.readOff, st.claimedEnd, []⟩ k →
      ((turn f storeId)^[k] ⟨st.readOff, st.claimedEnd, []⟩).pos <
        ((turn f storeId)^[k + 1] ⟨st.readOff, st.claimedEnd, []⟩).pos := by
    intro k hrun
    rw [Function.iterate_succ_apply']
    exact lt_turn hsize (hrun k (Nat.le_refl k)) (hsound k hrun)
  have hheader : ∀ k, Running (goesOn f) (turn f storeId) ⟨st.readOff, st.claimedEnd, []⟩ k →
      ((turn f storeId)^[k] ⟨st.readOff, st.claimedEnd, []⟩).pos + kBlockHeader ≤ f.size := by
    intro k hrun
    have hgoes := hrun k (Nat.le_refl k)
    simp only [goesOn, decide_eq_true_eq] at hgoes
    rwa [add64, Nat.mod_eq_of_lt (hsound k hrun).header] at hgoes
  refine ⟨?_, fun k hrun => Nat.le_of_lt (hraise k hrun), ?_, ?_⟩
  · obtain ⟨n, r, hr⟩ := loopFor_ends Scan.pos f.size
      (fun k hrun => Nat.le_trans (Nat.le_add_right _ _) (hheader k hrun)) hraise
    exact ⟨n, _, Option.map_eq_some_iff.2 ⟨r, hr, rfl⟩⟩
  · intro k hrun x hx
    rcases mem_reads.1 hx with rfl | ⟨h, hhead, htaken, -, rfl⟩
    · exact hheader k hrun
    · have htable := (hsound k hrun).table h hhead htaken
      rwa [add64, Nat.mod_eq_of_lt (hsound k hrun).header]
  · intro n r hr e he hkept
    obtain ⟨k, -, hrun, -, hout⟩ := readBlocks_eq_some hr
    rw [hout] at he
    rcases found_by_turn he with hnil | ⟨j, hj, h, es, hhead, htaken, hes, hin⟩
    · exact absurd hnil List.not_mem_nil
    · have hrunning : Running (goesOn f) (turn f storeId) ⟨st.readOff, st.claimedEnd, []⟩ j :=
        fun i hi => hrun i (by omega)
      exact inBlock_of_sound (hsound j hrunning) hhead htaken hes hin hkept

end Whole

/-- **When the scan of a file is as it should be**: on a file of any content and size up to 2^63,
from any offset, the loop ends, never goes back, stays inside the file and returns records that do,
if and only if every offset it reaches is sound. -/
theorem readBlocks_endsWell_iff (f : DataFile) (storeId : UInt64) (st : SlotStore)
    (hsize : f.size ≤ 2 ^ 63) : EndsWell f storeId st ↔ SoundRun f storeId st :=
  ⟨soundRun_of_endsWell hsize, endsWell_of_soundRun hsize⟩

/-- A file with one block, which has no entry. -/
def oneBlock : DataFile :=
  { size := 8192
    byte := fun k => if 4096 ≤ k then (headerBytes 1 64 0 0).getD (k - 4096) 0 else 0 }

/-- A log of one empty block. -/
theorem oneBlock_endsWell : EndsWell oneBlock 1 { readOff := 4096 } := by
  apply (readBlocks_endsWell_iff oneBlock 1 { readOff := 4096 } (by decide)).2
  have hhead : (readHeader oneBlock 1 4096).map (fun h => (h.blockLen, h.n)) = some (64, 0) := by
    decide +kernel
  have hlast : goesOn oneBlock (turn oneBlock 1 ⟨4096, 0, []⟩) = false := by decide +kernel
  intro k hrun
  cases k with
  | succ k =>
      have hgoes := hrun 1 (by omega)
      rw [Function.iterate_one, hlast] at hgoes
      cases hgoes
  | zero =>
      have hfields : ∀ h, readHeader oneBlock 1 4096 = some h → h.blockLen = 64 ∧ h.n = 0 := by
        intro h hh
        rw [hh] at hhead
        simpa using hhead
      refine ⟨by decide, ?_, ?_, ?_⟩
      · intro h hh _
        rw [(hfields h hh).2]
        decide
      · intro h es hh _ _
        rw [(hfields h hh).1]
        decide
      · intro h es hh _ hes e he
        simp only [blockEntries64, (hfields h hh).2] at hes
        cases hes
        simp at he

/-- A file of 8256 bytes whose only block header, at 8192, claims 2^64-4096 bytes and no entry. -/
def backwards : DataFile :=
  { size := 8256
    byte := fun k => if 8192 ≤ k then (headerBytes 1 (2 ^ 64 - 4096) 0 0).getD (k - 8192) 0 else 0 }

/-- The block is taken, its end is 4096 in 64 bits, and the loop reads it again after the next
boundary. -/
theorem backwards_not_endsWell : ¬ EndsWell backwards 1 { readOff := 8192 } := by
  intro hwell
  have hrun : Running (goesOn backwards) (turn backwards 1) ⟨8192, 0, []⟩ 0 := by
    intro j hj
    obtain rfl := Nat.le_zero.1 hj
    decide
  have hnext : (turn backwards 1 ⟨8192, 0, []⟩).pos = 4096 := by decide +kernel
  have hforward := hwell.forward 0 hrun
  rw [Function.iterate_succ_apply', Function.iterate_zero_apply, hnext] at hforward
  exact absurd hforward (by decide)

/-! ### The scan over the integers -/

section Integers

variable {f : DataFile} {storeId : UInt64} {s : Scan}

/-- From a boundary, an end past 2^64 never rounds up to a later one. -/
theorem alignUp_le_of_wrap {pos : Nat} (hal : pos % kAlign = 0)
    (hhead : readHeader f storeId pos = some h) : alignUp (pos + h.blockLen - 2 ^ 64) ≤ pos := by
  have hlen := blockLen_lt hhead
  simp only [alignUp, kAlign] at *
  omega

/-- From a boundary, a sound block that is read with its table does not wrap. -/
theorem Sound.fits {pos : Nat} (hsound : Sound f storeId pos) (hal : pos % kAlign = 0)
    (hhead : readHeader f storeId pos = some h) (htaken : taken f pos h = true)
    (hes : blockEntries64 f pos h = some es) : pos + h.blockLen < 2 ^ 64 :=
  (hsound.stop h es hhead htaken hes).resolve_right (Nat.not_lt.2 (alignUp_le_of_wrap hal hhead))

/-- An entry that does not wrap is kept by both. -/
theorem entryAt_eq {ents : Bytes} {pos blockLen i : Nat} (hfits : pos + blockLen < 2 ^ 64)
    (hall : ∀ e, entryAt64 ents pos blockLen i = some e → e.kind ≠ .kept →
      e.off + e.len < 2 ^ 64) :
    entryAt64 ents pos blockLen i = entryAt ents pos blockLen i := by
  have hend : add64 pos blockLen = pos + blockLen := Nat.mod_eq_of_lt hfits
  simp only [entryAt64, entryAt, hend] at hall ⊢
  cases hdec : decodeEntry (slice ents (i * kEntry) kEntry) with
  | none => rfl
  | some e =>
      by_cases hkept : e.kind = .kept
      · rw [Option.filter_some_pos (by simp [hkept]), Option.filter_some_pos (by simp [hkept])]
      · by_cases hwrap : e.off + e.len < 2 ^ 64
        · simp only [Option.filter_some, add64, Nat.mod_eq_of_lt hwrap]
        · -- the one would be kept for its wrapped end, the other ends past the block
          have hout : (decide (e.kind = .kept) || (decide (pos ≤ e.off) &&
              decide (add64 e.off e.len ≤ pos + blockLen))) = false := by
            by_contra hkeep
            rw [Bool.not_eq_false] at hkeep
            have hsome := hall e (by rw [hdec]; simp only [Option.filter_some, hkeep, if_true])
            exact hwrap (hsome hkept)
          have hpast : (decide (e.kind = .kept) || (decide (pos ≤ e.off) &&
              decide (e.off + e.len ≤ pos + blockLen))) = false := by
            have hlate : ¬ e.off + e.len ≤ pos + blockLen := by omega
            simp [hkept, hlate]
          simp only [Option.filter_some, hout, hpast]

/-- The table of a sound block has the entries it has over the integers. -/
theorem blockEntries_of_sound {pos : Nat} (hsound : Sound f storeId pos) (hal : pos % kAlign = 0)
    (hhead : readHeader f storeId pos = some h) (htaken : taken f pos h = true)
    (hes : blockEntries64 f pos h = some es) : blockEntries f pos h = some es := by
  have hfits := hsound.fits hal hhead htaken hes
  have hentries := hsound.entries h es hhead htaken hes
  have hoff : add64 pos kBlockHeader = pos + kBlockHeader := Nat.mod_eq_of_lt hsound.header
  have hend : add64 pos h.blockLen = pos + h.blockLen := Nat.mod_eq_of_lt hfits
  simp only [blockEntries64, blockEntries, hoff] at hes ⊢
  split at hes
  · cases hes
  · rename_i hok
    rw [if_neg hok, ← hes]
    congr 1
    cases hes
    apply List.filterMap_congr
    intro i hi
    exact (entryAt_eq hfits fun e he => hentries e (List.mem_filterMap.2 ⟨i, hi, he⟩)).symm

/-- A turn at a sound boundary is the turn of the scan over the integers. -/
theorem turn_eq_scanStep (hsize : f.size ≤ 2 ^ 63) (hgoes : goesOn f s = true)
    (hsound : Sound f storeId s.pos) (hal : s.pos % kAlign = 0) :
    turn f storeId s = scanStep f storeId f.size s := by
  have hheader := hsound.header
  have hoff : s.pos + kBlockHeader ≤ f.size := by
    simp only [goesOn, decide_eq_true_eq] at hgoes
    rwa [add64, Nat.mod_eq_of_lt hheader] at hgoes
  have hstep : add64 s.pos kAlign = s.pos + kAlign := by
    apply Nat.mod_eq_of_lt
    simp only [kAlign]
    omega
  simp only [turn, turnReads, scanStep]
  cases hhead : readHeader f storeId s.pos with
  | none => simp only [hstep]
  | some h =>
      have hlen := blockLen_lt hhead
      have hclaim : (if kBlockHeader ≤ h.blockLen ∧ h.blockLen < 2 ^ 40 then
            max s.claimedEnd (add64 s.pos h.blockLen) else s.claimedEnd) =
          if kBlockHeader ≤ h.blockLen ∧ h.blockLen < 2 ^ 40 then
            max s.claimedEnd (s.pos + h.blockLen) else s.claimedEnd := by
        by_cases hsmall : kBlockHeader ≤ h.blockLen ∧ h.blockLen < 2 ^ 40
        · rw [if_pos hsmall, if_pos hsmall, add64, Nat.mod_eq_of_lt (by omega)]
        · rw [if_neg hsmall, if_neg hsmall]
      simp only [hclaim, hstep]
      by_cases htaken : taken f s.pos h = true
      · obtain ⟨htable, hend⟩ := taken_iff.1 htaken
        rw [if_pos htaken]
        cases hes : blockEntries64 f s.pos h with
        | some es =>
            have hfits := hsound.fits hal hhead htaken hes
            have hadd : add64 s.pos h.blockLen = s.pos + h.blockLen := Nat.mod_eq_of_lt hfits
            have hwide : s.pos + h.blockLen < 2 ^ 64 - kAlign := by
              simp only [kAlign]
              omega
            have hwhole : ¬ (h.blockLen < kBlockHeader + h.n * kEntry ∨
                f.size < s.pos + h.blockLen) := by omega
            rw [if_neg hwhole, blockEntries_of_sound hsound hal hhead htaken hes]
            simp only [hadd, alignUp64_eq hwide]
        | none =>
            have hnone : blockEntries f s.pos h = none := by
              have hread : add64 s.pos kBlockHeader = s.pos + kBlockHeader :=
                Nat.mod_eq_of_lt hheader
              simp only [blockEntries64, blockEntries, hread] at hes ⊢
              split at hes
              · rename_i hbad
                rw [if_pos hbad]
              · cases hes
            simp only [hnone, ite_self]
      · have hcut : h.blockLen < kBlockHeader + h.n * kEntry ∨ f.size < s.pos + h.blockLen := by
          rw [taken_iff, not_and_or] at htaken
          have hwrap : add64 s.pos h.blockLen ≤ s.pos + h.blockLen := Nat.mod_le _ _
          omega
        rw [if_neg htaken, if_pos hcut]

theorem turn_aligned (hal : s.pos % kAlign = 0) : (turn f storeId s).pos % kAlign = 0 := by
  rcases turn_cases f storeId s with ⟨hpos, -⟩ | ⟨h, es, hhead, htaken, hes⟩
  · rw [hpos, add64]
    simp only [kAlign] at *
    omega
  · rw [(turn_block hhead htaken hes).1, alignUp64, Nat.mul_mod_left]

/-- The scan over the integers stops where the loop does. -/
theorem scan_eq_iterate (k : Nat) (hsize : f.size ≤ 2 ^ 63) (hal : s.pos % kAlign = 0)
    (hrun : ∀ j < k, goesOn f ((turn f storeId)^[j] s) = true)
    (hsound : ∀ j < k, Sound f storeId ((turn f storeId)^[j] s).pos)
    (hstop : goesOn f ((turn f storeId)^[k] s) = false) {fuel : Nat} (hfuel : k ≤ fuel) :
    scan f storeId f.size fuel s = (turn f storeId)^[k] s := by
  induction k generalizing s fuel with
  | zero =>
      have hover : ¬ s.pos + kBlockHeader ≤ f.size := fun hle => by
        have hwide : add64 s.pos kBlockHeader = s.pos + kBlockHeader := Nat.mod_eq_of_lt (by omega)
        rw [Function.iterate_zero_apply, goesOn, hwide, decide_eq_false_iff_not] at hstop
        exact hstop hle
      cases fuel with
      | zero => rfl
      | succ fuel => rw [scan, if_neg hover, Function.iterate_zero_apply]
  | succ k ih =>
      obtain ⟨fuel, rfl⟩ : ∃ i, fuel = i + 1 := ⟨fuel - 1, by omega⟩
      have hgoes := hrun 0 (by omega)
      have hfirst := hsound 0 (by omega)
      rw [Function.iterate_zero_apply] at hgoes hfirst
      have hin : s.pos + kBlockHeader ≤ f.size := by
        simp only [goesOn, decide_eq_true_eq] at hgoes
        rwa [add64, Nat.mod_eq_of_lt hfirst.header] at hgoes
      rw [scan, if_pos hin, ← turn_eq_scanStep hsize hgoes hfirst hal, Function.iterate_succ_apply]
      refine ih (turn_aligned hal) (fun j hj => ?_) (fun j hj => ?_) ?_ (by omega)
      · rw [← Function.iterate_succ_apply]
        exact hrun (j + 1) (by omega)
      · rw [← Function.iterate_succ_apply]
        exact hsound (j + 1) (by omega)
      · rwa [← Function.iterate_succ_apply]

/-- From a boundary, as every store remembers one, a sound scan gives what the scan over the
integers gives. -/
theorem readBlocks_refines (hsize : f.size ≤ 2 ^ 63) {st : SlotStore}
    (hal : st.readOff % kAlign = 0) (hsound : SoundRun f storeId st) :
    ∃ n, readBlocks f storeId n st = some (st.readBlocks f storeId f.size) := by
  have hwell := endsWell_of_soundRun hsize hsound
  obtain ⟨n, r, hr⟩ := hwell.ends
  obtain ⟨s, hs, rfl⟩ := Option.map_eq_some_iff.1 hr
  obtain ⟨k, -, hrun, hstop, rfl⟩ := loopFor_eq_some_iff.1 hs
  have hrunning : ∀ j < k,
      Running (goesOn f) (turn f storeId) ⟨st.readOff, st.claimedEnd, []⟩ j :=
    fun j hj i hi => hrun i (by omega)
  -- each of the turns before the last moves on inside the file
  have hshort : ∀ j ≤ k, st.readOff + j ≤
      ((turn f storeId)^[j] ⟨st.readOff, st.claimedEnd, []⟩).pos := by
    intro j
    induction j with
    | zero => exact fun _ => Nat.le_refl _
    | succ j ih =>
        intro hj
        have hlt := lt_turn hsize (hrun j (by omega)) (hsound j (hrunning j (by omega)))
        rw [Function.iterate_succ_apply']
        have hle := ih (by omega)
        omega
  have hfuel : k ≤ f.size := by
    cases k with
    | zero => omega
    | succ k =>
        have hin := hwell.inside k (hrunning k (by omega)) _ (mem_reads.2 (.inl rfl))
        have hle := hshort k (by omega)
        simp only [kBlockHeader] at hin
        omega
  refine ⟨n, ?_⟩
  have hscan := scan_eq_iterate k hsize hal hrun (fun j hj => hsound j (hrunning j hj)) hstop hfuel
  rw [hr, SlotStore.readBlocks, hscan]

end Integers

end UCache.SlotOffsets
