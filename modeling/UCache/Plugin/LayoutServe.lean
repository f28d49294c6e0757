/-
Module: UCache.Plugin.LayoutServe
Purpose: Serving a layout that was read back from a store: the walk over a chunk and the lookup of
  origin ranges, with their machine arithmetic and their accesses, and when both are safe.
Trusted boundary: none
Main exports: serveTurn, serveLoop, decoded_layout_safe
-/
import UCache.Lib.Search
import UCache.Plugin.LayoutBlob
import UCache.Plugin.VirtualImage

namespace UCache

open Lib

/-! ### 64-bit arithmetic -/

def Window.end64 (w : Window) : Nat := add64 w.off w.bytes.length

def FillSlot.end64 (s : FillSlot) : Nat := add64 s.vSeek s.vLen

def FillLayout.metaEnd64 (L : FillLayout) : Nat := add64 L.metaSeek L.metaRecord.length

/-! ### The walk over a chunk -/

/-- `std::upper_bound` over the slots: a binary search, whether or not they are in order. -/
def FillLayout.upperBound (L : FillLayout) (v : Nat) : Nat :=
  search (fun s => decide (s.vSeek ≤ v)) L.slots

/-- [SRC ColdRun.cc:1442-1455] The loop over the windows: one that covers `pos`, else where the
next one starts. -/
def windowScan64 (pos : Nat) : List Window → Nat → Option Window × Nat
  | [], next => (none, next)
  | w :: ws, next =>
      if w.off ≤ pos ∧ pos < w.end64 then (some w, next)
      else windowScan64 pos ws (if pos < w.off then min next w.off else next)

/-- `n` bytes copied out of `b` from `start` on; nothing when that leaves `b`. -/
def copyOut (b : Bytes) (start n : Nat) : Option Source :=
  if start + n ≤ b.length then some (.written (slice b start n)) else none

/-- [SRC ColdRun.cc:1438-1490] One turn of the loop of `classify`: where the bytes from `pos` on
are, and how many of them.  `none` is an access outside of what is accessed. -/
def serveTurn (L : FillLayout) (pos stop : Nat) : Option (Source × Nat) :=
  if pos < L.originSize then
    let segEnd := min stop L.originSize
    match windowScan64 pos L.windows segEnd with
    | (some w, _) =>
        let n := sub64 (min segEnd w.end64) pos
        (copyOut w.bytes (sub64 pos w.off) n).map fun src => (src, n)
    | (none, next) => some (.orig pos, sub64 next pos)
  else if pos < L.metaSeek then
    let n := sub64 (min stop L.metaSeek) pos
    some (.written (List.replicate n 0), n)
  else if pos < L.metaEnd64 then
    let n := sub64 (min stop L.metaEnd64) pos
    (copyOut L.metaRecord (sub64 pos L.metaSeek) n).map fun src => (src, n)
  else if pos < L.slotsBegin then
    let n := sub64 (min stop L.slotsBegin) pos
    some (.written (List.replicate n 0), n)
  else
    -- The index is cut to 32 bits: before the first slot it is the largest of them.
    let i := (L.upperBound pos + 2 ^ 32 - 1) % 2 ^ 32
    match L.slots[i]? with
    | none => none
    | some s => some (.slot i (sub64 pos s.vSeek), sub64 (min stop s.end64) pos)

/-- A piece of a chunk. -/
structure Cut where
  pos : Nat
  len : Nat
  source : Source
deriving DecidableEq, Repr

/-- [SRC ColdRun.cc:1437-1491] The walk over a chunk, in so many turns at most: the pieces it
makes, or nothing when it leaves what it accesses or has not ended. -/
def serveLoop (L : FillLayout) (stop : Nat) : Nat → Nat → Option (List Cut)
  | 0, pos => if pos < stop then none else some []
  | fuel + 1, pos =>
      if pos < stop then
        match serveTurn L pos stop with
        | none => none
        | some (source, n) =>
            (serveLoop L stop fuel (add64 pos n)).map fun rest =>
              { pos := pos, len := n, source := source } :: rest
      else some []

/-- Pieces that follow one another from `a` to `b`, none of them empty. -/
def CutsFrom : Nat → List Cut → Nat → Prop
  | a, [], b => a = b
  | a, c :: rest, b => c.pos = a ∧ 0 < c.len ∧ CutsFrom (a + c.len) rest b

/-! ### The origin ranges of a read -/

/-- [SRC ColdRun.cc:2209-2225] The ranges of the origin that a read of the virtual file stands for.
`none` is a look before the first slot. -/
def coldOriginRanges (cf : ColdLayout) (off len : Nat) : Option (List (Nat × Nat)) :=
  let L := cf.L
  let stop := add64 off len
  let own := if off < L.originSize then [(off, sub64 (min stop L.originSize) off)] else []
  let recs := if off < L.metaEnd64 ∧ L.metaSeek < stop then cf.metaOrigin else []
  if L.slotsBegin < stop ∧ L.slots ≠ [] then
    match L.upperBound (max off L.slotsBegin) with
    | 0 => none
    | i + 1 =>
        let found := (L.slots.drop i).takeWhile fun s => decide (s.vSeek < stop)
        some (own ++ recs ++ found.map fun s => (s.origSeek, s.origLen))
  else some (own ++ recs)

/-! ### Safe to serve -/

/-- A chunk inside the virtual file. -/
def FillLayout.Holds (L : FillLayout) (off len : Nat) : Prop :=
  off < L.virtualSize ∧ off + len ≤ L.virtualSize

/-- The walk ends, stays inside what it accesses, and its pieces make up the chunk. -/
def WalkSafe (L : FillLayout) (off len : Nat) : Prop :=
  ∃ fuel cuts, serveLoop L (off + len) fuel off = some cuts ∧ CutsFrom off cuts (off + len)

/-- The lookup stays inside the slots, and what it returns inside the origin. -/
def RangesSafe (cf : ColdLayout) (off len : Nat) : Prop :=
  ∃ ranges, coldOriginRanges cf off len = some ranges ∧
    ∀ r ∈ ranges, r.1 + r.2 ≤ cf.L.originSize

/-- A layout is safe to serve. -/
def Safe (cf : ColdLayout) : Prop :=
  ∀ off len, cf.L.Holds off len → WalkSafe cf.L off len ∧ RangesSafe cf off len

/-- Where the part ends that needs no slot. -/
def FillLayout.fixedEnd (L : FillLayout) : Nat :=
  max (max L.originSize L.metaSeek) (max L.metaEnd64 L.slotsBegin)

/-- The slot the search finds for a position. -/
def FillLayout.searched (L : FillLayout) (v : Nat) : Option FillSlot :=
  match L.upperBound v with
  | 0 => none
  | i + 1 => L.slots[i]?

/-- The slots looked up for a read that starts at `v` and goes to the end. -/
def FillLayout.reached (L : FillLayout) (v : Nat) : List FillSlot :=
  (L.slots.drop (L.upperBound v - 1)).takeWhile fun s => decide (s.vSeek < L.virtualSize)

/-- What the checks of `decodeLayout` leave open. -/
structure ServeOk (cf : ColdLayout) : Prop where
  /-- After the fixed part, every position lies in the slot that is found for it. -/
  covered : ∀ v, cf.L.fixedEnd ≤ v → v < cf.L.virtualSize →
    ∃ s, cf.L.searched v = some s ∧ v < s.end64
  /-- With slots there are, one starts at or before each position from `slotsBegin` on. -/
  started : cf.L.slots ≠ [] → ∀ v, cf.L.slotsBegin ≤ v → v < cf.L.virtualSize →
    cf.L.upperBound v ≠ 0
  /-- The originals of the metadata, when the metadata can be read, lie in the origin. -/
  records : 0 < cf.L.metaEnd64 → cf.L.metaSeek < cf.L.virtualSize →
    ∀ r ∈ cf.metaOrigin, r.1 + r.2 ≤ cf.L.originSize
  /-- The originals of the slots that can be read lie in the origin. -/
  originals : ∀ v, cf.L.slotsBegin ≤ v → v < cf.L.virtualSize →
    ∀ s ∈ cf.L.reached v, s.origSeek + s.origLen ≤ cf.L.originSize

/-! ### The fixed part -/

variable {cf : ColdLayout} {L : FillLayout}

theorem windowScan64_spec {pos : Nat} {ws : List Window} {next : Nat} (hpos : pos < next) :
    (∃ w, (windowScan64 pos ws next).1 = some w ∧ w ∈ ws ∧ w.off ≤ pos ∧ pos < w.end64) ∨
      ((windowScan64 pos ws next).1 = none ∧ pos < (windowScan64 pos ws next).2 ∧
        (windowScan64 pos ws next).2 ≤ next) := by
  induction ws generalizing next with
  | nil => exact Or.inr ⟨rfl, hpos, Nat.le_refl _⟩
  | cons x xs ih =>
      rw [windowScan64]
      by_cases hx : x.off ≤ pos ∧ pos < x.end64
      · rw [if_pos hx]
        exact Or.inl ⟨x, rfl, by simp, hx⟩
      · rw [if_neg hx]
        have hnext : pos < (if pos < x.off then min next x.off else next) := by
          split <;> omega
        have hle : (if pos < x.off then min next x.off else next) ≤ next := by
          split <;> omega
        obtain ⟨w, hw, hmem, hcov⟩ | ⟨hnone, hlt, hle'⟩ := ih hnext
        · exact Or.inl ⟨w, hw, by simp [hmem], hcov⟩
        · exact Or.inr ⟨hnone, hlt, by omega⟩

/-- A turn that makes progress and stays in the chunk. -/
def TurnSafe (L : FillLayout) (pos stop : Nat) : Prop :=
  ∃ source n, serveTurn L pos stop = some (source, n) ∧ 0 < n ∧ pos + n ≤ stop

theorem turnSafe_window {pos stop : Nat}
    (hwindow : ∀ w ∈ L.windows, w.off < 2 ^ 64 ∧ w.bytes.length < 2 ^ 64) (hlt : pos < L.originSize)
    (hpos : pos < stop) (hstop : stop < 2 ^ 64) : TurnSafe L pos stop := by
  have hseg : pos < min stop L.originSize := by omega
  unfold TurnSafe
  simp only [serveTurn, if_pos hlt]
  generalize hscan : windowScan64 pos L.windows (min stop L.originSize) = scan
  obtain ⟨found, next⟩ := scan
  have hspec := @windowScan64_spec pos L.windows _ hseg
  rw [hscan] at hspec
  obtain ⟨w, rfl, hmem, hoff, hend⟩ | ⟨rfl, hnext, hle⟩ := hspec
  · obtain ⟨hoff64, hlen64⟩ := hwindow w hmem
    have hnowrap : w.end64 = w.off + w.bytes.length := add64_of_lt hoff64 hlen64 hoff hend
    have hn : sub64 (min (min stop L.originSize) w.end64) pos =
        min (min stop L.originSize) w.end64 - pos := sub64_of_le (by omega) (by omega)
    have hstart : sub64 pos w.off = pos - w.off := sub64_of_le hoff (by omega)
    have hroom : pos - w.off + (min (min stop L.originSize) w.end64 - pos) ≤ w.bytes.length := by
      omega
    simp only [hn, hstart, copyOut, if_pos hroom, Option.map_some]
    exact ⟨_, _, rfl, by omega, by omega⟩
  · have hnext' : next ≤ min stop L.originSize := hle
    have hpos' : pos < next := hnext
    have hn : sub64 next pos = next - pos := sub64_of_le (by omega) (by omega)
    exact ⟨_, _, rfl, by omega, by omega⟩

/-- The part that needs no slot is safe as it is. -/
theorem turnSafe_fixed (hfit : cf.Fits) {pos stop : Nat} (hlt : pos < cf.L.fixedEnd)
    (hpos : pos < stop) (hstop : stop < 2 ^ 64) : TurnSafe cf.L pos stop := by
  by_cases horigin : pos < cf.L.originSize
  · exact turnSafe_window hfit.window horigin hpos hstop
  unfold TurnSafe
  simp only [serveTurn, if_neg horigin]
  by_cases hmeta : pos < cf.L.metaSeek
  · have hn : sub64 (min stop cf.L.metaSeek) pos = min stop cf.L.metaSeek - pos :=
      sub64_of_le (by omega) (by omega)
    simp only [if_pos hmeta]
    exact ⟨_, _, rfl, by omega, by omega⟩
  simp only [if_neg hmeta]
  by_cases hrec : pos < cf.L.metaEnd64
  · have hnowrap : cf.L.metaEnd64 = cf.L.metaSeek + cf.L.metaRecord.length :=
      add64_of_lt hfit.metaSeek hfit.metaRecord (by omega) hrec
    have hn : sub64 (min stop cf.L.metaEnd64) pos = min stop cf.L.metaEnd64 - pos :=
      sub64_of_le (by omega) (by omega)
    have hstart : sub64 pos cf.L.metaSeek = pos - cf.L.metaSeek :=
      sub64_of_le (by omega) (by omega)
    have hroom : pos - cf.L.metaSeek + (min stop cf.L.metaEnd64 - pos) ≤
        cf.L.metaRecord.length := by
      omega
    simp only [if_pos hrec, hn, hstart, copyOut, if_pos hroom, Option.map_some]
    exact ⟨_, _, rfl, by omega, by omega⟩
  simp only [if_neg hrec]
  have hbegin : pos < cf.L.slotsBegin := by
    unfold FillLayout.fixedEnd at hlt
    omega
  have hn : sub64 (min stop cf.L.slotsBegin) pos = min stop cf.L.slotsBegin - pos :=
    sub64_of_le (by omega) (by omega)
  simp only [if_pos hbegin]
  exact ⟨_, _, rfl, by omega, by omega⟩

/-! ### The slots -/

/-- The index as the code computes it leads to the slot that was found, or to none. -/
theorem slotIndex_searched (hslots : L.slots.length < 2 ^ 32) (v : Nat) :
    L.slots[(L.upperBound v + 2 ^ 32 - 1) % 2 ^ 32]? = L.searched v := by
  have hle : L.upperBound v ≤ L.slots.length :=
    (search_spec (fun s : FillSlot => decide (s.vSeek ≤ v)) L.slots).range.2
  unfold FillLayout.searched
  split
  · rename_i hzero
    rw [hzero, List.getElem?_eq_none (by omega)]
  · rename_i i hi
    have hindex : (L.upperBound v + 2 ^ 32 - 1) % 2 ^ 32 = i := by omega
    rw [hindex]

theorem serveTurn_slots (hslots : L.slots.length < 2 ^ 32) {pos : Nat} (hpos : L.fixedEnd ≤ pos)
    (stop : Nat) :
    serveTurn L pos stop = (L.searched pos).map fun s =>
      (.slot ((L.upperBound pos + 2 ^ 32 - 1) % 2 ^ 32) (sub64 pos s.vSeek),
        sub64 (min stop s.end64) pos) := by
  unfold FillLayout.fixedEnd at hpos
  rw [← slotIndex_searched hslots]
  simp only [serveTurn, if_neg (by omega : ¬ pos < L.originSize),
    if_neg (by omega : ¬ pos < L.metaSeek), if_neg (by omega : ¬ pos < L.metaEnd64),
    if_neg (by omega : ¬ pos < L.slotsBegin)]
  cases L.slots[(L.upperBound pos + 2 ^ 32 - 1) % 2 ^ 32]? <;> rfl

theorem turnSafe_slot (hslots : L.slots.length < 2 ^ 32) {pos stop : Nat} (hpos : L.fixedEnd ≤ pos)
    {s : FillSlot} (hs : L.searched pos = some s) (hend : pos < s.end64) (hlt : pos < stop)
    (hstop : stop < 2 ^ 64) : TurnSafe L pos stop := by
  have hn : sub64 (min stop s.end64) pos = min stop s.end64 - pos := sub64_of_le (by omega) (by omega)
  unfold TurnSafe
  rw [serveTurn_slots hslots hpos, hs, Option.map_some, hn]
  exact ⟨_, _, rfl, by omega, by omega⟩

/-- A turn at a position that no slot found covers makes no progress, or leaves the slots. -/
theorem covered_of_turnSafe (hslots : L.slots.length < 2 ^ 32) {v : Nat} (hpos : L.fixedEnd ≤ v)
    (hv : v + 1 < 2 ^ 64) (h : TurnSafe L v (v + 1)) :
    ∃ s, L.searched v = some s ∧ v < s.end64 := by
  obtain ⟨source, n, hturn, hn, hle⟩ := h
  rw [serveTurn_slots hslots hpos] at hturn
  cases hs : L.searched v with
  | none =>
      rw [hs] at hturn
      cases hturn
  | some s =>
      rw [hs, Option.map_some] at hturn
      have hlen : sub64 (min (v + 1) s.end64) v = n := by
        injection hturn with hpair
        injection hpair
      refine ⟨s, rfl, ?_⟩
      by_contra hge
      unfold sub64 at hlen
      omega

/-! ### Whole chunks -/

theorem CutsFrom.le {a b : Nat} {cuts : List Cut} (h : CutsFrom a cuts b) : a ≤ b := by
  induction cuts generalizing a with
  | nil => exact Nat.le_of_eq h
  | cons c rest ih =>
      have := ih h.2.2
      omega

/-- Turns that make progress and stay in the chunk take the walk through it. -/
theorem walk_of_turns {L : FillLayout} {stop : Nat} (hstop : stop < 2 ^ 64)
    (h : ∀ pos, pos < stop → TurnSafe L pos stop) {fuel pos : Nat} (hpos : pos ≤ stop)
    (hfuel : stop - pos ≤ fuel) :
    ∃ cuts, serveLoop L stop fuel pos = some cuts ∧ CutsFrom pos cuts stop := by
  induction fuel generalizing pos with
  | zero =>
      obtain rfl : pos = stop := by omega
      exact ⟨[], by rw [serveLoop, if_neg (by omega)], rfl⟩
  | succ fuel ih =>
      by_cases hlt : pos < stop
      · obtain ⟨source, n, hturn, hn, hle⟩ := h pos hlt
        have hnext : add64 pos n = pos + n := by
          unfold add64
          omega
        obtain ⟨rest, hrest, hcuts⟩ := @ih (pos + n) hle (by omega)
        refine ⟨{ pos := pos, len := n, source := source } :: rest, ?_, rfl, hn, hcuts⟩
        rw [serveLoop, if_pos hlt, hturn]
        simp only [hnext, hrest, Option.map_some]
      · obtain rfl : pos = stop := by omega
        exact ⟨[], by rw [serveLoop, if_neg hlt], rfl⟩

/-- The first turn of a walk that is safe is a safe turn. -/
theorem turnSafe_of_walk {off len : Nat} (hlen : 0 < len) (h : WalkSafe L off len) :
    TurnSafe L off (off + len) := by
  obtain ⟨fuel, cuts, hloop, hcuts⟩ := h
  have hlt : off < off + len := by omega
  cases fuel with
  | zero =>
      rw [serveLoop, if_pos hlt] at hloop
      cases hloop
  | succ fuel =>
      rw [serveLoop, if_pos hlt] at hloop
      cases hturn : serveTurn L off (off + len) with
      | none =>
          rw [hturn] at hloop
          cases hloop
      | some p =>
          obtain ⟨source, n⟩ := p
          rw [hturn] at hloop
          obtain ⟨rest, -, rfl⟩ := Option.map_eq_some_iff.1 hloop
          exact ⟨source, n, hturn, hcuts.2.1, hcuts.2.2.le⟩

/-! ### Ranges -/

theorem mem_takeWhile_mono {α : Type} {p q : α → Bool} (h : ∀ x, p x = true → q x = true)
    {l : List α} {x : α} (hx : x ∈ l.takeWhile p) : x ∈ l.takeWhile q := by
  induction l with
  | nil => cases hx
  | cons y ys ih =>
      rw [List.takeWhile_cons] at hx ⊢
      split at hx
      · rename_i hy
        rw [if_pos (h y hy)]
        rcases List.mem_cons.1 hx with rfl | hmem
        · exact List.mem_cons_self
        · exact List.mem_cons_of_mem _ (ih hmem)
      · cases hx

theorem ServeOk.ranges (hfit : cf.Fits) (h : ServeOk cf) {off len : Nat}
    (hin : cf.L.Holds off len) : RangesSafe cf off len := by
  obtain ⟨hoff, hend⟩ := hin
  have hvirtual := hfit.virtualSize
  have horigin := hfit.originSize
  have hstop : add64 off len = off + len := by
    unfold add64
    omega
  have hown : ∀ r ∈ (if off < cf.L.originSize
      then [(off, sub64 (min (off + len) cf.L.originSize) off)] else []),
      r.1 + r.2 ≤ cf.L.originSize := by
    intro r hr
    split at hr
    · rename_i hlt
      rw [List.mem_singleton] at hr
      have hn : sub64 (min (off + len) cf.L.originSize) off =
          min (off + len) cf.L.originSize - off := sub64_of_le (by omega) (by omega)
      rw [hr, hn]
      omega
    · cases hr
  have hrecs : ∀ r ∈ (if off < cf.L.metaEnd64 ∧ cf.L.metaSeek < off + len then cf.metaOrigin
      else []), r.1 + r.2 ≤ cf.L.originSize := by
    intro r hr
    split at hr
    · exact h.records (by omega) (by omega) r hr
    · cases hr
  unfold RangesSafe
  simp only [coldOriginRanges, hstop]
  by_cases hslots : cf.L.slotsBegin < off + len ∧ cf.L.slots ≠ []
  · rw [if_pos hslots]
    have hlo : cf.L.slotsBegin ≤ max off cf.L.slotsBegin := by omega
    have hhi : max off cf.L.slotsBegin < cf.L.virtualSize := by omega
    have hne := h.started hslots.2 _ hlo hhi
    split
    · exact absurd ‹_› hne
    · rename_i i hi
      refine ⟨_, rfl, ?_⟩
      intro r hr
      rcases List.mem_append.1 hr with hr | hr
      · rcases List.mem_append.1 hr with hr | hr
        · exact hown r hr
        · exact hrecs r hr
      · obtain ⟨s, hs, rfl⟩ := List.mem_map.1 hr
        apply h.originals _ hlo hhi
        have hindex : cf.L.upperBound (max off cf.L.slotsBegin) - 1 = i := by omega
        rw [FillLayout.reached, hindex]
        apply mem_takeWhile_mono _ hs
        intro x hx
        simp only [decide_eq_true_eq] at hx ⊢
        omega
  · rw [if_neg hslots]
    refine ⟨_, rfl, ?_⟩
    intro r hr
    rcases List.mem_append.1 hr with hr | hr
    · exact hown r hr
    · exact hrecs r hr

/-- What a lookup from `v` to the end returns holds the originals of the slots it reaches. -/
theorem reached_of_ranges (hfit : cf.Fits) (hne : cf.L.slots ≠ []) {v : Nat}
    (hlo : cf.L.slotsBegin ≤ v) (hv : v < cf.L.virtualSize)
    (h : RangesSafe cf v (cf.L.virtualSize - v)) : cf.L.upperBound v ≠ 0 ∧
      ∀ s ∈ cf.L.reached v, s.origSeek + s.origLen ≤ cf.L.originSize := by
  have hvirtual := hfit.virtualSize
  have hstop : add64 v (cf.L.virtualSize - v) = cf.L.virtualSize := by
    unfold add64
    omega
  have hmax : max v cf.L.slotsBegin = v := by omega
  obtain ⟨ranges, hranges, hinside⟩ := h
  simp only [coldOriginRanges, hstop, hmax] at hranges
  rw [if_pos ⟨by omega, hne⟩] at hranges
  split at hranges
  · cases hranges
  · rename_i i hi
    refine ⟨by omega, ?_⟩
    intro s hs
    have hindex : cf.L.upperBound v - 1 = i := by omega
    rw [FillLayout.reached, hindex] at hs
    cases hranges
    exact hinside (s.origSeek, s.origLen)
      (List.mem_append_right _ (List.mem_map.2 ⟨s, hs, rfl⟩))

theorem records_of_ranges (hfit : cf.Fits) (hend : 0 < cf.L.metaEnd64)
    (hseek : cf.L.metaSeek < cf.L.virtualSize) (h : RangesSafe cf 0 cf.L.virtualSize) :
    ∀ r ∈ cf.metaOrigin, r.1 + r.2 ≤ cf.L.originSize := by
  have hstop : add64 0 cf.L.virtualSize = cf.L.virtualSize := by
    have := hfit.virtualSize
    unfold add64
    omega
  obtain ⟨ranges, hranges, hinside⟩ := h
  intro r hr
  apply hinside r
  simp only [coldOriginRanges, hstop] at hranges
  rw [if_pos (⟨hend, hseek⟩ : 0 < cf.L.metaEnd64 ∧ cf.L.metaSeek < cf.L.virtualSize)] at hranges
  split at hranges
  · split at hranges
    · cases hranges
    · cases hranges
      simp [hr]
  · cases hranges
    simp [hr]

/-! ### Computed layouts -/

theorem SlotsFrom.sorted {a b : Nat} {slots : List FillSlot} (h : SlotsFrom a slots b) (v : Nat) :
    slots.Pairwise fun x y =>
      decide (y.vSeek ≤ v) = true → decide (x.vSeek ≤ v) = true := by
  induction slots generalizing a with
  | nil => exact List.Pairwise.nil
  | cons s rest ih =>
      refine List.Pairwise.cons ?_ (ih h.2)
      intro y hy
      obtain ⟨i, hi⟩ := List.mem_iff_getElem?.1 hy
      have hge := h.2.vSeek_ge hi
      have hs := h.1
      simp only [decide_eq_true_eq]
      omega

/-- On slots that follow one another the binary search finds the first that starts later. -/
theorem SlotsFrom.upperBound_eq {a b : Nat} (h : SlotsFrom a L.slots b) (v : Nat) :
    L.upperBound v = L.slots.findIdx fun s => decide (v < s.vSeek) := by
  have hflip : (fun s : FillSlot => decide (v < s.vSeek)) = fun s => !decide (s.vSeek ≤ v) := by
    funext s
    rw [← decide_not, decide_eq_decide]
    omega
  rw [hflip]
  exact search_eq_findIdx (h.sorted v)

/-- The slot that is found for a position of the slots' part covers it. -/
theorem LayoutOk.searched (h : LayoutOk L) {v : Nat} (hlo : L.slotsBegin ≤ v)
    (hhi : v < L.virtualSize) :
    L.upperBound v ≠ 0 ∧ ∃ s, L.searched v = some s ∧ s ∈ L.slots ∧ s.covers v = true := by
  obtain ⟨hpos, s, hs, hcov⟩ := h.slots.upperBound hlo hhi
  rw [← h.slots.upperBound_eq] at hpos hs
  refine ⟨by omega, s, ?_, List.mem_of_getElem? hs, hcov⟩
  unfold FillLayout.searched
  split
  · omega
  · rename_i i hi
    rw [hi, Nat.succ_sub_one] at hs
    exact hs

/-- A well-formed layout whose originals lie in the origin is safe to serve. -/
theorem LayoutOk.serveOk (h : LayoutOk cf.L) (hfit : cf.Fits)
    (hslots : ∀ s ∈ cf.L.slots, s.origSeek + s.origLen ≤ cf.L.originSize)
    (hrecords : ∀ r ∈ cf.metaOrigin, r.1 + r.2 ≤ cf.L.originSize) : ServeOk cf := by
  have hvirtual := hfit.virtualSize
  constructor
  · intro v hlo hhi
    have hbegin : cf.L.slotsBegin ≤ v := by
      unfold FillLayout.fixedEnd at hlo
      omega
    obtain ⟨-, s, hs, hmem, hcov⟩ := h.searched hbegin hhi
    refine ⟨s, hs, ?_⟩
    have hend := h.slots.end_le hmem
    simp only [FillSlot.covers, Bool.and_eq_true, decide_eq_true_eq] at hcov
    unfold FillSlot.end64 add64
    omega
  · intro _ v hlo hhi
    exact (h.searched hlo hhi).1
  · intro _ _
    exact hrecords
  · intro v _ _ s hs
    exact hslots s (List.mem_of_mem_drop ((List.takeWhile_prefix _).subset hs))

/-! The arithmetic of a well-formed layout does not wrap: a turn is the one that requests are
modelled with. -/

theorem windowScan64_eq {ws : List Window} (h : ∀ w ∈ ws, w.stop < 2 ^ 64) (pos next : Nat) :
    windowScan64 pos ws next = windowScan pos ws next := by
  induction ws generalizing next with
  | nil => rfl
  | cons w ws ih =>
      have hend : w.end64 = w.stop := Nat.mod_eq_of_lt (h w (by simp))
      rw [windowScan64, windowScan, hend, ih fun x hx => h x (by simp [hx])]

theorem serveTurn_eq_classifyAt (h : LayoutOk cf.L) (hfit : cf.Fits) {pos stop : Nat}
    (hpos : pos < stop) (hstop : stop ≤ cf.L.virtualSize) :
    serveTurn cf.L pos stop = some (classifyAt cf.L pos stop) := by
  have hvirtual := hfit.virtualSize
  have horigin := hfit.originSize
  have hmetaEnd := h.metaEnd
  have hbegin := h.slots.le
  have hend64 : cf.L.metaEnd64 = cf.L.metaEnd := Nat.mod_eq_of_lt (by
    unfold FillLayout.metaEnd at hmetaEnd
    omega)
  have hsub : ∀ a, pos ≤ a → a ≤ stop → sub64 a pos = a - pos := by
    intro a hle ha
    exact sub64_of_le hle (by omega)
  unfold serveTurn classifyAt
  by_cases h1 : pos < cf.L.originSize
  · rw [if_pos h1, if_pos h1]
    have hwindow : ∀ w ∈ cf.L.windows, w.stop < 2 ^ 64 := by
      intro w hw
      have := h.inside w hw
      omega
    simp only [windowScan64_eq hwindow]
    have hspec := @windowScan_spec pos cf.L.windows (min stop cf.L.originSize) (by omega)
    generalize windowScan pos cf.L.windows (min stop cf.L.originSize) = scan at hspec ⊢
    obtain ⟨found, next⟩ := scan
    obtain ⟨w, rfl, hmem, hcov⟩ | ⟨rfl, hlt, hle, -⟩ := hspec
    · simp only [Window.covers, Bool.and_eq_true, decide_eq_true_eq] at hcov
      have hend : w.end64 = w.stop := Nat.mod_eq_of_lt (hwindow w hmem)
      have hstart : sub64 pos w.off = pos - w.off := sub64_of_le hcov.1 (by omega)
      have hroom : pos - w.off + (min (min stop cf.L.originSize) w.stop - pos) ≤
          w.bytes.length := by
        unfold Window.stop at hcov ⊢
        omega
      simp only [hend, hstart, hsub _ (by omega : pos ≤ min (min stop cf.L.originSize) w.stop)
        (by omega), copyOut, if_pos hroom, Option.map_some]
    · have hlt' : pos < next := hlt
      have hle' : next ≤ min stop cf.L.originSize := hle
      simp only [hsub next (by omega) (by omega)]
  rw [if_neg h1, if_neg h1]
  by_cases h2 : pos < cf.L.metaSeek
  · rw [if_pos h2, if_pos h2]
    simp only [hsub (min stop cf.L.metaSeek) (by omega) (by omega)]
  rw [if_neg h2, if_neg h2, hend64]
  by_cases h3 : pos < cf.L.metaEnd
  · have hstart : sub64 pos cf.L.metaSeek = pos - cf.L.metaSeek :=
      sub64_of_le (by omega) (by omega)
    have hroom : pos - cf.L.metaSeek + (min stop cf.L.metaEnd - pos) ≤ cf.L.metaRecord.length := by
      unfold FillLayout.metaEnd at h3 ⊢
      omega
    rw [if_pos h3, if_pos h3]
    simp only [hsub (min stop cf.L.metaEnd) (by omega) (by omega), hstart, copyOut, if_pos hroom,
      Option.map_some]
  rw [if_neg h3, if_neg h3]
  by_cases h4 : pos < cf.L.slotsBegin
  · rw [if_pos h4, if_pos h4]
    simp only [hsub (min stop cf.L.slotsBegin) (by omega) (by omega)]
  rw [if_neg h4, if_neg h4]
  obtain ⟨hne, s, hs, hmem, hcov⟩ := h.searched (by omega : cf.L.slotsBegin ≤ pos) (by omega)
  have hle : cf.L.upperBound pos ≤ cf.L.slots.length :=
    (search_spec (fun s : FillSlot => decide (s.vSeek ≤ pos)) cf.L.slots).range.2
  have hlen := hfit.slots
  have hindex : (cf.L.upperBound pos + 2 ^ 32 - 1) % 2 ^ 32 = cf.L.slotAt pos := by
    rw [FillLayout.slotAt, ← h.slots.upperBound_eq]
    omega
  have hget : cf.L.slots[cf.L.slotAt pos]? = some s := by
    rw [← hindex, slotIndex_searched hlen, hs]
  have hgetD : cf.L.slots.getD (cf.L.slotAt pos) {} = s := by
    rw [List.getD_eq_getElem?_getD, hget]
    rfl
  have hseek := h.slots.end_le hmem
  simp only [FillSlot.covers, Bool.and_eq_true, decide_eq_true_eq] at hcov
  have hend : s.end64 = s.vSeek + s.vLen := Nat.mod_eq_of_lt (by omega)
  have hstart : sub64 pos s.vSeek = pos - s.vSeek := sub64_of_le hcov.1 (by omega)
  simp only [hindex, hget, hgetD, hend, hstart,
    hsub (min stop (s.vSeek + s.vLen)) (by omega) (by omega)]

/-! ### The result -/

/-- A layout that was read back is safe to serve exactly when its slots leave no gap and the
originals it names lie in the origin: neither is among the checks of the decode. -/
theorem decoded_layout_safe {D : Decoders} {k100 : Nat} {blob : Bytes} {cf : ColdLayout}
    (h : decodeLayout D k100 blob = some cf) : Safe cf ↔ ServeOk cf := by
  have hfit := (decodeLayout_fits h).1
  have hvirtual := hfit.virtualSize
  constructor
  · intro hsafe
    constructor
    · intro v hlo hv
      have hwalk := (hsafe v 1 ⟨hv, by omega⟩).1
      exact covered_of_turnSafe hfit.slots hlo (by omega) (turnSafe_of_walk (by omega) hwalk)
    · intro hne v hlo hv
      have hranges := (hsafe v (cf.L.virtualSize - v) ⟨hv, by omega⟩).2
      exact (reached_of_ranges hfit hne hlo hv hranges).1
    · intro hend hseek
      have hranges := (hsafe 0 cf.L.virtualSize ⟨by omega, by omega⟩).2
      exact records_of_ranges hfit hend hseek hranges
    · intro v hlo hv s hs
      have hne : cf.L.slots ≠ [] := by
        rintro heq
        simp [FillLayout.reached, heq] at hs
      have hranges := (hsafe v (cf.L.virtualSize - v) ⟨hv, by omega⟩).2
      exact (reached_of_ranges hfit hne hlo hv hranges).2 s hs
  · intro hok off len hin
    obtain ⟨hoff, hend⟩ := id hin
    refine ⟨⟨off + len - off, ?_⟩, hok.ranges hfit hin⟩
    refine walk_of_turns (by omega) ?_ (by omega) (Nat.le_refl _)
    intro pos hpos
    by_cases hfixed : pos < cf.L.fixedEnd
    · exact turnSafe_fixed hfit hfixed hpos (by omega)
    · obtain ⟨s, hs, hlt⟩ := hok.covered pos (by omega) (by omega)
      exact turnSafe_slot hfit.slots (by omega) hs hlt hpos (by omega)

/-- The layout of the small file, as it is read back. -/
theorem decoded_layout_safe_small : Safe (smallLayout noEncoder) := by
  have hdecode : decodeLayout noDecoders 130 (encodeLayout noEncoder 130 (smallLayout noEncoder)) =
      some (smallLayout noEncoder) := by
    decide +kernel
  have hok := (smallLayout_computed (E := noEncoder) (fun _ => 0) (by decide +kernel)).layoutOk.1
  exact (decoded_layout_safe hdecode).2
    (hok.serveOk (decodeLayout_fits hdecode).1 (by decide +kernel) (by decide +kernel))

/-- A layout with a part for slots and no slot in it. -/
def hollowLayout : ColdLayout where
  L :=
    { originSize := 100
      virtualSize := 200
      metaSeek := 100
      slotsBegin := 100 }

/-- It is accepted, and a read in that part looks before the first slot. -/
theorem hollow_layout_unsafe :
    decodeLayout noDecoders 130 (encodeLayout noEncoder 130 hollowLayout) = some hollowLayout ∧
      hollowLayout.L.Holds 150 1 ∧ serveTurn hollowLayout.L 150 151 = none ∧
        ¬ Safe hollowLayout := by
  have hturn : serveTurn hollowLayout.L 150 151 = none := by decide +kernel
  have hin : hollowLayout.L.Holds 150 1 := by
    constructor <;> decide
  refine ⟨by decide +kernel, hin, hturn, ?_⟩
  intro hsafe
  obtain ⟨source, n, hsome, -⟩ := turnSafe_of_walk (by omega) (hsafe 150 1 hin).1
  rw [hturn] at hsome
  cases hsome

end UCache
