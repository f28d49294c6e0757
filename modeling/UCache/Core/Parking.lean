/-
Module: UCache.Core.Parking
Purpose: Readers that wait for a fetch of another: the page ranges on the wire with the readers
  parked behind them, and the gate that lets one caller fetch a range.  Nobody who parks is lost.
Trusted boundary: none
Main exports: clipPages, coveredByFlight, parking_loses_no_reader
-/
import UCache.Core.MetaFile
import UCache.Lib.Endian
import UCache.Lib.Run
import Mathlib.Data.List.Perm.Basic
import Mathlib.Data.List.Perm.Subperm

namespace UCache

open Lib

/-! ### Ranges on the wire -/

/-- A range of bytes, or of pages: `(off, len)` in calls, `(first, end)` in `flight_`. -/
abbrev ByteRange := Nat × Nat

/-- [SRC FileEntry.cc:945-954] The pages of a range, cut at the end of the file; nothing when the range
is empty, wraps, or lies past the end. -/
def clipPages (pageSize fileSize : Nat) (r : ByteRange) : Option (Nat × Nat) :=
  if r.2 = 0 ∨ add64 r.1 r.2 < r.1 then none
  else
    let stop := min (add64 r.1 r.2) fileSize
    if stop ≤ r.1 then none else some (r.1 / pageSize, (stop + pageSize - 1) / pageSize)

/-- [SRC FileEntry.cc:918-936] From `page` on, every page up to `stop` is in some range of the flight:
each turn jumps to the end of the first range that holds the page. -/
def coverLoop (flight : List (Nat × Nat)) (stop : Nat) : Nat → Nat → Bool
  | 0, page => decide (stop ≤ page)
  | fuel + 1, page =>
      if stop ≤ page then true
      else
        match flight.find? fun r => decide (r.1 ≤ page) && decide (page < r.2) with
        | some r => coverLoop flight stop fuel r.2
        | none => false

/-- Whether the pages are all covered by ranges in flight. -/
def coveredByFlight (flight : List (Nat × Nat)) (firstPage endPage : Nat) : Bool :=
  coverLoop flight endPage (endPage - firstPage) firstPage

/-- [SRC FileEntry.cc:1017-1019] `while (j <= last && !pageHere(j)) ++j`. -/
def skipAbsent (here : Nat → Bool) (last : Nat) : Nat → Nat → Nat
  | 0, j => j
  | fuel + 1, j => if j ≤ last ∧ here j = false then skipAbsent here last fuel (j + 1) else j

/-- [SRC FileEntry.cc:1011-1024] The pages from `i` to `last`: nothing when an absent run is not all on
the wire, else whether a page was absent, counting `saw`. -/
def scanPages (flight : List (Nat × Nat)) (here : Nat → Bool) (last : Nat) :
    Nat → Nat → Bool → Option Bool
  | 0, _, saw => some saw
  | fuel + 1, i, saw =>
      if i ≤ last then
        if here i then scanPages flight here last fuel (i + 1) saw
        else
          let j := skipAbsent here last (last + 1 - i) i
          if coveredByFlight flight i j then scanPages flight here last fuel j true else none
      else some saw

/-- [SRC FileEntry.cc:1007-1025] The sums are of 64 bits. -/
def scanRanges (pageSize fileSize : Nat) (flight : List (Nat × Nat)) (here : Nat → Bool) :
    List ByteRange → Bool → Option Bool
  | [], saw => some saw
  | r :: rest, saw =>
      if r.2 = 0 ∨ fileSize < add64 r.1 r.2 then none
      else
        let first := r.1 / pageSize
        let last := sub64 (add64 r.1 r.2) 1 / pageSize
        (scanPages flight here last (last + 1 - first) first saw).bind fun saw =>
          scanRanges pageSize fileSize flight here rest saw

/-! ### Who is parked -/

/-- A callback that is parked.  What else a ticket holds is not the program's: how many clears had
woken readers when it was parked, or the owner of the fetch it is behind. -/
inductive Ticket where
  | flight (cb clears : Nat)
  | fetch (cb : Nat) (key : ByteRange) (owner : Option Nat)
deriving DecidableEq, Repr

/-- The registries of an entry.  `calls` are callbacks a thread has taken out and has yet to call.
The fields from `noted` on are not the program's: the ranges noted and not yet cleared, the owners
that have not ended, the threads whose clears woke readers, and who was parked and called. -/
structure Parking where
  flight : List (Nat × Nat) := []
  flightWaiters : List Ticket := []
  inflight : List (ByteRange × List Ticket) := []
  here : Nat → Bool := fun _ => false
  calls : List (Nat × Ticket) := []
  noted : List ByteRange := []
  owners : List (Nat × ByteRange) := []
  clears : List Nat := []
  parked : List Ticket := []
  called : List (Nat × Ticket) := []

/-- The operations of any thread `t`, each one locked section. -/
inductive ParkingAct where
  | noteFetchInFlight (r : ByteRange)
  | clearFetchInFlight (t : Nat) (r : ByteRange)
  | clearFetchesInFlight (t : Nat) (ranges : List ByteRange)
  | waitForInFlight (ranges : List ByteRange) (cb : Nat)
  | beginFetch (t : Nat) (r : ByteRange) (cb : Nat)
  | endFetch (t : Nat) (r : ByteRange)
  /-- The thread calls the next callback it has taken out. -/
  | call (t : Nat)
  /-- Pages are staged, published or demoted. -/
  | pages (here : Nat → Bool)

namespace Parking

variable (pageSize fileSize : Nat)

/-- [SRC FileEntry.cc:1001-1030] Does `waitForInFlight` park? -/
def waits (s : Parking) (ranges : List ByteRange) : Bool :=
  !s.flight.isEmpty &&
    (scanRanges pageSize fileSize s.flight s.here ranges false).getD false

def eraseRange (flight : List (Nat × Nat)) (r : ByteRange) : List (Nat × Nat) :=
  match clipPages pageSize fileSize r with
  | some p => flight.erase p
  | none => flight

/-- Every thread parked on the flight is woken by `t`. -/
def wake (s : Parking) (t : Nat) : Parking :=
  { s with
    flightWaiters := []
    calls := s.calls ++ s.flightWaiters.map fun x => (t, x)
    clears := s.clears ++ [t] }

def ownerOf (s : Parking) (r : ByteRange) : Option Nat :=
  (s.owners.find? fun o => decide (o.2 = r)).map Prod.fst

def setWaiters (inflight : List (ByteRange × List Ticket)) (r : ByteRange) (x : Ticket) :
    List (ByteRange × List Ticket) :=
  inflight.map fun g => if g.1 = r then (g.1, g.2 ++ [x]) else g

/-- [SRC FileEntry.cc:901-1045] A range is cleared by who noted it, once, and a fetch is ended by its
owner, once. -/
def step (s : Parking) : ParkingAct → Option Parking
  | .noteFetchInFlight r =>
      some { s with
        flight := s.flight ++ (clipPages pageSize fileSize r).toList
        noted := s.noted ++ [r] }
  | .clearFetchInFlight t r =>
      if r ∈ s.noted then
        let s' := { s with noted := s.noted.erase r }
        if (clipPages pageSize fileSize r).isSome then
          some ({ s' with flight := eraseRange pageSize fileSize s.flight r }.wake t)
        else some s'
      else none
  | .clearFetchesInFlight t ranges =>
      if ranges.Subperm s.noted then
        some ({ s with
          flight := ranges.foldl (eraseRange pageSize fileSize) s.flight
          noted := s.noted.diff ranges }.wake t)
      else none
  | .waitForInFlight ranges cb =>
      if s.waits pageSize fileSize ranges then
        let x := Ticket.flight cb s.clears.length
        some { s with flightWaiters := s.flightWaiters ++ [x], parked := s.parked ++ [x] }
      else some s
  | .beginFetch t r cb =>
      match s.inflight.lookup r with
      | none => some { s with inflight := s.inflight ++ [(r, [])], owners := s.owners ++ [(t, r)] }
      | some _ =>
          let x := Ticket.fetch cb r (s.ownerOf r)
          some { s with inflight := setWaiters s.inflight r x, parked := s.parked ++ [x] }
  | .endFetch t r =>
      if (t, r) ∈ s.owners then
        let cbs := (s.inflight.lookup r).getD []
        some { s with
          inflight := s.inflight.filter fun g => decide (g.1 ≠ r)
          owners := s.owners.erase (t, r)
          calls := s.calls ++ cbs.map fun x => (t, x) }
      else none
  | .call t =>
      match s.calls.find? fun c => decide (c.1 = t) with
      | some c => some { s with calls := s.calls.erase c, called := s.called ++ [c] }
      | none => none
  | .pages here => some { s with here := here }

end Parking

/-! ### What is covered -/

variable {r : ByteRange} {flight : List (Nat × Nat)} {pageSize : Nat}

/-- Some range of the flight holds the page. -/
def OnWire (flight : List (Nat × Nat)) (page : Nat) : Prop :=
  ∃ r ∈ flight, r.1 ≤ page ∧ page < r.2

theorem clipPages_eq_none {fileSize : Nat} (h : r.1 + r.2 < 2 ^ 64) :
    clipPages pageSize fileSize r = none ↔ r.2 = 0 ∨ fileSize ≤ r.1 := by
  have hsum : add64 r.1 r.2 = r.1 + r.2 := Nat.mod_eq_of_lt h
  unfold clipPages
  rw [hsum]
  split
  · simp only [true_iff]
    omega
  · simp only
    split <;> simp only [true_iff, reduceCtorEq, false_iff] <;> omega

/-- The loop with enough turns decides whether every page is on the wire. -/
theorem coverLoop_iff {flight : List (Nat × Nat)} {stop fuel page : Nat} (h : stop ≤ page + fuel) :
    coverLoop flight stop fuel page = true ↔ ∀ i, page ≤ i → i < stop → OnWire flight i := by
  induction fuel generalizing page with
  | zero =>
      simp only [coverLoop, decide_eq_true_eq]
      exact ⟨fun _ i _ _ => by omega, fun _ => by omega⟩
  | succ fuel ih =>
      rw [coverLoop]
      split
      · exact ⟨fun _ i _ _ => by omega, fun _ => rfl⟩
      · rename_i hlt
        cases hfind : flight.find? fun r => decide (r.1 ≤ page) && decide (page < r.2) with
        | none =>
            simp only [Bool.false_eq_true, false_iff]
            intro hall
            obtain ⟨r, hr, hlo, hhi⟩ := hall page (Nat.le_refl _) (by omega)
            have hnot := List.find?_eq_none.1 hfind r hr
            simp [hlo, hhi] at hnot
        | some r =>
            have hmem := List.mem_of_find?_eq_some hfind
            have hhit := List.find?_some hfind
            simp only [Bool.and_eq_true, decide_eq_true_eq] at hhit
            rw [ih (by omega)]
            constructor
            · intro hall i hi hstop
              -- below the end of the range the range itself holds the page
              by_cases hin : i < r.2
              · exact ⟨r, hmem, by omega, hin⟩
              · exact hall i (by omega) hstop
            · intro hall i hi hstop
              exact hall i (by omega) hstop

theorem coveredByFlight_iff {firstPage endPage : Nat} :
    coveredByFlight flight firstPage endPage = true ↔
      ∀ i, firstPage ≤ i → i < endPage → OnWire flight i :=
  coverLoop_iff (by omega)

theorem skipAbsent_spec {here : Nat → Bool} {last fuel j : Nat} :
    j ≤ skipAbsent here last fuel j ∧
      (0 < fuel → j ≤ last → here j = false → j < skipAbsent here last fuel j) ∧
        (∀ i, j ≤ i → i < skipAbsent here last fuel j → i ≤ last ∧ here i = false) := by
  induction fuel generalizing j with
  | zero =>
      simp only [skipAbsent]
      exact ⟨Nat.le_refl _, by omega, fun i _ _ => by omega⟩
  | succ fuel ih =>
      obtain ⟨hle, -, habsent⟩ := @ih (j + 1)
      rw [skipAbsent]
      split
      · rename_i hj
        refine ⟨by omega, fun _ _ _ => by omega, fun i hi hlt => ?_⟩
        rcases Nat.eq_or_lt_of_le hi with rfl | hgt
        · exact hj
        · exact habsent i hgt hlt
      · rename_i hj
        exact ⟨Nat.le_refl _, fun _ h1 h2 => absurd ⟨h1, h2⟩ hj, fun i _ _ => by omega⟩

/-- A scan that goes through: every absent page is on the wire, and one was seen if it says so. -/
theorem scanPages_spec {here : Nat → Bool} {last fuel i : Nat} {saw b : Bool}
    (hfuel : last + 1 ≤ i + fuel) (h : scanPages flight here last fuel i saw = some b) :
    (∀ k, i ≤ k → k ≤ last → here k = false → OnWire flight k) ∧
      (b = true → saw = true ∨ ∃ k, i ≤ k ∧ k ≤ last ∧ here k = false) := by
  induction fuel generalizing i saw with
  | zero =>
      cases h
      exact ⟨fun k _ _ => by omega, Or.inl⟩
  | succ fuel ih =>
      rw [scanPages] at h
      split at h
      · rename_i hi
        split at h
        · rename_i hhere
          obtain ⟨hwire, hsaw⟩ := ih (by omega) h
          refine ⟨fun k hk hlast habs => ?_, fun hb => ?_⟩
          · rcases Nat.eq_or_lt_of_le hk with rfl | hgt
            · rw [hhere] at habs
              cases habs
            · exact hwire k hgt hlast habs
          · exact (hsaw hb).imp_right fun ⟨k, hk, hrest⟩ => ⟨k, by omega, hrest⟩
        · rename_i hhere
          have habsent : here i = false := by simpa using hhere
          simp only at h
          obtain ⟨-, hgrow, hskip⟩ := @skipAbsent_spec here last (last + 1 - i) i
          have hlt := hgrow (by omega) hi habsent
          split at h
          · rename_i hcover
            obtain ⟨hwire, -⟩ := ih (by omega) h
            refine ⟨fun k hk hlast habs => ?_, fun _ => Or.inr ⟨i, Nat.le_refl _, hi, habsent⟩⟩
            by_cases hrun : k < skipAbsent here last (last + 1 - i) i
            · exact coveredByFlight_iff.1 hcover k hk hrun
            · exact hwire k (by omega) hlast habs
          · cases h
      · cases h
        exact ⟨fun k _ _ => by omega, Or.inl⟩

/-- Page `i` holds a byte of the range. -/
def PageOf (pageSize : Nat) (r : ByteRange) (i : Nat) : Prop :=
  i * pageSize < r.1 + r.2 ∧ r.1 < i * pageSize + pageSize

/-- The geometry of an entry: the page size is one the configuration admits, and the data file was
extended to the file's size. -/
structure PageGeometry (pageSize fileSize : Nat) : Prop where
  pos : 0 < pageSize
  le : pageSize ≤ 2 ^ 20
  size : fileSize < 2 ^ 63

/-- What the callers of `waitForInFlight` pass: the length of a chunk or of a slot has 32 bits. -/
def Chunked (ranges : List ByteRange) : Prop := ∀ r ∈ ranges, r.1 < 2 ^ 64 ∧ r.2 < 2 ^ 32

theorem pageOf_iff {pageSize : Nat} (hpos : 0 < pageSize) {r : ByteRange} (hlen : 0 < r.2)
    {i : Nat} : PageOf pageSize r i ↔ r.1 / pageSize ≤ i ∧ i ≤ (r.1 + r.2 - 1) / pageSize := by
  rw [PageOf, Nat.le_div_iff_mul_le hpos, ← Nat.lt_succ_iff, Nat.div_lt_iff_lt_mul hpos,
    Nat.succ_mul]
  omega

/-- Of a range that passes the guard of the scan: its pages in the file are the ones scanned, and
what is scanned are its pages. -/
theorem scanned_pages {fileSize : Nat} (hgeo : PageGeometry pageSize fileSize)
    (hr : r.1 < 2 ^ 64 ∧ r.2 < 2 ^ 32) (hguard : ¬ (r.2 = 0 ∨ fileSize < add64 r.1 r.2)) (i : Nat) :
    (PageOf pageSize r i → i * pageSize < fileSize →
        r.1 / pageSize ≤ i ∧ i ≤ sub64 (add64 r.1 r.2) 1 / pageSize) ∧
      (r.1 / pageSize ≤ i → i ≤ sub64 (add64 r.1 r.2) 1 / pageSize → PageOf pageSize r i) := by
  have hpos := hgeo.pos
  have hle := hgeo.le
  have hsize := hgeo.size
  rw [not_or, Nat.not_lt] at hguard
  obtain ⟨hlen, hend⟩ := hguard
  by_cases hwrap : r.1 + r.2 < 2 ^ 64
  · have hsum : add64 r.1 r.2 = r.1 + r.2 := Nat.mod_eq_of_lt hwrap
    have hiff := @pageOf_iff pageSize hpos r (by omega) i
    rw [hsum, sub64_of_le (by omega) hwrap]
    exact ⟨fun h _ => hiff.1 h, fun h1 h2 => hiff.2 ⟨h1, h2⟩⟩
  · -- a range that wraps starts far behind the end of the file
    refine ⟨fun hpage hin => ?_, fun hfirst hlast => ?_⟩
    · have hafter := hpage.2
      generalize i * pageSize = q at hin hafter
      omega
    · rw [Nat.le_div_iff_mul_le hpos] at hlast
      rw [← Nat.lt_succ_iff, Nat.div_lt_iff_lt_mul hpos, Nat.succ_mul] at hfirst
      unfold PageOf
      generalize i * pageSize = q at hfirst hlast ⊢
      simp only [sub64, add64] at hlast
      omega

theorem scanRanges_spec {fileSize : Nat} (hgeo : PageGeometry pageSize fileSize) {here : Nat → Bool}
    {ranges : List ByteRange} {saw b : Bool} (hlen : Chunked ranges)
    (h : scanRanges pageSize fileSize flight here ranges saw = some b) :
    (∀ r ∈ ranges, ∀ i, PageOf pageSize r i → i * pageSize < fileSize → here i = false →
        OnWire flight i) ∧
      (b = true → saw = true ∨
        ∃ r ∈ ranges, ∃ i, PageOf pageSize r i ∧ here i = false ∧ OnWire flight i) := by
  induction ranges generalizing saw with
  | nil =>
      cases h
      exact ⟨by simp, Or.inl⟩
  | cons r rest ih =>
      rw [scanRanges] at h
      split at h
      · cases h
      · rename_i hguard
        obtain ⟨saw', hscan, hrest⟩ := Option.bind_eq_some_iff.1 h
        obtain ⟨hwire, hsaw⟩ := scanPages_spec (by omega) hscan
        obtain ⟨hwire', hsaw'⟩ := ih (fun x hx => hlen x (by simp [hx])) hrest
        have hpages := fun i => scanned_pages hgeo (hlen r (by simp)) hguard i
        constructor
        · intro x hx i hpage hin habs
          rcases List.mem_cons.1 hx with rfl | hx
          · obtain ⟨hlo, hhi⟩ := (hpages i).1 hpage hin
            exact hwire i hlo hhi habs
          · exact hwire' x hx i hpage hin habs
        · intro hb
          rcases hsaw' hb with hb | ⟨x, hx, i, hpage, habs⟩
          · rcases hsaw hb with hb | ⟨i, hlo, hhi, habs⟩
            · exact Or.inl hb
            · exact Or.inr ⟨r, by simp, i, (hpages i).2 hlo hhi, habs, hwire i hlo hhi habs⟩
          · exact Or.inr ⟨x, by simp [hx], i, hpage, habs⟩

/-- `waitForInFlight` parks only when something is on the wire, every absent page of the ranges is,
and some page is absent. -/
theorem Parking.waits_spec {fileSize : Nat} (hgeo : PageGeometry pageSize fileSize) {s : Parking}
    {ranges : List ByteRange} (hlen : Chunked ranges)
    (h : s.waits pageSize fileSize ranges = true) :
    s.flight ≠ [] ∧
      (∀ r ∈ ranges, ∀ i, PageOf pageSize r i → i * pageSize < fileSize → s.here i = false →
        OnWire s.flight i) ∧
      ∃ r ∈ ranges, ∃ i, PageOf pageSize r i ∧ s.here i = false ∧ OnWire s.flight i := by
  simp only [waits, Bool.and_eq_true, Bool.not_eq_true', List.isEmpty_eq_false_iff] at h
  obtain ⟨hflight, hscan⟩ := h
  cases hres : scanRanges pageSize fileSize s.flight s.here ranges false with
  | none => simp [hres] at hscan
  | some b =>
      obtain ⟨hwire, hsaw⟩ := scanRanges_spec hgeo hlen hres
      have hb : b = true := by simpa [hres] using hscan
      exact ⟨hflight, hwire, (hsaw hb).resolve_left (by simp)⟩

/-! ### The invariant -/

variable {t : Nat}

/-- Who calls a ticket: the thread of the first clear after it was parked, or the owner it was parked
behind. -/
def Ticket.CalledBy (clears : List Nat) (t : Nat) : Ticket → Prop
  | .flight _ n => clears[n]? = some t
  | .fetch _ _ o => o = some t

theorem Ticket.CalledBy.append {clears : List Nat} {x : Ticket} (h : x.CalledBy clears t)
    (more : List Nat) : x.CalledBy (clears ++ more) t := by
  cases x with
  | flight cb n =>
      obtain ⟨hn, -⟩ := List.getElem?_eq_some_iff.1 h
      exact (List.getElem?_append_left hn).trans h
  | fetch cb key o => exact h

namespace Parking

/-- The tickets that wait. -/
def waiting (s : Parking) : List Ticket := s.flightWaiters ++ s.inflight.flatMap Prod.snd

structure Inv (pageSize fileSize : Nat) (s : Parking) : Prop where
  flight : s.flight.Perm (s.noted.filterMap (clipPages pageSize fileSize))
  waiters : s.flightWaiters ≠ [] → s.flight ≠ []
  numbered : ∀ x ∈ s.flightWaiters, ∃ cb, x = .flight cb s.clears.length
  once : s.parked.Perm (s.waiting ++ (s.calls ++ s.called).map Prod.snd)
  calledBy : ∀ c ∈ s.calls ++ s.called, c.2.CalledBy s.clears c.1
  owned : (s.owners.map Prod.snd).Perm (s.inflight.map Prod.fst)
  keys : (s.inflight.map Prod.fst).Nodup
  behind : ∀ g ∈ s.inflight, ∀ x ∈ g.2, ∃ cb o, x = .fetch cb g.1 (some o) ∧ (o, g.1) ∈ s.owners

variable {pageSize fileSize : Nat} {s : Parking}

/-! ### The flight -/

variable {s' : Parking}

theorem eraseRange_perm {rest : List ByteRange}
    (h : flight.Perm ((r :: rest).filterMap (clipPages pageSize fileSize))) :
    (eraseRange pageSize fileSize flight r).Perm
      (rest.filterMap (clipPages pageSize fileSize)) := by
  unfold eraseRange
  cases hclip : clipPages pageSize fileSize r with
  | none => simpa [List.filterMap_cons, hclip] using h
  | some p =>
      rw [List.filterMap_cons, hclip] at h
      simpa using h.erase p

theorem eraseRanges_perm {ranges : List ByteRange} {rest : List ByteRange}
    (h : flight.Perm ((ranges ++ rest).filterMap (clipPages pageSize fileSize))) :
    (ranges.foldl (eraseRange pageSize fileSize) flight).Perm
      (rest.filterMap (clipPages pageSize fileSize)) := by
  induction ranges generalizing flight with
  | nil => exact h
  | cons r ranges ih => exact ih (eraseRange_perm h)

theorem note_inv (h : Inv pageSize fileSize s) (r : ByteRange) :
    Inv pageSize fileSize { s with
      flight := s.flight ++ (clipPages pageSize fileSize r).toList
      noted := s.noted ++ [r] } where
  flight := by
    rw [List.filterMap_append]
    refine h.flight.append ?_
    cases hclip : clipPages pageSize fileSize r <;> simp [hclip]
  waiters hne := by simpa using fun hnil => absurd hnil (h.waiters hne)
  numbered := h.numbered
  once := h.once
  calledBy := h.calledBy
  owned := h.owned
  keys := h.keys
  behind := h.behind

/-- A clear takes out every reader parked on the flight. -/
theorem wake_inv (h : Inv pageSize fileSize s) {noted : List ByteRange}
    (hperm : flight.Perm (noted.filterMap (clipPages pageSize fileSize))) (t : Nat) :
    Inv pageSize fileSize ({ s with flight := flight, noted := noted }.wake t) where
  flight := hperm
  waiters := by simp [wake]
  numbered := by simp [wake]
  once := by
    have honce := h.once
    rw [List.perm_iff_count] at honce ⊢
    intro x
    have hx := honce x
    simp only [wake, waiting, List.map_append, List.count_append, List.nil_append, List.map_map,
      Function.comp_def, List.map_id'] at hx ⊢
    omega
  calledBy := by
    intro c hc
    simp only [wake, List.mem_append, List.mem_map] at hc
    rcases hc with (hc | ⟨x, hx, rfl⟩) | hc
    · exact (h.calledBy c (by simp [hc])).append [t]
    · obtain ⟨cb, rfl⟩ := h.numbered x hx
      exact List.getElem?_concat_length
    · exact (h.calledBy c (by simp [hc])).append [t]
  owned := h.owned
  keys := h.keys
  behind := h.behind

theorem clear_inv (h : Inv pageSize fileSize s)
    (hstep : s.step pageSize fileSize (.clearFetchInFlight t r) = some s') :
    Inv pageSize fileSize s' := by
  simp only [step] at hstep
  split at hstep
  · rename_i hmem
    have hperm : s.flight.Perm
        ((r :: s.noted.erase r).filterMap (clipPages pageSize fileSize)) :=
      h.flight.trans ((List.perm_cons_erase hmem).filterMap _)
    have hrest := eraseRange_perm hperm
    split at hstep
    · cases hstep
      exact wake_inv h hrest t
    · rename_i hclip
      cases hstep
      -- a range that was never in the flight
      have hnone : clipPages pageSize fileSize r = none := by simpa using hclip
      rw [eraseRange, hnone] at hrest
      exact ⟨hrest, h.waiters, h.numbered, h.once, h.calledBy, h.owned, h.keys, h.behind⟩
  · cases hstep

theorem clears_inv (h : Inv pageSize fileSize s) {ranges : List ByteRange}
    (hstep : s.step pageSize fileSize (.clearFetchesInFlight t ranges) = some s') :
    Inv pageSize fileSize s' := by
  simp only [step] at hstep
  split at hstep
  · rename_i hsub
    cases hstep
    have hsplit : (ranges ++ s.noted.diff ranges).Perm s.noted :=
      List.subperm_append_diff_self_of_count_le (List.subperm_ext_iff.1 hsub)
    exact wake_inv h (eraseRanges_perm (h.flight.trans (hsplit.symm.filterMap _))) t
  · cases hstep

theorem wait_inv (h : Inv pageSize fileSize s) {ranges : List ByteRange} {cb : Nat}
    (hstep : s.step pageSize fileSize (.waitForInFlight ranges cb) = some s') :
    Inv pageSize fileSize s' := by
  simp only [step] at hstep
  split at hstep
  · rename_i hwaits
    cases hstep
    simp only [waits, Bool.and_eq_true, Bool.not_eq_true', List.isEmpty_eq_false_iff] at hwaits
    refine ⟨h.flight, fun _ => hwaits.1, ?_, ?_, h.calledBy, h.owned, h.keys, h.behind⟩
    · intro x hx
      rcases List.mem_append.1 hx with hx | hx
      · exact h.numbered x hx
      · exact ⟨cb, by simpa using hx⟩
    · have honce := h.once
      rw [List.perm_iff_count] at honce ⊢
      intro x
      have hx := honce x
      simp only [waiting, List.count_append] at hx ⊢
      omega
  · cases hstep
    exact h

/-! ### The gate of a fetch -/

/-- The one entry of the registry for a range. -/
theorem lookup_split {inflight : List (ByteRange × List Ticket)} {ws : List Ticket}
    (hnodup : (inflight.map Prod.fst).Nodup) (h : inflight.lookup r = some ws) :
    ∃ l₁ l₂, inflight = l₁ ++ (r, ws) :: l₂ ∧ (∀ g ∈ l₁, g.1 ≠ r) ∧ ∀ g ∈ l₂, g.1 ≠ r := by
  obtain ⟨l₁, l₂, rfl, hl₁⟩ := List.lookup_eq_some_iff.1 h
  refine ⟨l₁, l₂, rfl, fun g hg heq => by simpa [heq] using hl₁ g hg, ?_⟩
  rintro g hg rfl
  rw [List.map_append, List.map_cons, List.nodup_append, List.nodup_cons] at hnodup
  exact hnodup.2.1.1 (List.mem_map.2 ⟨g, hg, rfl⟩)

theorem setWaiters_split {l₁ l₂ : List (ByteRange × List Ticket)} {r : ByteRange}
    {ws : List Ticket} (h1 : ∀ g ∈ l₁, g.1 ≠ r) (h2 : ∀ g ∈ l₂, g.1 ≠ r) (x : Ticket) :
    setWaiters (l₁ ++ (r, ws) :: l₂) r x = l₁ ++ (r, ws ++ [x]) :: l₂ := by
  have hkeep : ∀ {l : List (ByteRange × List Ticket)}, (∀ g ∈ l, g.1 ≠ r) →
      (l.map fun g => if g.1 = r then (g.1, g.2 ++ [x]) else g) = l := by
    intro l hl
    rw [List.map_congr_left (fun g hg => if_neg (hl g hg)), List.map_id']
  rw [setWaiters, List.map_append, List.map_cons, hkeep h1, hkeep h2, if_pos rfl]

theorem filter_split {l₁ l₂ : List (ByteRange × List Ticket)} {r : ByteRange} {ws : List Ticket}
    (h1 : ∀ g ∈ l₁, g.1 ≠ r) (h2 : ∀ g ∈ l₂, g.1 ≠ r) :
    ((l₁ ++ (r, ws) :: l₂).filter fun g => decide (g.1 ≠ r)) = l₁ ++ l₂ := by
  have hkeep : ∀ {l : List (ByteRange × List Ticket)}, (∀ g ∈ l, g.1 ≠ r) →
      (l.filter fun g => decide (g.1 ≠ r)) = l :=
    fun hl => List.filter_eq_self.2 fun g hg => by simp [hl g hg]
  rw [List.filter_append, hkeep h1, List.filter_cons_of_neg (by simp), hkeep h2]

/-- A range is in the registry exactly while somebody owns its fetch. -/
theorem Inv.owner_iff (h : Inv pageSize fileSize s) :
    (∃ t, (t, r) ∈ s.owners) ↔ (s.inflight.lookup r).isSome := by
  have hmem : r ∈ s.owners.map Prod.snd ↔ r ∈ s.inflight.map Prod.fst := h.owned.mem_iff
  have howner : (∃ t, (t, r) ∈ s.owners) ↔ r ∈ s.owners.map Prod.snd := by simp
  rw [howner, hmem, Option.isSome_iff_ne_none, ne_eq, List.lookup_eq_none_iff, List.mem_map]
  constructor
  · rintro ⟨g, hg, rfl⟩ hnone
    simpa using hnone g hg
  · intro hsome
    by_contra hnone
    refine hsome fun g hg => ?_
    simpa using fun heq : r = g.1 => hnone ⟨g, hg, heq.symm⟩

/-- Nobody else owns it. -/
theorem Inv.owner_unique (h : Inv pageSize fileSize s) {t' : Nat} (ht : (t, r) ∈ s.owners)
    (ht' : (t', r) ∈ s.owners) : t = t' := by
  have hnodup : (s.owners.map Prod.snd).Nodup := h.owned.nodup_iff.2 h.keys
  exact congrArg Prod.fst (List.inj_on_of_nodup_map hnodup ht ht' rfl)

theorem ownerOf_eq (h : Inv pageSize fileSize s) (hsome : (s.inflight.lookup r).isSome) :
    ∃ o, s.ownerOf r = some o ∧ (o, r) ∈ s.owners := by
  obtain ⟨t, ht⟩ := h.owner_iff.2 hsome
  cases hfind : s.owners.find? fun o => decide (o.2 = r) with
  | none => exact absurd (List.find?_eq_none.1 hfind _ ht) (by simp)
  | some o =>
      have hkey : o.2 = r := by simpa using List.find?_some hfind
      refine ⟨o.1, by rw [ownerOf, hfind]; rfl, ?_⟩
      rw [← hkey]
      exact List.mem_of_find?_eq_some hfind

theorem begin_inv (h : Inv pageSize fileSize s) {cb : Nat}
    (hstep : s.step pageSize fileSize (.beginFetch t r cb) = some s') :
    Inv pageSize fileSize s' := by
  simp only [step] at hstep
  cases hlook : s.inflight.lookup r with
  | none =>
      simp only [hlook, Option.some.injEq] at hstep
      subst hstep
      have habs : ∀ g ∈ s.inflight, g.1 ≠ r := by
        rintro g hg rfl
        have hne := List.lookup_eq_none_iff.1 hlook g hg
        simp at hne
      refine ⟨h.flight, h.waiters, h.numbered, ?_, h.calledBy, ?_, ?_, ?_⟩
      · simpa [waiting] using h.once
      · simpa using h.owned.append_right [r]
      · rw [List.map_append, List.nodup_append]
        refine ⟨h.keys, by simp, ?_⟩
        intro k hk k' hk'
        obtain ⟨g, hg, rfl⟩ := List.mem_map.1 hk
        obtain rfl : k' = r := by simpa using hk'
        exact habs g hg
      · intro g hg x hx
        rcases List.mem_append.1 hg with hg | hg
        · obtain ⟨cb, o, hxo, ho⟩ := h.behind g hg x hx
          exact ⟨cb, o, hxo, by simp [ho]⟩
        · obtain rfl : g = (r, []) := by simpa using hg
          cases hx
  | some ws =>
      simp only [hlook, Option.some.injEq] at hstep
      subst hstep
      obtain ⟨o, howner, ho⟩ := ownerOf_eq h (Option.isSome_iff_exists.2 ⟨ws, hlook⟩)
      obtain ⟨l₁, l₂, hsplit, h1, h2⟩ := lookup_split h.keys hlook
      have hset := @setWaiters_split l₁ l₂ r ws h1 h2 (Ticket.fetch cb r (s.ownerOf r))
      have honce := h.once
      have howned := h.owned
      have hkeys := h.keys
      have hbehind := h.behind
      rw [hsplit] at howned hkeys hbehind
      simp only [waiting, hsplit] at honce
      refine ⟨h.flight, h.waiters, h.numbered, ?_, h.calledBy, ?_, ?_, ?_⟩
      · simp only [waiting, hsplit, hset]
        rw [List.perm_iff_count] at honce ⊢
        intro x
        have hx := honce x
        simp only [List.flatMap_append, List.flatMap_cons, List.count_append] at hx ⊢
        omega
      · simpa [hsplit, hset] using howned
      · simpa [hsplit, hset] using hkeys
      · simp only [hsplit, hset]
        intro g hg x hx
        rcases List.mem_append.1 hg with hg | hg
        · exact hbehind g (by simp [hg]) x hx
        · rcases List.mem_cons.1 hg with rfl | hg
          · rcases List.mem_append.1 hx with hx | hx
            · exact hbehind (r, ws) (by simp) x hx
            · exact ⟨cb, o, by simpa [howner] using hx, ho⟩
          · exact hbehind g (by simp [hg]) x hx

theorem end_inv (h : Inv pageSize fileSize s)
    (hstep : s.step pageSize fileSize (.endFetch t r) = some s') : Inv pageSize fileSize s' := by
  simp only [step] at hstep
  split at hstep
  · rename_i hown
    cases hstep
    obtain ⟨ws, hlook⟩ := Option.isSome_iff_exists.1 (h.owner_iff.1 ⟨t, hown⟩)
    obtain ⟨l₁, l₂, hsplit, h1, h2⟩ := lookup_split h.keys hlook
    have hfilter := @filter_split l₁ l₂ r ws h1 h2
    have honce := h.once
    have howned := h.owned
    have hkeys := h.keys
    have hbehind := h.behind
    rw [hsplit] at howned hkeys hbehind
    simp only [waiting, hsplit] at honce
    refine ⟨h.flight, h.waiters, h.numbered, ?_, ?_, ?_, ?_, ?_⟩
    · rw [hlook]
      simp only [waiting, Option.getD_some, hsplit, hfilter]
      rw [List.perm_iff_count] at honce ⊢
      intro x
      have hx := honce x
      simp only [List.flatMap_append, List.flatMap_cons, List.count_append, List.map_append,
        List.map_map, Function.comp_def, List.map_id'] at hx ⊢
      omega
    · intro c hc
      simp only [hlook, Option.getD_some, List.mem_append, List.mem_map] at hc
      rcases hc with (hc | ⟨x, hx, rfl⟩) | hc
      · exact h.calledBy c (by simp [hc])
      · obtain ⟨cb, o, rfl, ho⟩ := hbehind (r, ws) (by simp) x hx
        exact congrArg some (h.owner_unique ho hown)
      · exact h.calledBy c (by simp [hc])
    · simp only [hsplit, hfilter]
      have hcons := (List.perm_cons_erase hown).map Prod.snd
      rw [List.map_cons] at hcons
      have hmid : (l₁ ++ (r, ws) :: l₂).map Prod.fst |>.Perm (r :: (l₁ ++ l₂).map Prod.fst) :=
        List.perm_middle.map Prod.fst
      exact List.Perm.cons_inv (hcons.symm.trans (howned.trans hmid))
    · simp only [hsplit, hfilter]
      exact hkeys.sublist ((List.sublist_cons_self _ _).append_left l₁ |>.map Prod.fst)
    · simp only [hsplit, hfilter]
      intro g hg x hx
      have hne : g.1 ≠ r := (List.mem_append.1 hg).elim (h1 g) (h2 g)
      have hg' : g ∈ l₁ ++ (r, ws) :: l₂ := by
        rcases List.mem_append.1 hg with hg | hg <;> simp [hg]
      obtain ⟨cb, o, hxo, ho⟩ := hbehind g hg' x hx
      exact ⟨cb, o, hxo, (List.mem_erase_of_ne (by simp [hne])).2 ho⟩
  · cases hstep

theorem call_inv (h : Inv pageSize fileSize s)
    (hstep : s.step pageSize fileSize (.call t) = some s') : Inv pageSize fileSize s' := by
  simp only [step] at hstep
  cases hfind : s.calls.find? fun c => decide (c.1 = t) with
  | none => simp [hfind] at hstep
  | some c =>
      simp only [hfind, Option.some.injEq] at hstep
      subst hstep
      have hmem := List.mem_of_find?_eq_some hfind
      have hmove : (s.calls.erase c ++ (s.called ++ [c])).Perm (s.calls ++ s.called) := by
        have hcons := List.perm_cons_erase hmem
        rw [List.perm_iff_count] at hcons ⊢
        intro x
        have hx := hcons x
        simp only [List.count_append, List.count_cons, List.count_nil] at hx ⊢
        omega
      refine ⟨h.flight, h.waiters, h.numbered, ?_, ?_, h.owned, h.keys, h.behind⟩
      · exact h.once.trans ((hmove.symm.map Prod.snd).append_left _)
      · exact fun c' hc' => h.calledBy c' (hmove.mem_iff.1 hc')

theorem step_inv (h : Inv pageSize fileSize s) {a : ParkingAct}
    (hstep : s.step pageSize fileSize a = some s') : Inv pageSize fileSize s' := by
  cases a with
  | noteFetchInFlight r =>
      cases hstep
      exact note_inv h r
  | clearFetchInFlight t r => exact clear_inv h hstep
  | clearFetchesInFlight t ranges => exact clears_inv h hstep
  | waitForInFlight ranges cb => exact wait_inv h hstep
  | beginFetch t r cb => exact begin_inv h hstep
  | endFetch t r => exact end_inv h hstep
  | call t => exact call_inv h hstep
  | pages here =>
      cases hstep
      exact ⟨h.flight, h.waiters, h.numbered, h.once, h.calledBy, h.owned, h.keys, h.behind⟩

theorem empty_inv : Inv pageSize fileSize {} where
  flight := List.Perm.nil
  waiters := by simp
  numbered := by simp
  once := List.Perm.nil
  calledBy := by simp
  owned := List.Perm.nil
  keys := List.nodup_nil
  behind := by simp

/-- A page on the wire is a page of the file. -/
theorem Inv.onWire (h : Inv pageSize fileSize s) (hpos : 0 < pageSize) {i : Nat}
    (hi : OnWire s.flight i) : i * pageSize < fileSize := by
  obtain ⟨p, hp, -, hlt⟩ := hi
  obtain ⟨r, -, hclip⟩ := List.mem_filterMap.1 (h.flight.mem_iff.1 hp)
  unfold clipPages at hclip
  split at hclip
  · cases hclip
  · simp only at hclip
    split at hclip
    · cases hclip
    · cases hclip
      -- the end of the range is cut at the file's, and rounded up to a page
      have hstop : min (add64 r.1 r.2) fileSize ≤ fileSize := Nat.min_le_right _ _
      have hround := (Nat.le_div_iff_mul_le hpos).1 hlt
      rw [Nat.succ_mul] at hround
      generalize i * pageSize = q at hround ⊢
      omega

end Parking

/-- What holds of the registries of an entry at any time. -/
structure NobodyLost (pageSize fileSize : Nat) (s : Parking) : Prop where
  /-- The flight holds the page ranges noted and not cleared, each as often as it was noted. -/
  flight : s.flight.Perm (s.noted.filterMap (clipPages pageSize fileSize))
  /-- Readers are parked on the flight only while something is on the wire, and since the last clear
  that wakes. -/
  waiters : s.flightWaiters ≠ [] → s.flight ≠ []
  numbered : ∀ x ∈ s.flightWaiters, ∃ cb, x = .flight cb s.clears.length
  /-- Who was parked is waiting, about to be called or was called: one of these, once. -/
  once : s.parked.Perm (s.waiting ++ (s.calls ++ s.called).map Prod.snd)
  /-- A reader of the flight is called by the first clear after it parked, one behind a fetch by the
  owner of that fetch. -/
  calledBy : ∀ c ∈ s.calls ++ s.called, c.2.CalledBy s.clears c.1
  /-- `waitForInFlight` parks nobody whose absent pages are not all coming. -/
  waits : ∀ ranges, Chunked ranges → s.waits pageSize fileSize ranges = true →
    s.flight ≠ [] ∧
      (∀ r ∈ ranges, ∀ i, PageOf pageSize r i → i * pageSize < fileSize → s.here i = false →
        OnWire s.flight i) ∧
      ∃ r ∈ ranges, ∃ i, PageOf pageSize r i ∧ i * pageSize < fileSize ∧ s.here i = false
  /-- One owner for each range, and who is parked at its gate is behind that owner. -/
  owners : (s.owners.map Prod.snd).Nodup
  behind : ∀ g ∈ s.inflight, ∀ x ∈ g.2, ∃ cb o, x = .fetch cb g.1 (some o) ∧ (o, g.1) ∈ s.owners
  /-- When every range is cleared and every owner has ended nobody is parked. -/
  drained : s.noted = [] → s.owners = [] →
    s.waiting = [] ∧ (s.calls = [] → s.parked.Perm (s.called.map Prod.snd))

theorem Parking.Inv.nobodyLost {fileSize : Nat} (hgeo : PageGeometry pageSize fileSize)
    {s : Parking} (h : Parking.Inv pageSize fileSize s) : NobodyLost pageSize fileSize s where
  flight := h.flight
  waiters := h.waiters
  numbered := h.numbered
  once := h.once
  calledBy := h.calledBy
  waits := by
    intro ranges hlen hwaits
    obtain ⟨hflight, hwire, r, hr, i, hpage, habs, hon⟩ := Parking.waits_spec hgeo hlen hwaits
    exact ⟨hflight, hwire, r, hr, i, hpage, h.onWire hgeo.pos hon, habs⟩
  owners := h.owned.nodup_iff.2 h.keys
  behind := h.behind
  drained := by
    intro hnoted howners
    have hflight : s.flight = [] := by simpa [hnoted] using h.flight
    have hwaiters : s.flightWaiters = [] := by
      by_contra hne
      exact h.waiters hne hflight
    have hinflight : s.inflight = [] := by simpa [howners] using h.owned
    have hwaiting : s.waiting = [] := by simp [Parking.waiting, hwaiters, hinflight]
    refine ⟨hwaiting, fun hcalls => ?_⟩
    simpa [hwaiting, hcalls] using h.once

/-- **Parking loses no reader**, in any interleaving of the operations of any number of threads.  A
clear of one range that does not count as a clear is one of a range that is empty or lies past the
end of the file. -/
theorem parking_loses_no_reader {pageSize fileSize : Nat} (hgeo : PageGeometry pageSize fileSize)
    (acts : List ParkingAct) (s : Parking)
    (hrun : exec (Parking.step pageSize fileSize) {} acts = some s) :
    NobodyLost pageSize fileSize s ∧
      ∀ r : ByteRange, r.1 + r.2 < 2 ^ 64 →
        (clipPages pageSize fileSize r = none ↔ r.2 = 0 ∨ fileSize ≤ r.1) := by
  have hinv : Parking.Inv pageSize fileSize s :=
    exec_invariant (Parking.Inv pageSize fileSize) (fun _ _ _ h hstep => Parking.step_inv h hstep)
      Parking.empty_inv hrun
  exact ⟨hinv.nobodyLost hgeo, fun r hr => clipPages_eq_none hr⟩

/-- A reader parks on a read-ahead and another behind the owner of a fetch; both are called. -/
def parkAndCall : List ParkingAct :=
  [.noteFetchInFlight (0, 8192), .waitForInFlight [(100, 50)] 7, .beginFetch 1 (0, 4096) 8,
    .beginFetch 2 (0, 4096) 9, .clearFetchesInFlight 3 [(0, 8192)], .call 3, .endFetch 1 (0, 4096),
    .call 1]

/-- A reader of each registry parks, and both are called. -/
theorem parking_loses_no_reader_drained :
    ∃ s, exec (Parking.step 4096 10000) {} parkAndCall = some s ∧
      s.called = [(3, .flight 7 0), (1, .fetch 9 (0, 4096) (some 1))] ∧
        NobodyLost 4096 10000 s ∧ s.parked.Perm (s.called.map Prod.snd) := by
  have hobs : (exec (Parking.step 4096 10000) {} parkAndCall).map
      (fun s => decide (s.called = [(3, .flight 7 0), (1, .fetch 9 (0, 4096) (some 1))]) &&
        s.noted.isEmpty && s.owners.isEmpty && s.calls.isEmpty) = some true := by decide +kernel
  obtain ⟨s, hrun, hobs⟩ := Option.map_eq_some_iff.1 hobs
  simp only [Bool.and_eq_true, decide_eq_true_eq, List.isEmpty_iff] at hobs
  obtain ⟨⟨⟨hcalled, hnoted⟩, howners⟩, hcalls⟩ := hobs
  have hsound := (parking_loses_no_reader ⟨by decide, by decide, by decide⟩ _ s hrun).1
  exact ⟨s, hrun, hcalled, hsound, (hsound.drained hnoted howners).2 hcalls⟩

end UCache
