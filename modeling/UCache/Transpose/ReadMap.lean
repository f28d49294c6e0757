/-
Module: UCache.Transpose.ReadMap
Purpose: The units of a file's data, and the groups of units a list of ranges reads.
Trusted boundary: none
Main exports: ReadMap, fromTree, fromRNTuple
-/
import UCache.Lib.Search
import UCache.Lib.SortedLists
import UCache.Lib.Spans
import UCache.Transpose.RNTupleLayout
import UCache.Transpose.TreeOverlay

namespace UCache

open Lib

/-! ### The units of a file -/

/-- [SRC ReadMap.h:93-96] A basket or a page, and the branch or the column it is of. -/
structure ReadUnit where
  off : Nat := 0
  len : Nat := 0
  group : Nat := 0
deriving DecidableEq, Repr

/-- [SRC ReadMap.cc:128] Its end in 64 bits. -/
def ReadUnit.stop (u : ReadUnit) : Nat := add64 u.off u.len

/-- [SRC ReadMap.h:90-99] -/
structure ReadMap where
  rnt : Bool := false
  headSkip : Nat := 0
  units : List ReadUnit := []
  groupBytes : List Nat := []
  total : Nat := 0
deriving DecidableEq, Repr

namespace ReadMap

def kRNTupleHead : Nat := 128 * 1024

/-- [SRC ReadMap.cc:16-32] The units in the order of their offsets, through an index of 32 bits. -/
def sortUnits (units : List ReadUnit) : List ReadUnit :=
  let idx := (List.range units.length).map fun i => i % 2 ^ 32
  let sorted := idx.mergeSort fun a b => (units.getD a {}).off ≤ (units.getD b {}).off
  sorted.map fun i => units.getD i {}

/-- [SRC ReadMap.cc:52-56] The bytes of each group. -/
def bytesByGroup (groups : Nat) (units : List ReadUnit) : List Nat :=
  units.foldl (fun bytes u => bytes.modify u.group fun n => add64 n u.len)
    (List.replicate groups 0)

def totalBytes (units : List ReadUnit) : Nat := units.foldl (fun n u => add64 n u.len) 0

/-- [SRC ReadMap.cc:40-50] The baskets of one branch. -/
def unitsOfBranch (b : BranchInfo) (group : Nat) : List ReadUnit :=
  if b.externalFile then []
  else
    (b.basketSeek.zip b.basketBytes).filterMap fun p =>
      if p.1 ≤ 0 ∨ p.2 ≤ 0 then none
      else some { off := u64 p.1, len := (p.2 % 2 ^ 32).toNat, group := group % 2 ^ 32 }

/-- [SRC ReadMap.cc:35-58] -/
def fromTree (fm : FileMeta) : ReadMap :=
  let units := sortUnits (fm.branches.zipIdx.flatMap fun p => unitsOfBranch p.1 p.2)
  { units := units
    groupBytes := bytesByGroup (fm.branches.length % 2 ^ 32) units
    total := totalBytes units }

/-- [SRC ReadMap.cc:65-73] -/
def unitsOfRange (cr : ColumnRange) : List ReadUnit :=
  cr.pages.filterMap fun p =>
    if p.nbytes = 0 then none
    else some { off := p.offset, len := storedLen p.nbytes p.hasChecksum % 2 ^ 32,
                group := cr.columnId }

/-- [SRC ReadMap.cc:77-84] The first of the units at one offset is kept. -/
def keepFirst (kept : List ReadUnit) (u : ReadUnit) : List ReadUnit :=
  if kept.getLast?.map ReadUnit.off = some u.off then kept else kept ++ [u]

/-- [SRC ReadMap.cc:60-94] -/
def fromRNTuple (rm : RNTupleMeta) : ReadMap :=
  let all := rm.ranges.flatMap unitsOfRange
  let maxColumn := (all.map ReadUnit.group).foldl max 0
  let units := (sortUnits all).foldl keepFirst []
  { rnt := true
    headSkip := kRNTupleHead
    units := units
    groupBytes := bytesByGroup (if units = [] then 0 else maxColumn + 1) units
    total := totalBytes units }

/-! ### What a request reads -/

variable (m : ReadMap)

/-- [SRC ReadMap.cc:106-110] A range without what is not counted, if anything is left. -/
def clip (r : Nat × Nat) : Option (Nat × Nat) :=
  if r.2 = 0 ∨ add64 r.1 r.2 < r.1 then none
  else if max r.1 m.headSkip < add64 r.1 r.2 then some (max r.1 m.headSkip, add64 r.1 r.2)
  else none

/-- [SRC ReadMap.cc:103-119] Sorted and merged. -/
def mergeRanges (ranges : List (Nat × Nat)) : List (Nat × Nat) :=
  ((ranges.filterMap m.clip).mergeSort fun p q => p.1 < q.1 || (p.1 = q.1 && p.2 ≤ q.2)).foldl
    addSpan []

/-- [SRC ReadMap.cc:122-126] The last unit that starts at or before `a`, or the first one. -/
def firstUnit (a : Nat) : Nat := search (fun u => decide (u.off ≤ a)) m.units - 1

/-- [SRC ReadMap.cc:124-127] The units looked at for a range, with their numbers. -/
def unitsFrom (r : Nat × Nat) : List (ReadUnit × Nat) :=
  (m.units.zipIdx.drop (m.firstUnit r.1)).takeWhile fun p => p.1.off < r.2

/-- [SRC ReadMap.cc:128-130] The units a range covers, with the bytes covered. -/
def coveredBy (r : Nat × Nat) : List (Nat × Nat) :=
  (m.unitsFrom r).filterMap fun p =>
    if r.1 < p.1.stop then
      some (p.2 % 2 ^ 32, sub64 (min r.2 p.1.stop) (max r.1 p.1.off))
    else none

/-- [SRC ReadMap.cc:135-140] The group of a unit at least half of which is covered. -/
def halfCovered (p : Nat × Nat) : Option Nat :=
  match m.units[p.1]? with
  | some u => if u.len ≤ 2 * p.2 % 2 ^ 64 then some u.group else none
  | none => none

/-- [SRC ReadMap.cc:96-145] -/
def groupsOf (ranges : List (Nat × Nat)) : List Nat :=
  let covered := (m.mergeRanges ranges).flatMap m.coveredBy
  let sorted := covered.mergeSort fun p q => p.1 < q.1 || (p.1 = q.1 && p.2 ≤ q.2)
  let sums := (sorted.foldl (addByKey (2 ^ 64)) []).reverse
  unique ((sums.filterMap m.halfCovered).mergeSort fun a b => a ≤ b)

/-- [SRC ReadMap.h:48-52] -/
structure Share where
  asked : Nat := 0
  total : Nat := 0
  groups : Nat := 0
deriving DecidableEq, Repr

/-- [SRC ReadMap.cc:147-156] -/
def weigh (groups : List Nat) : Share :=
  groups.foldl
    (fun s g =>
      match m.groupBytes[g]? with
      | some n => { s with asked := add64 s.asked n, groups := (s.groups + 1) % 2 ^ 32 }
      | none => s)
    { total := m.total }

/-- [SRC ReadMap.cc:158-160] -/
def exceeds (s : Share) (limitPercent : Int) : Bool :=
  s.total ≠ 0 && u64 limitPercent * s.total % 2 ^ 64 < s.asked * 100 % 2 ^ 64

/-- [SRC ReadMap.cc:162-181] The decision, the groups seen so far, and their share. -/
def step (seen : List Nat) (ranges : List (Nat × Nat)) (limitPercent : Int) :
    Int × List Nat × Share :=
  let now := m.groupsOf ranges
  if now = [] then (-1, seen, m.weigh seen)
  else
    let all := setUnion seen now
    let out := m.weigh all
    if exceeds out limitPercent then (1, all, out)
    else if 2 ≤ now.length ∧ ¬ seen.length < all.length then (0, all, out) else (-1, all, out)

/-- [SRC ReadMap.cc:183-196] -/
def touches (off len : Nat) : Bool :=
  if m.units = [] ∨ len = 0 then false
  else if add64 off len ≤ max off m.headSkip then false
  else (m.unitsFrom (max off m.headSkip, add64 off len)).any fun p =>
    max off m.headSkip < p.1.stop

/-- [SRC ReadMap.cc:198-210] -/
def dataRuns : List (Nat × Nat) :=
  m.units.foldl
    (fun runs u =>
      if u.stop ≤ max u.off m.headSkip then runs
      else addSpan runs (max u.off m.headSkip, u.stop)) []

end ReadMap

end UCache
