/-
Module: UCache.Plugin.BasketMap
Purpose: The basket map that read-ahead works from: which branch a basket is of, and which baskets
  a request is made of.
Trusted boundary: none
Main exports: BasketTable, BasketTable.build, basket_table_exact
-/
import UCache.Lib.Loop
import UCache.Lib.Search
import UCache.Transpose.TreeOverlay

namespace UCache

open Lib

/-! ### The table -/

/-- [SRC Prefetch.cc:47-54] The baskets of a file, branch behind branch: branch `b` has those from
`boff b` on, `nb b` of them. -/
structure BasketTable where
  names : List Bytes := []
  nb : List Nat := []
  boff : List Nat := []
  seek : List Int := []
  size : List Int := []
  es : List Int := []
  sortedSeek : List Int := []
  sortedIdx : List Nat := []
  fileSize : Int := 0
deriving DecidableEq, Repr

namespace BasketTable

/-- [SRC Prefetch.cc:62-65] -/
def branchOf (t : BasketTable) (g : Nat) : Nat := search (fun o => decide (o ≤ g)) t.boff - 1

/-- [SRC Prefetch.cc:66] -/
def indexOf (t : BasketTable) (g : Nat) : Nat := g - t.boff.getD (t.branchOf g) 0

/-- [SRC Prefetch.cc:72-83] A branch with its baskets. -/
def addBranch (t : BasketTable) (br : BranchInfo) : BasketTable :=
  let n := br.basketSeek.length % 2 ^ 32
  { t with
    names := t.names ++ [br.name]
    boff := t.boff ++ [t.seek.length % 2 ^ 32]
    nb := t.nb ++ [n]
    seek := t.seek ++ br.basketSeek.take n
    size := t.size ++ (List.range n).map fun i => br.basketBytes.getD i 0
    es := t.es ++ (List.range n).map fun i => br.basketEntry.getD i 0 }

/-- [SRC Prefetch.cc:68-93] -/
def build (fm : FileMeta) (fileSize : Int) : BasketTable :=
  let t := fm.branches.foldl addBranch { fileSize := fileSize }
  let idx := (List.range t.seek.length).insertionSort fun a b => t.seek.getD a 0 ≤ t.seek.getD b 0
  { t with
    sortedIdx := idx
    sortedSeek := idx.map fun g => t.seek.getD g 0 }

/-- [SRC Prefetch.cc:104-112] The baskets that lie one behind the other from `cur` on, and where the
last of them ends. -/
def runFrom (t : BasketTable) (stop : Nat) : List (Int × Nat) → Nat → List Nat × Nat
  | [], cur => ([], cur)
  | (s, g) :: rest, cur =>
      if cur < stop ∧ u64 s = cur then
        let r := runFrom t stop rest (add64 cur (u64 (t.size.getD g 0)))
        (g :: r.1, r.2)
      else ([], cur)

/-- [SRC Prefetch.cc:95-118] The run of baskets that a chunk is made of. -/
def decompose (t : BasketTable) (off len : Nat) : Option (List Nat) :=
  let k := search (fun s => decide (s < Lib.signed 8 off)) t.sortedSeek
  match t.sortedSeek[k]? with
  | none => none
  | some s =>
      if u64 s ≠ off then none
      else
        let stop := add64 off len
        let r := t.runFrom stop ((t.sortedSeek.zip t.sortedIdx).drop k) off
        if r.2 < stop then none else some r.1

/-! ### What it is to say -/

def seekOf (t : BasketTable) (g : Nat) : Int := t.seek.getD g 0

def sizeOf (t : BasketTable) (g : Nat) : Int := t.size.getD g 0

/-- Baskets one behind the other from `cur` on, the last of which is the first to reach `stop`. -/
def IsRun (t : BasketTable) (stop : Nat) : Nat → List Nat → Prop
  | cur, [] => stop ≤ cur
  | cur, g :: gs =>
      cur < stop ∧ g < t.seek.length ∧ t.seekOf g = cur ∧
        IsRun t stop (cur + (t.sizeOf g).toNat) gs

/-- The baskets are where bytes can be, and no two share one. -/
structure Sane (t : BasketTable) : Prop where
  seek : ∀ g, g < t.seek.length → 0 ≤ t.seekOf g
  size : ∀ g, g < t.seek.length → 0 < t.sizeOf g
  stop : ∀ g, g < t.seek.length → t.seekOf g + t.sizeOf g < 2 ^ 63
  apart : ∀ g g', g < t.seek.length → g' < t.seek.length → g ≠ g' →
    t.seekOf g + t.sizeOf g ≤ t.seekOf g' ∨ t.seekOf g' + t.sizeOf g' ≤ t.seekOf g

/-- How many baskets the branches before `b` have. -/
def before (brs : List BranchInfo) (b : Nat) : Nat :=
  ((brs.take b).map fun br => br.basketSeek.length).sum

/-- The table has the baskets of the branches, each where it belongs. -/
structure Holds (t : BasketTable) (brs : List BranchInfo) : Prop where
  names : t.names = brs.map BranchInfo.name
  nb : t.nb = brs.map fun br => br.basketSeek.length
  boff : t.boff = (List.range brs.length).map (before brs)
  total : t.seek.length = before brs brs.length
  sizes : t.size.length = t.seek.length
  starts : t.es.length = t.seek.length
  baskets : ∀ b br, brs[b]? = some br → ∀ i, i < br.basketSeek.length →
    t.seek.getD (before brs b + i) 0 = br.basketSeek.getD i 0 ∧
      t.size.getD (before brs b + i) 0 = br.basketBytes.getD i 0 ∧
      t.es.getD (before brs b + i) 0 = br.basketEntry.getD i 0

/-! ### The branches one behind the other -/

variable {t : BasketTable} {brs : List BranchInfo} {b i g : Nat} {br : BranchInfo}

theorem before_succ (h : brs[b]? = some br) :
    before brs (b + 1) = before brs b + br.basketSeek.length := by
  rw [before, List.take_add_one, h, List.map_append, List.sum_append]
  simp [before]

theorem before_mono {b' : Nat} (h : b ≤ b') : before brs b ≤ before brs b' := by
  induction b', h using Nat.le_induction with
  | base => exact le_refl _
  | succ b' _ ih =>
      refine ih.trans ?_
      cases hb : brs[b']? with
      | none =>
          have hlen := List.getElem?_eq_none_iff.1 hb
          rw [before, before, List.take_of_length_le hlen, List.take_of_length_le (by omega)]
      | some br =>
          rw [before_succ hb]
          exact Nat.le_add_right _ _

theorem before_append (h : b ≤ brs.length) : before (brs ++ [br]) b = before brs b := by
  rw [before, List.take_append_of_le_length h]
  rfl

/-- Every basket is in one of the branches. -/
theorem before_split (h : g < before brs brs.length) :
    ∃ b br, brs[b]? = some br ∧ before brs b ≤ g ∧ g < before brs b + br.basketSeek.length := by
  have hfirst : ∀ n, g < before brs n → ∃ b, before brs b ≤ g ∧ g < before brs (b + 1) := by
    intro n
    induction n with
    | zero =>
        intro hlt
        exact absurd hlt (Nat.not_lt_zero _)
    | succ n ih =>
        intro hlt
        rcases Nat.lt_or_ge g (before brs n) with hn | hn
        · exact ih hn
        · exact ⟨n, hn, hlt⟩
  obtain ⟨b, hle, hlt⟩ := hfirst _ h
  cases hb : brs[b]? with
  | none =>
      have hlen := List.getElem?_eq_none_iff.1 hb
      rw [before, List.take_of_length_le (by omega : brs.length ≤ b + 1)] at hlt
      rw [before, List.take_of_length_le hlen] at hle
      omega
  | some br =>
      rw [before_succ hb] at hlt
      exact ⟨b, br, hb, hle, hlt⟩

/-- The search over the offsets finds the branch: it is the last that starts by the basket, so a
branch without baskets is passed over. -/
theorem Holds.branchOf (h : t.Holds brs) (hb : brs[b]? = some br) (hi : i < br.basketSeek.length) :
    t.branchOf (before brs b + i) = b := by
  have hlen := (List.getElem?_eq_some_iff.1 hb).1
  have hboff : t.boff.length = brs.length := by
    rw [h.boff, List.length_map, List.length_range]
  have hat : ∀ j, j < brs.length → t.boff[j]? = some (before brs j) := by
    intro j hj
    rw [h.boff, List.getElem?_map, List.getElem?_range hj]
    rfl
  have hsorted : t.boff.Pairwise fun x y =>
      decide (y ≤ before brs b + i) = true → decide (x ≤ before brs b + i) = true := by
    rw [h.boff, List.pairwise_map]
    refine List.pairwise_lt_range.imp ?_
    intro x y hxy
    simp only [decide_eq_true_eq]
    exact (before_mono hxy.le).trans
  have hin := (search_iff hsorted (hat b hlen)).1 (by simp)
  have hend : ¬ b + 1 < search (fun o => decide (o ≤ before brs b + i)) t.boff := by
    intro hlt
    have hle := (search_spec (fun o => decide (o ≤ before brs b + i)) t.boff).range.2
    have := (search_iff hsorted (hat (b + 1) (by omega))).2 hlt
    rw [decide_eq_true_eq, before_succ hb] at this
    omega
  unfold BasketTable.branchOf
  omega

theorem Holds.boff_eq (h : t.Holds brs) (hb : brs[b]? = some br) :
    t.boff.getD b 0 = before brs b := by
  have hlen := (List.getElem?_eq_some_iff.1 hb).1
  rw [h.boff, List.getD_eq_getElem?_getD, List.getElem?_map, List.getElem?_range hlen]
  rfl

theorem Holds.indexOf (h : t.Holds brs) (hb : brs[b]? = some br) (hi : i < br.basketSeek.length) :
    t.indexOf (before brs b + i) = i := by
  rw [BasketTable.indexOf, h.branchOf hb hi, h.boff_eq hb, Nat.add_sub_cancel_left]

/-! ### The build -/

/-- Without a count that wraps. -/
theorem addBranch_eq (hn : br.basketSeek.length < 2 ^ 32) (htotal : t.seek.length < 2 ^ 32) :
    t.addBranch br = { t with
      names := t.names ++ [br.name]
      boff := t.boff ++ [t.seek.length]
      nb := t.nb ++ [br.basketSeek.length]
      seek := t.seek ++ br.basketSeek
      size := t.size ++ (List.range br.basketSeek.length).map fun i => br.basketBytes.getD i 0
      es := t.es ++ (List.range br.basketSeek.length).map fun i => br.basketEntry.getD i 0 } := by
  rw [addBranch, Nat.mod_eq_of_lt hn, Nat.mod_eq_of_lt htotal, List.take_length]

/-- What a list has behind another. -/
theorem getD_behind {l : List Int} {n : Nat} (hlen : l.length = n) (f : Nat → Int) {m : Nat}
    (hi : i < m) : (l ++ (List.range m).map f).getD (n + i) 0 = f i := by
  subst hlen
  rw [List.getD_append_right _ _ _ _ (Nat.le_add_right _ _), Nat.add_sub_cancel_left,
    List.getD_eq_getElem?_getD, List.getElem?_map, List.getElem?_range hi]
  rfl

theorem holds_addBranch (h : t.Holds brs) (hn : br.basketSeek.length < 2 ^ 32)
    (htotal : t.seek.length < 2 ^ 32) : (t.addBranch br).Holds (brs ++ [br]) := by
  have hlast : before (brs ++ [br]) (brs ++ [br]).length =
      before brs brs.length + br.basketSeek.length := by
    have hlast : (brs ++ [br])[brs.length]? = some br := by simp
    rw [List.length_append, List.length_singleton, before_succ hlast, before_append (le_refl _)]
  have hold : ∀ j ∈ List.range brs.length, before brs j = before (brs ++ [br]) j := by
    intro j hj
    exact (before_append (List.mem_range.1 hj).le).symm
  rw [addBranch_eq hn htotal]
  constructor
  · simp only [h.names, List.map_append, List.map_singleton]
  · simp only [h.nb, List.map_append, List.map_singleton]
  · simp only [h.boff, h.total, List.length_append, List.length_singleton, List.range_succ,
      List.map_append, List.map_singleton, before_append (le_refl brs.length),
      List.map_congr_left hold]
  · rw [hlast, List.length_append, h.total]
  · simp only [List.length_append, h.sizes, List.length_map, List.length_range]
  · simp only [List.length_append, h.starts, List.length_map, List.length_range]
  · intro b x hb i hi
    rcases Nat.lt_or_ge b brs.length with hlt | hge
    · -- a branch that was there
      rw [List.getElem?_append_left hlt] at hb
      rw [before_append hlt.le]
      have hin : before brs b + i < t.seek.length := by
        have hmono : before brs (b + 1) ≤ before brs brs.length := before_mono hlt
        rw [before_succ hb] at hmono
        rw [h.total]
        omega
      obtain ⟨hseek, hsize, hes⟩ := h.baskets b x hb i hi
      refine ⟨?_, ?_, ?_⟩
      · rw [← hseek, List.getD_append _ _ _ _ hin]
      · rw [← hsize, List.getD_append _ _ _ _ (by rw [h.sizes]; exact hin)]
      · rw [← hes, List.getD_append _ _ _ _ (by rw [h.starts]; exact hin)]
    · -- the new one
      have hlen := (List.getElem?_eq_some_iff.1 hb).1
      rw [List.length_append, List.length_singleton] at hlen
      obtain rfl : b = brs.length := by omega
      rw [List.getElem?_append_right (le_refl _), Nat.sub_self] at hb
      obtain rfl : br = x := by simpa using hb
      rw [before_append (le_refl _), ← h.total]
      refine ⟨?_, getD_behind h.sizes _ hi, getD_behind h.starts _ hi⟩
      rw [List.getD_append_right _ _ _ _ (Nat.le_add_right _ _), Nat.add_sub_cancel_left]

theorem holds_start (fileSize : Int) : ({ fileSize := fileSize } : BasketTable).Holds [] where
  names := rfl
  nb := rfl
  boff := rfl
  total := rfl
  sizes := rfl
  starts := rfl
  baskets := fun b br hb => by simp at hb

theorem build_holds (fm : FileMeta) (fileSize : Int)
    (hcount : before fm.branches fm.branches.length < 2 ^ 32) :
    (build fm fileSize).Holds fm.branches := by
  have hfold : before ([] ++ fm.branches) ([] ++ fm.branches).length < 2 ^ 32 →
      (fm.branches.foldl addBranch { fileSize := fileSize }).Holds ([] ++ fm.branches) := by
    refine foldl_history (P := fun (done : List BranchInfo) (t : BasketTable) =>
      before done done.length < 2 ^ 32 → t.Holds done) ?_ fun _ => holds_start fileSize
    · intro done t br ih hlt
      have hlast : (done ++ [br])[done.length]? = some br := by simp
      rw [List.length_append, List.length_singleton, before_succ hlast, before_append (le_refl _)]
        at hlt
      have h := ih (by omega)
      apply holds_addBranch h (by omega)
      rw [h.total]
      omega
  rw [List.nil_append] at hfold
  obtain ⟨h1, h2, h3, h4, h5, h6, h7⟩ := hfold hcount
  exact ⟨h1, h2, h3, h4, h5, h6, h7⟩

/-! ### The runs -/

/-- The index in the order of the baskets' places, as any sort may leave it. -/
structure Sorted (t : BasketTable) : Prop where
  perm : t.sortedIdx.Perm (List.range t.seek.length)
  order : t.sortedIdx.Pairwise fun g g' => t.seekOf g ≤ t.seekOf g'
  seeks : t.sortedSeek = t.sortedIdx.map t.seekOf

theorem build_sorted (fm : FileMeta) (fileSize : Int) : (build fm fileSize).Sorted := by
  have htotal : Std.Total fun a b : Nat =>
      (fm.branches.foldl addBranch { fileSize := fileSize }).seek.getD a 0 ≤
        (fm.branches.foldl addBranch { fileSize := fileSize }).seek.getD b 0 :=
    ⟨fun _ _ => le_total _ _⟩
  have htrans : IsTrans Nat fun a b : Nat =>
      (fm.branches.foldl addBranch { fileSize := fileSize }).seek.getD a 0 ≤
        (fm.branches.foldl addBranch { fileSize := fileSize }).seek.getD b 0 :=
    ⟨fun _ _ _ => le_trans⟩
  exact ⟨List.perm_insertionSort _ _, List.pairwise_insertionSort _ _, rfl⟩

theorem u64_of_nonneg {v : Int} (h : 0 ≤ v) (hlt : v < 2 ^ 64) : u64 v = v.toNat := by
  rw [u64, Int.emod_eq_of_lt h hlt]

/-- From a place on, with the baskets behind it in order: the walk ends past `stop` just when there
is a run to there, and has that run. -/
theorem runFrom_iff (h : t.Sane) {stop : Nat} {idx : List Nat} {cur : Nat}
    (hin : ∀ g ∈ idx, g < t.seek.length) (hnodup : idx.Nodup)
    (horder : idx.Pairwise fun g g' => t.seekOf g ≤ t.seekOf g')
    (hfrom : ∀ g ∈ idx, (cur : Int) ≤ t.seekOf g)
    (hall : ∀ g, g < t.seek.length → (cur : Int) ≤ t.seekOf g → g ∈ idx) (gs : List Nat) :
    let r := t.runFrom stop (idx.map fun g => (t.seekOf g, g)) cur
    (stop ≤ r.2 ∧ r.1 = gs) ↔ t.IsRun stop cur gs := by
  induction idx generalizing cur gs with
  | nil =>
      simp only [List.map_nil, runFrom]
      cases gs with
      | nil => simp [IsRun]
      | cons g gs =>
          refine ⟨fun hno => absurd hno.2 (List.cons_ne_nil _ _).symm, ?_⟩
          rintro ⟨-, hg, hseek, -⟩
          exact absurd (hall g hg (le_of_eq hseek.symm)) List.not_mem_nil
  | cons g rest ih =>
      have hg := hin g List.mem_cons_self
      have hsize := h.size g hg
      have hend := h.stop g hg
      have hseek := h.seek g hg
      have hu : u64 (t.seekOf g) = (t.seekOf g).toNat := u64_of_nonneg hseek (by omega)
      have hus : u64 (t.size.getD g 0) = (t.sizeOf g).toNat :=
        u64_of_nonneg (v := t.sizeOf g) hsize.le (by omega)
      obtain ⟨hfirst, horder⟩ := List.pairwise_cons.1 horder
      obtain ⟨hnew, hnodup⟩ := List.nodup_cons.1 hnodup
      simp only [List.map_cons, runFrom, hu, hus]
      by_cases hat : cur < stop ∧ (t.seekOf g).toNat = cur
      · obtain ⟨hlt, hcur⟩ := hat
        rw [if_pos ⟨hlt, hcur⟩]
        have hcurs : t.seekOf g = cur := by omega
        have hsum : add64 cur (t.sizeOf g).toNat = cur + (t.sizeOf g).toNat :=
          Nat.mod_eq_of_lt (by omega)
        rw [hsum]
        -- Behind the basket are the others, all of them past its end.
        have hnext : ∀ g', g' < t.seek.length → g' ≠ g → t.seekOf g ≤ t.seekOf g' →
            ((cur + (t.sizeOf g).toNat : Nat) : Int) ≤ t.seekOf g' := by
          intro g' hg' hne hle
          have hsize' := h.size g' hg'
          rcases h.apart g g' hg hg' hne.symm with hap | hap
          · omega
          · omega
        have hrec := ih
          (fun g' hg' => hin g' (List.mem_cons_of_mem _ hg')) hnodup horder
          (fun g' hg' => hnext g' (hin g' (List.mem_cons_of_mem _ hg'))
            (fun heq => hnew (heq ▸ hg')) (hfirst g' hg'))
          (fun g' hg' hle => by
            rcases List.mem_cons.1 (hall g' hg' (by omega)) with rfl | hmem
            · omega
            · exact hmem)
        cases gs with
        | nil =>
            simp only [IsRun]
            refine ⟨fun hno => absurd hno.2 (List.cons_ne_nil _ _), fun hle => by omega⟩
        | cons g' gs =>
            simp only [IsRun, List.cons.injEq]
            constructor
            · rintro ⟨hle, rfl, hgs⟩
              exact ⟨hlt, hg, hcurs, (hrec gs).1 ⟨hle, hgs⟩⟩
            · rintro ⟨-, hg', hseek', hrun⟩
              have heq : g' = g := by
                by_contra hne
                have := hnext g' hg' hne (by omega)
                omega
              subst heq
              obtain ⟨hle, hgs⟩ := (hrec gs).2 hrun
              exact ⟨hle, rfl, hgs⟩
      · rw [if_neg hat]
        cases gs with
        | nil => simp [IsRun]
        | cons g' gs =>
            refine ⟨fun hno => absurd hno.2 (List.cons_ne_nil _ _).symm, ?_⟩
            rintro ⟨hlt, hg', hseek', -⟩
            have hcur := hfrom g List.mem_cons_self
            rcases List.mem_cons.1 (hall g' hg' (le_of_eq hseek'.symm)) with rfl | hmem
            · exact absurd ⟨hlt, by omega⟩ hat
            · have := hfirst g' hmem
              exact absurd ⟨hlt, by omega⟩ hat

/-- A chunk that starts on a basket decomposes into the run of baskets that brings it, where there
is one. -/
theorem decompose_iff (h : t.Sane) (hs : t.Sorted) {off len : Nat} (hend : off + len < 2 ^ 63)
    (gs : List Nat) :
    t.decompose off len = some gs ↔
      (∃ g, g < t.seek.length ∧ t.seekOf g = off) ∧ t.IsRun (off + len) off gs := by
  have hmem : ∀ g, g ∈ t.sortedIdx ↔ g < t.seek.length := by
    intro g
    rw [hs.perm.mem_iff, List.mem_range]
  have hsigned : Lib.signed 8 off = off := by
    unfold Lib.signed
    rw [if_pos (by omega)]
  have hsum : add64 off len = off + len := Nat.mod_eq_of_lt (by omega)
  have horder : t.sortedSeek.Pairwise fun x y =>
      decide (y < Lib.signed 8 off) = true → decide (x < Lib.signed 8 off) = true := by
    rw [hs.seeks, List.pairwise_map]
    refine hs.order.imp ?_
    intro g g' hle
    simp only [decide_eq_true_eq]
    exact fun hlt => lt_of_le_of_lt hle hlt
  have hlen : t.sortedSeek.length = t.sortedIdx.length := by rw [hs.seeks, List.length_map]
  have hzip : t.sortedSeek.zip t.sortedIdx = t.sortedIdx.map fun g => (t.seekOf g, g) := by
    rw [hs.seeks, ← List.map_prod_right_eq_zip]
  -- The search splits the index by the chunk's offset.
  have hsplit : ∀ i g, t.sortedIdx[i]? = some g → (t.seekOf g < off ↔
      i < search (fun s => decide (s < (off : Int))) t.sortedSeek) := by
    intro i g hg
    rw [hsigned] at horder
    rw [← search_iff horder (x := t.seekOf g) (by rw [hs.seeks, List.getElem?_map, hg]; rfl),
      decide_eq_true_eq]
  unfold decompose
  simp only [hsigned, hsum, hzip]
  generalize search (fun s => decide (s < (off : Int))) t.sortedSeek = k at hsplit
  have hdrop : ∀ g, g ∈ t.sortedIdx.drop k ↔ g < t.seek.length ∧ (off : Int) ≤ t.seekOf g := by
    intro g
    constructor
    · intro hg
      obtain ⟨j, hj⟩ := List.mem_iff_getElem?.1 hg
      rw [List.getElem?_drop] at hj
      refine ⟨(hmem g).1 (List.mem_of_getElem? hj), ?_⟩
      have := (hsplit _ _ hj).not.2 (by omega)
      omega
    · rintro ⟨hg, hle⟩
      obtain ⟨j, hj⟩ := List.mem_iff_getElem?.1 ((hmem g).2 hg)
      have hk := (hsplit _ _ hj).not.1 (by omega)
      refine List.mem_iff_getElem?.2 ⟨j - k, ?_⟩
      rw [List.getElem?_drop, Nat.add_sub_cancel' (by omega), hj]
  have hrun := @runFrom_iff t h (off + len) (t.sortedIdx.drop k) off
    (fun g hg => ((hdrop g).1 hg).1)
    ((hs.perm.nodup_iff.2 List.nodup_range).sublist (List.drop_sublist _ _))
    (hs.order.sublist (List.drop_sublist _ _)) (fun g hg => ((hdrop g).1 hg).2)
    (fun g hg hle => (hdrop g).2 ⟨hg, hle⟩) gs
  rw [← List.map_drop]
  cases hk : t.sortedSeek[k]? with
  | none =>
      refine ⟨fun hno => absurd hno.symm (Option.some_ne_none _), ?_⟩
      rintro ⟨⟨g, hg, hseek⟩, -⟩
      have hempty : t.sortedIdx.drop k = [] := by
        rw [List.drop_eq_nil_iff, ← hlen]
        exact List.getElem?_eq_none_iff.1 hk
      have := (hdrop g).2 ⟨hg, le_of_eq hseek.symm⟩
      rw [hempty] at this
      exact absurd this List.not_mem_nil
  | some s =>
      rw [hs.seeks, List.getElem?_map] at hk
      obtain ⟨g, hg, rfl⟩ := Option.map_eq_some_iff.1 hk
      have hgin := (hmem g).1 (List.mem_of_getElem? hg)
      have hseek := h.seek g hgin
      have hbound := h.stop g hgin
      have hsize := h.size g hgin
      have hu : u64 (t.seekOf g) = (t.seekOf g).toNat := u64_of_nonneg hseek (by omega)
      simp only [hu]
      split
      · rename_i hne
        refine ⟨fun hno => absurd hno.symm (Option.some_ne_none _), ?_⟩
        rintro ⟨⟨g', hg', hseek'⟩, -⟩
        -- a basket there would stand before the first that is not before the offset
        obtain ⟨j, hj⟩ := List.mem_iff_getElem?.1 ((hdrop g').2 ⟨hg', le_of_eq hseek'.symm⟩)
        rw [List.getElem?_drop] at hj
        have hle := (hsplit _ _ hg).not.2 (lt_irrefl _)
        rcases Nat.eq_zero_or_pos j with rfl | hpos
        · rw [Nat.add_zero, hg] at hj
          cases hj
          omega
        · obtain ⟨hk₁, hk₂⟩ := List.getElem?_eq_some_iff.1 hg
          obtain ⟨hj₁, hj₂⟩ := List.getElem?_eq_some_iff.1 hj
          have := List.pairwise_iff_getElem.1 hs.order k (k + j) hk₁ hj₁ (by omega)
          rw [hk₂, hj₂] at this
          omega
      · rename_i hsame
        have hfound : ∃ g, g < t.seek.length ∧ t.seekOf g = off := ⟨g, hgin, by omega⟩
        simp only [and_iff_right hfound, ← hrun]
        split
        · rename_i hshort
          exact ⟨fun hno => absurd hno.symm (Option.some_ne_none _), fun hle => by omega⟩
        · rename_i hlong
          rw [Option.some.injEq, and_iff_right (Nat.le_of_not_lt hlong)]

/-! ### What the file says and what the table says -/

/-- A basket of a branch. -/
structure Basket (brs : List BranchInfo) (b i : Nat) (seek size : Int) : Prop where
  here : ∃ br, brs[b]? = some br ∧ i < br.basketSeek.length ∧ br.basketSeek.getD i 0 = seek ∧
    br.basketBytes.getD i 0 = size

/-- The baskets of a file that is well formed: each where bytes can be, and no byte in two. -/
structure Apart (brs : List BranchInfo) : Prop where
  bytes : ∀ b i seek size, Basket brs b i seek size → 0 ≤ seek ∧ 0 < size ∧ seek + size < 2 ^ 63
  apart : ∀ b i seek size b' i' seek' size', Basket brs b i seek size →
    Basket brs b' i' seek' size' → (b, i) ≠ (b', i') → seek + size ≤ seek' ∨ seek' + size' ≤ seek

theorem Holds.place (h : t.Holds brs) (hg : g < t.seek.length) :
    ∃ br, brs[t.branchOf g]? = some br ∧ t.indexOf g < br.basketSeek.length ∧
      t.boff.getD (t.branchOf g) 0 + t.indexOf g = g := by
  rw [h.total] at hg
  obtain ⟨b, br, hb, hle, hlt⟩ := before_split hg
  obtain ⟨i, rfl⟩ := Nat.exists_eq_add_of_le hle
  have hi : i < br.basketSeek.length := by omega
  rw [h.branchOf hb hi, h.indexOf hb hi, h.boff_eq hb]
  exact ⟨br, hb, hi, rfl⟩

theorem Holds.basket (h : t.Holds brs) (hg : g < t.seek.length) :
    Basket brs (t.branchOf g) (t.indexOf g) (t.seekOf g) (t.sizeOf g) := by
  obtain ⟨br, hb, hi, hsum⟩ := h.place hg
  obtain ⟨hseek, hsize, -⟩ := h.baskets _ br hb _ hi
  rw [← h.boff_eq hb, hsum] at hseek hsize
  exact ⟨br, hb, hi, hseek.symm, hsize.symm⟩

theorem Holds.sane (h : t.Holds brs) (hap : Apart brs) : t.Sane where
  seek := fun g hg => (hap.bytes _ _ _ _ (h.basket hg)).1
  size := fun g hg => (hap.bytes _ _ _ _ (h.basket hg)).2.1
  stop := fun g hg => (hap.bytes _ _ _ _ (h.basket hg)).2.2
  apart := by
    intro g g' hg hg' hne
    apply hap.apart _ _ _ _ _ _ _ _ (h.basket hg) (h.basket hg')
    intro heq
    obtain ⟨-, -, -, hsum⟩ := h.place hg
    obtain ⟨-, -, -, hsum'⟩ := h.place hg'
    rw [Prod.mk.injEq] at heq
    rw [← hsum, ← hsum', heq.1, heq.2] at hne
    exact hne rfl

/-- The table is the file's basket map: an index and a branch with a place in it go over into each
other, with what the branch says of the basket there, and a chunk decomposes into the one run of
baskets that starts where it does and ends no sooner, if there is one. -/
structure MapOf (fm : FileMeta) (t : BasketTable) : Prop where
  index : ∀ b br, fm.branches[b]? = some br → ∀ i, i < br.basketSeek.length →
    let g := t.boff.getD b 0 + i
    g < t.seek.length ∧ t.branchOf g = b ∧ t.indexOf g = i ∧
      t.seekOf g = br.basketSeek.getD i 0 ∧ t.sizeOf g = br.basketBytes.getD i 0 ∧
        t.es.getD g 0 = br.basketEntry.getD i 0
  place : ∀ g, g < t.seek.length → ∃ br, fm.branches[t.branchOf g]? = some br ∧
    t.indexOf g < br.basketSeek.length ∧ t.boff.getD (t.branchOf g) 0 + t.indexOf g = g
  runs : ∀ off len, off + len < 2 ^ 63 → ∀ gs, t.decompose off len = some gs ↔
    (∃ g, g < t.seek.length ∧ t.seekOf g = off) ∧ t.IsRun (off + len) off gs

end BasketTable

open BasketTable in
/-- [SRC Prefetch.cc:47-118] For every file whose baskets fit the counts and share no byte. -/
theorem basket_table_exact (fm : FileMeta) (fileSize : Int)
    (hcount : before fm.branches fm.branches.length < 2 ^ 32)
    (hap : BasketTable.Apart fm.branches) :
    MapOf fm (BasketTable.build fm fileSize) := by
  have h := build_holds fm fileSize hcount
  refine ⟨fun b br hb i hi => ?_, fun g hg => h.place hg, fun off len hend gs => ?_⟩
  · obtain ⟨hseek, hsize, hes⟩ := h.baskets b br hb i hi
    have hlen := (List.getElem?_eq_some_iff.1 hb).1
    have hmono : before fm.branches (b + 1) ≤ before fm.branches fm.branches.length :=
      before_mono hlen
    rw [before_succ hb, ← h.total] at hmono
    simp only [h.boff_eq hb]
    exact ⟨by omega, h.branchOf hb hi, h.indexOf hb hi, hseek, hsize, hes⟩
  · exact decompose_iff (h.sane hap) (build_sorted fm fileSize) hend gs

/-- Three branches, the second of which has no basket yet: the baskets of the others alternate. -/
def threeBranches : FileMeta where
  branches :=
    [{ basketSeek := [100, 300], basketBytes := [50, 40], basketEntry := [0, 10] }, {},
     { basketSeek := [150, 340], basketBytes := [150, 60], basketEntry := [0, 10] }]

theorem threeBranches_baskets {b i : Nat} {seek size : Int}
    (h : BasketTable.Basket threeBranches.branches b i seek size) :
    (b, i, seek, size) ∈ [(0, 0, 100, 50), (0, 1, 300, 40), (2, 0, 150, 150), (2, 1, 340, 60)] := by
  obtain ⟨br, hb, hi, rfl, rfl⟩ := h.here
  have hlen : b < 3 := (List.getElem?_eq_some_iff.1 hb).1
  obtain rfl | rfl | rfl : b = 0 ∨ b = 1 ∨ b = 2 := by omega
  · cases hb
    obtain rfl | rfl : i = 0 ∨ i = 1 := by
      simp only [List.length_cons, List.length_nil] at hi
      omega
    · decide
    · decide
  · cases hb
    exact absurd hi (Nat.not_lt_zero _)
  · cases hb
    obtain rfl | rfl : i = 0 ∨ i = 1 := by
      simp only [List.length_cons, List.length_nil] at hi
      omega
    · decide
    · decide

theorem threeBranches_apart : BasketTable.Apart threeBranches.branches := by
  constructor
  · intro b i seek size h
    have hmem := threeBranches_baskets h
    simp only [List.mem_cons, Prod.mk.injEq, List.not_mem_nil, or_false] at hmem
    omega
  · intro b i seek size b' i' seek' size' h h' hne
    have hmem := threeBranches_baskets h
    have hmem' := threeBranches_baskets h'
    simp only [List.mem_cons, Prod.mk.injEq, List.not_mem_nil, or_false] at hmem hmem'
    rw [Ne, Prod.mk.injEq] at hne
    omega

/-- Three branches, and a read over four baskets. -/
theorem three_branches_exact :
    BasketTable.MapOf threeBranches (BasketTable.build threeBranches 400) ∧
      (BasketTable.build threeBranches 400).decompose 100 290 = some [0, 2, 1, 3] :=
  ⟨basket_table_exact threeBranches 400 (by decide) threeBranches_apart, by decide⟩

end UCache
