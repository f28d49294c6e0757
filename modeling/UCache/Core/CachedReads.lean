/-
Module: UCache.Core.CachedReads
Purpose: One call of `readCached` with nothing else running, over any handle and any data file: it
  returns true when every page of the range can be read by itself, with the bytes the pages have, and
  it drops no page that could.
Trusted boundary: none
Main exports: GoodPage, Readable, readCached_reads_pages
-/
import UCache.Core.Alone
import UCache.Core.Presence

namespace UCache.CachedReads

open Lib FileEntry Alone Presence

/-! ### Page by page -/

/-- The data file has all of page `i`, with the given CRC. -/
def GoodPage (data : DataFile) (m : MetaData) (i : Nat) (crc : UInt32) : Prop :=
  (filePage data m i).length = m.pageBytes i ∧ crc32c (filePage data m i) = crc

/-- Page `i` can be served: staged, or present with bytes that check. -/
def Readable (e : FileEntry) (data : DataFile) (i : Nat) : Prop :=
  (e.staged i).isSome = true ∨
    e.meta_.bitmap.get i = true ∧ GoodPage data e.meta_ i (e.meta_.pageCrcs i)

/-- A byte as a page by page reader sees it: staged where its page is staged, else from the disk. -/
def byteAt (e : FileEntry) (data : DataFile) (b : Nat) : UInt8 :=
  match e.staged (b / e.meta_.pageSize) with
  | some p => p.data.getD (b % e.meta_.pageSize) 0
  | none => data.byte b

/-- The whole file as that reader sees it. -/
def content (e : FileEntry) (data : DataFile) : Bytes :=
  (List.range e.meta_.fileSize).map (byteAt e data)

/-- Staged pages hold all their bytes: they are allocated with this length. -/
def StagedWhole (e : FileEntry) : Prop :=
  ∀ i p, e.staged i = some p → p.data.length = e.meta_.pageBytes i

/-- A call over a range does what reading its pages one at a time would do. -/
structure ReadsPages (e : FileEntry) (d : Disk) (off len : Nat) (r : FileEntry × Option Bytes) :
    Prop where
  found : r.2.isSome = true ↔ ∀ i, Touches e.meta_ off len i → Readable e d.data i
  bytes : ∀ out, r.2 = some out → out = slice (content e d.data) off len
  kept : r.2.isSome = true → ∀ i, r.1.meta_.page i = e.meta_.page i
  /-- A page that changes lost its bit, lies in the range, and does not check. -/
  lost : ∀ i, r.1.meta_.page i ≠ e.meta_.page i → r.1.meta_.page i = (false, 0) ∧
    Touches e.meta_ off len i ∧ ¬ GoodPage d.data e.meta_ i (e.meta_.pageCrcs i)

/-! ### Checking a run -/

/-- The check of a run finds the first page whose bytes are short or have another CRC. -/
theorem verifyRun_spec {m : MetaData} (data : DataFile) (expect : List UInt32) {i n : Nat}
    (hlt : ∀ k < expect.length, i + k < m.npages ∧ k * m.pageSize + m.pageBytes (i + k) ≤ n) :
    match verifyRun m i expect (data.read (i * m.pageSize) n) with
    | .ok => ∀ k crc, expect[k]? = some crc → GoodPage data m (i + k) crc
    | .short j | .mismatch j => ∃ k crc, j = i + k ∧ expect[k]? = some crc ∧
        ¬ GoodPage data m j crc := by
  induction expect generalizing i n with
  | nil => simp [verifyRun]
  | cons crc rest ih =>
      obtain ⟨hi, hn⟩ := hlt 0 (by simp)
      simp only [Nat.zero_mul, Nat.zero_add, Nat.add_zero] at hi hn
      have hpage : (data.read (i * m.pageSize) n).take (m.pageBytes i) = filePage data m i := by
        rw [DataFile.take_read, Nat.min_eq_left hn]
        rfl
      have hlong : (data.read (i * m.pageSize) n).length < m.pageBytes i ↔
          (filePage data m i).length ≠ m.pageBytes i := by
        rw [filePage, DataFile.length_read, DataFile.length_read]
        omega
      simp only [verifyRun, hpage, hlong]
      by_cases hshort : (filePage data m i).length ≠ m.pageBytes i
      · rw [if_pos hshort]
        exact ⟨0, crc, rfl, rfl, fun hgood => hshort hgood.1⟩
      · rw [if_neg hshort]
        by_cases hcrc : crc32c (filePage data m i) ≠ crc
        · rw [if_pos hcrc]
          exact ⟨0, crc, rfl, rfl, fun hgood => hcrc hgood.2⟩
        · rw [if_neg hcrc]
          have hgood : GoodPage data m i crc := ⟨not_not.1 hshort, not_not.1 hcrc⟩
          have hnext (h : rest ≠ []) : (data.read (i * m.pageSize) n).drop (m.pageBytes i) =
              data.read ((i + 1) * m.pageSize) (n - m.pageSize) := by
            -- A page that another one follows is full.
            have hfull : m.pageBytes i = m.pageSize := by
              have := (hlt 1 (by simpa [Nat.pos_iff_ne_zero] using h)).1
              exact MetaData.pageBytes_of_succ_lt this
            rw [DataFile.drop_read, hfull, Nat.add_mul, Nat.one_mul]
          have hrest := @ih (i + 1) (n - m.pageSize) fun k hk => by
            obtain ⟨h1, h2⟩ := hlt (k + 1) (by simpa using hk)
            have hik : i + (k + 1) = i + 1 + k := by omega
            rw [hik] at h1 h2
            rw [Nat.add_mul, Nat.one_mul] at h2
            exact ⟨h1, by omega⟩
          by_cases hnil : rest = []
          · subst hnil
            intro k crc' hk
            cases k with
            | zero =>
                cases hk
                exact hgood
            | succ k => simp at hk
          · rw [hnext hnil]
            generalize verifyRun _ _ _ _ = check at hrest ⊢
            have hfound (j : Nat) (h : ∃ k crc', j = i + 1 + k ∧ rest[k]? = some crc' ∧
                ¬ GoodPage data m j crc') :
                ∃ k crc', j = i + k ∧ (crc :: rest)[k]? = some crc' ∧ ¬ GoodPage data m j crc' := by
              obtain ⟨k, crc', hj, hk, hbad⟩ := h
              exact ⟨k + 1, crc', by omega, by simpa using hk, hbad⟩
            cases check with
            | ok =>
                intro k crc' hk
                cases k with
                | zero =>
                    cases hk
                    exact hgood
                | succ k =>
                    have := hrest k crc' (by simpa using hk)
                    rwa [Nat.add_right_comm, Nat.add_assoc] at this
            | short j => exact hfound j hrest
            | mismatch j => exact hfound j hrest

/-! ### Dropping bad pages -/

variable {i : Nat}

/-- Pages of `e` that `bad` names may be gone, every other page is as it was. -/
structure Demoted (bad : Nat → Prop) (e e' : FileEntry) : Prop where
  pageSize : e'.meta_.pageSize = e.meta_.pageSize
  fileSize : e'.meta_.fileSize = e.meta_.fileSize
  page : ∀ i, e'.meta_.page i ≠ e.meta_.page i → e'.meta_.page i = (false, 0) ∧ bad i

theorem Demoted.refl {bad : Nat → Prop} (e : FileEntry) : Demoted bad e e :=
  ⟨rfl, rfl, fun _ h => absurd rfl h⟩

theorem Demoted.trans {bad : Nat → Prop} {e e₁ e' : FileEntry} (h1 : Demoted bad e e₁)
    (h2 : Demoted bad e₁ e') : Demoted bad e e' where
  pageSize := h2.pageSize.trans h1.pageSize
  fileSize := h2.fileSize.trans h1.fileSize
  page i hi := by
    by_cases hsame : e'.meta_.page i = e₁.meta_.page i
    · rw [hsame] at hi ⊢
      exact h1.page i hi
    · exact h2.page i hsame

theorem Demoted.weaken {bad bad' : Nat → Prop} {e e' : FileEntry} (h : Demoted bad e e')
    (hbad : ∀ i, bad i → bad' i) : Demoted bad' e e' :=
  ⟨h.pageSize, h.fileSize, fun i hi => ⟨(h.page i hi).1, hbad i (h.page i hi).2⟩⟩

theorem demoted_demoteRun (e : FileEntry) (i : Nat) : Demoted (· = i) e (e.demoteRun i i) := by
  have hone : List.range' i (i + 1 - i) = [i] := by simp
  refine ⟨by simp [demoteRun, retractPage], by simp [demoteRun, retractPage], fun j hj => ?_⟩
  by_cases hji : j = i
  · subst hji
    exact ⟨by simp [demoteRun, retractPage, MetaData.page], rfl⟩
  · exact absurd (by simp [demoteRun, retractPage, MetaData.page, hji]) hj

theorem goodPage_congr {data : DataFile} {m m' : MetaData} {crc : UInt32}
    (hp : m'.pageSize = m.pageSize) (hf : m'.fileSize = m.fileSize) :
    GoodPage data m' i crc ↔ GoodPage data m i crc := by
  simp only [GoodPage, filePage, MetaData.pageBytes, hp, hf]

/-- The check of a single page. -/
theorem verifyPage_spec {m : MetaData} (data : DataFile) (hi : i < m.npages) (crc : UInt32) :
    verifyRun m i [crc] (data.read (i * m.pageSize) (runBytes m i i)) = .ok ↔
      GoodPage data m i crc := by
  have hone : runBytes m i i = m.pageBytes i := by
    unfold runBytes
    omega
  have hspec := verifyRun_spec data [crc] (i := i) (n := runBytes m i i) (m := m)
    (by
      intro k hk
      obtain rfl : k = 0 := by simpa using hk
      simp [hi, hone])
  have hbad (j : Nat) (h : ∃ k c, j = i + k ∧ [crc][k]? = some c ∧ ¬ GoodPage data m j c) :
      ¬ GoodPage data m i crc := by
    obtain ⟨k, c, rfl, hk, hbad⟩ := h
    cases k with
    | zero =>
        cases hk
        exact hbad
    | succ k => simp at hk
  generalize verifyRun _ _ _ _ = check at hspec ⊢
  cases check with
  | ok => simpa using hspec 0 crc rfl
  | short j => simpa using hbad j hspec
  | mismatch j => simpa using hbad j hspec

/-- The pass over a run that came up short drops pages that do not check, and no other. -/
theorem demoted_demoteBadPages {data : DataFile} {m : MetaData} (todo : List (Nat × UInt32))
    (hlt : ∀ ic ∈ todo, ic.1 < m.npages) (e : FileEntry) (hp : e.meta_.pageSize = m.pageSize)
    (hf : e.meta_.fileSize = m.fileSize) :
    Demoted (fun i => ∃ crc, (i, crc) ∈ todo ∧ ¬ GoodPage data m i crc) e
      (demoteBadPages data todo e) := by
  induction todo generalizing e with
  | nil => exact .refl e
  | cons ic rest ih =>
      obtain ⟨i, crc⟩ := ic
      have hrest (e₁ : FileEntry) (hp₁ : e₁.meta_.pageSize = m.pageSize)
          (hf₁ : e₁.meta_.fileSize = m.fileSize) :
          Demoted (fun j => ∃ c, (j, c) ∈ (i, crc) :: rest ∧ ¬ GoodPage data m j c) e₁
            (demoteBadPages data rest e₁) := by
        refine (ih (fun jc hjc => hlt jc (by simp [hjc])) e₁ hp₁ hf₁).weaken ?_
        rintro j ⟨c, hc, hbad⟩
        exact ⟨c, by simp [hc], hbad⟩
      have hi : i < e.meta_.npages := by
        have := hlt (i, crc) (by simp)
        simpa [MetaData.npages, hp, hf] using this
      have hcheck := verifyPage_spec data hi crc
      rw [goodPage_congr hp hf] at hcheck
      have hdrop (hbad : ¬ GoodPage data m i crc) :
          Demoted (fun j => ∃ c, (j, c) ∈ (i, crc) :: rest ∧ ¬ GoodPage data m j c) e
            (demoteBadPages data rest (e.demoteRun i i)) := by
        have hone := demoted_demoteRun e i
        refine (hone.weaken ?_).trans (hrest _ (hone.pageSize.trans hp) (hone.fileSize.trans hf))
        rintro j rfl
        exact ⟨crc, by simp, hbad⟩
      simp only [demoteBadPages]
      generalize verifyRun _ _ _ _ = check at hcheck ⊢
      cases check with
      | ok => exact hrest e hp hf
      | short j => exact hdrop (by simpa using hcheck)
      | mismatch j => exact hdrop (by simpa using hcheck)

/-! ### The runs of a plan -/

variable {r : ReadRun}

/-- A run of pages that are present and not staged, with the CRCs the handle has for them. -/
structure RunHere (e : FileEntry) (r : ReadRun) : Prop where
  le : r.firstPage ≤ r.lastPage
  lt : r.lastPage < e.meta_.npages
  length : r.expect.length = r.lastPage + 1 - r.firstPage
  page : ∀ k crc, r.expect[k]? = some crc → e.staged (r.firstPage + k) = none ∧
    e.meta_.bitmap.get (r.firstPage + k) = true ∧ crc = e.meta_.pageCrcs (r.firstPage + k)

variable {e : FileEntry} {data : DataFile}

theorem RunHere.getElem? (h : RunHere e r) (h1 : r.firstPage ≤ i) (h2 : i ≤ r.lastPage) :
    r.expect[i - r.firstPage]? = some (e.meta_.pageCrcs i) := by
  have hlen := h.length
  have hlt : i - r.firstPage < r.expect.length := by omega
  have hget := List.getElem?_eq_getElem hlt
  have hcrc := (h.page _ _ hget).2.2
  rw [hget, hcrc, Nat.add_sub_cancel' h1]

/-- The read of a run is long enough for each of its pages. -/
theorem RunHere.within (h : RunHere e r) {k : Nat} (hk : k < r.expect.length) :
    r.firstPage + k < e.meta_.npages ∧
      k * e.meta_.pageSize + e.meta_.pageBytes (r.firstPage + k) ≤
        runBytes e.meta_ r.firstPage r.lastPage := by
  have hlen := h.length
  have hlt := h.lt
  refine ⟨by omega, ?_⟩
  have hsum : (r.firstPage + k) * e.meta_.pageSize =
      r.firstPage * e.meta_.pageSize + k * e.meta_.pageSize := Nat.add_mul _ _ _
  have hbytes := e.meta_.pageBytes_le (r.firstPage + k)
  unfold runBytes
  by_cases hlast : r.firstPage + k = r.lastPage
  · rw [← hlast]
    omega
  · have hmul : (r.firstPage + k + 1) * e.meta_.pageSize ≤ r.lastPage * e.meta_.pageSize :=
      Nat.mul_le_mul_right _ (by omega)
    rw [Nat.add_mul (r.firstPage + k), Nat.one_mul] at hmul
    omega

/-- The check of a run passes when all its pages do, and else it names one that does not. -/
theorem RunHere.verify (h : RunHere e r) (data : DataFile) :
    match verifyRun e.meta_ r.firstPage r.expect
      (data.read (r.firstPage * e.meta_.pageSize) (runBytes e.meta_ r.firstPage r.lastPage)) with
    | .ok => ∀ i, r.firstPage ≤ i → i ≤ r.lastPage → GoodPage data e.meta_ i (e.meta_.pageCrcs i)
    | .short j | .mismatch j => r.firstPage ≤ j ∧ j ≤ r.lastPage ∧
        ¬ GoodPage data e.meta_ j (e.meta_.pageCrcs j) := by
  have hspec := verifyRun_spec data r.expect fun k hk => h.within hk
  have hlen := h.length
  have hbad (j : Nat) (hj : ∃ k crc, j = r.firstPage + k ∧ r.expect[k]? = some crc ∧
      ¬ GoodPage data e.meta_ j crc) : r.firstPage ≤ j ∧ j ≤ r.lastPage ∧
        ¬ GoodPage data e.meta_ j (e.meta_.pageCrcs j) := by
    obtain ⟨k, crc, rfl, hk, hbad⟩ := hj
    have hlt := (List.getElem?_eq_some_iff.1 hk).1
    obtain ⟨-, -, rfl⟩ := h.page k crc hk
    exact ⟨Nat.le_add_right _ _, by omega, hbad⟩
  generalize verifyRun _ _ _ _ = check at hspec ⊢
  cases check with
  | ok =>
      intro i h1 h2
      have := hspec _ _ (h.getElem? h1 h2)
      rwa [Nat.add_sub_cancel' h1] at this
  | short j => exact hbad j hspec
  | mismatch j => exact hbad j hspec

theorem RunHere.mem_expectFrom (h : RunHere e r) {j : Nat} {crc : UInt32}
    (hi : (i, crc) ∈ Frame.expectFrom r j) :
    r.firstPage ≤ i ∧ i ≤ r.lastPage ∧ crc = e.meta_.pageCrcs i := by
  have hlen := h.length
  obtain ⟨k, hk⟩ := List.mem_iff_getElem?.1 (List.mem_of_mem_drop hi)
  obtain ⟨hpage, hcrc⟩ := List.getElem?_zip_eq_some.1 hk
  have hlt := (List.getElem?_eq_some_iff.1 hcrc).1
  rw [List.getElem?_range' hlt, Option.some.injEq, Nat.one_mul] at hpage
  simp only at hpage hcrc
  subst hpage
  exact ⟨Nat.le_add_right _ _, by omega, (h.page k crc hcrc).2.2⟩

/-- A run whose pages all check was read whole, and its bytes are the content's. -/
theorem RunHere.bytes (h : RunHere e r) (hgood : ∀ i, r.firstPage ≤ i → i ≤ r.lastPage →
      GoodPage data e.meta_ i (e.meta_.pageCrcs i)) :
    let got := data.read (r.firstPage * e.meta_.pageSize)
      (runBytes e.meta_ r.firstPage r.lastPage)
    got.length = runBytes e.meta_ r.firstPage r.lastPage ∧
      ∀ j < got.length, got[j]? = (content e data)[r.firstPage * e.meta_.pageSize + j]? := by
  have hP := MetaData.pageSize_pos_of_lt h.lt
  have hend := MetaData.end_le h.lt
  have hstart := MetaData.start_lt h.lt
  have hfirst : r.firstPage * e.meta_.pageSize ≤ r.lastPage * e.meta_.pageSize :=
    Nat.mul_le_mul_right _ h.le
  have hlast := (hgood r.lastPage h.le (Nat.le_refl _)).1
  rw [filePage, DataFile.length_read] at hlast
  have hpos : 0 < e.meta_.pageBytes r.lastPage := by
    unfold MetaData.pageBytes
    omega
  have hlen : (data.read (r.firstPage * e.meta_.pageSize)
      (runBytes e.meta_ r.firstPage r.lastPage)).length =
        runBytes e.meta_ r.firstPage r.lastPage := by
    rw [DataFile.length_read]
    unfold runBytes
    omega
  refine ⟨hlen, fun j hj => ?_⟩
  rw [hlen] at hj
  have hin : r.firstPage * e.meta_.pageSize + j < e.meta_.fileSize := by
    unfold runBytes at hj
    omega
  -- The byte is in a page of the run, which is not staged.
  have hlow : r.firstPage ≤ (r.firstPage * e.meta_.pageSize + j) / e.meta_.pageSize :=
    (Nat.le_div_iff_mul_le hP).2 (Nat.le_add_right _ _)
  have hhigh : (r.firstPage * e.meta_.pageSize + j) / e.meta_.pageSize ≤ r.lastPage := by
    have hbytes := e.meta_.pageBytes_le r.lastPage
    rw [← Nat.lt_succ_iff, Nat.div_lt_iff_lt_mul hP, Nat.succ_mul]
    unfold runBytes at hj
    omega
  have hstaged := (h.page _ _ (h.getElem? hlow hhigh)).1
  rw [Nat.add_sub_cancel' hlow] at hstaged
  have hget : (data.read (r.firstPage * e.meta_.pageSize)
      (runBytes e.meta_ r.firstPage r.lastPage))[j]? =
        some (data.byte (r.firstPage * e.meta_.pageSize + j)) := by
    rw [DataFile.length_read] at hlen
    simp only [DataFile.read, List.getElem?_map]
    rw [List.getElem?_range (by omega)]
    rfl
  rw [hget]
  simp [content, List.getElem?_range hin, byteAt, hstaged]

/-- Reading the runs of a plan in order: with every page good the buffer gets their bytes, and else
some page of a run is bad, and only bad pages of runs are dropped. -/
theorem readRuns_spec {e₀ : FileEntry} {off : Nat} (runs : List ReadRun)
    (hruns : ∀ r ∈ runs, RunHere e₀ r) (e : FileEntry) (hmeta : e.meta_ = e₀.meta_) (out : Bytes)
    (hend : off + out.length ≤ e₀.meta_.fileSize)
    (hcov : Covered (content e₀ data) e₀.meta_ off out runs e₀.meta_.npages) :
    match readRuns data off runs e out with
    | (e', some out') => e' = e ∧ out'.length = out.length ∧
        Covered (content e₀ data) e₀.meta_ off out' [] e₀.meta_.npages ∧
        ∀ i, InRuns i runs → GoodPage data e₀.meta_ i (e₀.meta_.pageCrcs i)
    | (e', none) =>
        (∃ i, InRuns i runs ∧ ¬ GoodPage data e₀.meta_ i (e₀.meta_.pageCrcs i)) ∧
        Demoted (fun i => InRuns i runs ∧ ¬ GoodPage data e₀.meta_ i (e₀.meta_.pageCrcs i)) e e' := by
  induction runs generalizing out with
  | nil =>
      refine ⟨rfl, rfl, hcov, ?_⟩
      rintro i ⟨r, hr, -⟩
      cases hr
  | cons r rest ih =>
      have hr := hruns r (by simp)
      have hcheck := hr.verify data
      have hin (i : Nat) (h1 : r.firstPage ≤ i) (h2 : i ≤ r.lastPage) : InRuns i (r :: rest) :=
        ⟨r, by simp, h1, h2⟩
      simp only [readRuns, hmeta]
      generalize verifyRun _ _ _ _ = check at hcheck ⊢
      cases check with
      | ok =>
          obtain ⟨hlen, hbytes⟩ := hr.bytes hcheck
          obtain ⟨hclen, hccov⟩ := copyRun_covers hr.lt hlen hbytes hend hcov
          have hrest := ih (fun q hq => hruns q (by simp [hq])) _ (by rwa [hclen]) hccov
          simp only
          generalize readRuns _ _ _ _ _ = res at hrest ⊢
          obtain ⟨e', ans⟩ := res
          cases ans with
          | some out' =>
              obtain ⟨he, hlen', hcov', hgood⟩ := hrest
              refine ⟨he, hlen'.trans hclen, hcov', ?_⟩
              rintro i ⟨q, hq, h1, h2⟩
              rcases List.mem_cons.1 hq with rfl | hq
              · exact hcheck i h1 h2
              · exact hgood i ⟨q, hq, h1, h2⟩
          | none =>
              have hmore (i : Nat) (h : InRuns i rest) : InRuns i (r :: rest) := by
                obtain ⟨q, hq, h⟩ := h
                exact ⟨q, by simp [hq], h⟩
              obtain ⟨⟨i, hi, hbad⟩, hdem⟩ := hrest
              exact ⟨⟨i, hmore i hi, hbad⟩, hdem.weaken fun j hj => ⟨hmore j hj.1, hj.2⟩⟩
      | short j =>
          obtain ⟨h1, h2, hbad⟩ := hcheck
          refine ⟨⟨j, hin j h1 h2, hbad⟩, ?_⟩
          refine (demoted_demoteBadPages (m := e₀.meta_) _ ?_ e (by rw [hmeta]) (by rw [hmeta])).weaken ?_
          · rintro ⟨i, crc⟩ hi
            have := hr.lt
            have := (hr.mem_expectFrom hi).2.1
            simp only
            omega
          · rintro i ⟨crc, hi, hbad⟩
            obtain ⟨h1, h2, rfl⟩ := hr.mem_expectFrom hi
            exact ⟨hin i h1 h2, hbad⟩
      | mismatch j =>
          obtain ⟨h1, h2, hbad⟩ := hcheck
          refine ⟨⟨j, hin j h1 h2, hbad⟩, (demoted_demoteRun e j).weaken ?_⟩
          rintro i rfl
          exact ⟨hin i h1 h2, hbad⟩

/-! ### The plan -/

/-- What the planning loop has reached when it stands before page `bound`. -/
structure Planned (e₀ : FileEntry) (data : DataFile) (off len first bound : Nat) (st : ReadPlan) :
    Prop where
  meta_ : st.e.meta_ = e₀.meta_
  staged : ∀ i, (st.e.staged i).map BufPage.data = (e₀.staged i).map BufPage.data
  length : st.out.length = len
  runs : ∀ r ∈ st.runs, RunHere e₀ r
  within : ∀ i, InRuns i st.runs → first ≤ i ∧ i < bound
  covered : Covered (content e₀ data) e₀.meta_ off st.out st.runs bound
  /-- A page passed is staged, or in a run. -/
  passed : ∀ i, first ≤ i → i < bound → (e₀.staged i).isSome = true ∨ InRuns i st.runs

theorem runHere_addToRuns {runs : List ReadRun} (hi : i < e.meta_.npages)
    (hstaged : e.staged i = none) (hbit : e.meta_.bitmap.get i = true)
    (hruns : ∀ r ∈ runs, RunHere e r) :
    ∀ r ∈ addToRuns e.meta_ i (e.meta_.pageCrcs i) runs, RunHere e r := by
  have hone : RunHere e { firstPage := i, lastPage := i, expect := [e.meta_.pageCrcs i] } := by
    refine ⟨Nat.le_refl _, hi, by simp, fun k crc hk => ?_⟩
    cases k with
    | zero =>
        cases hk
        exact ⟨hstaged, hbit, rfl⟩
    | succ k => simp at hk
  intro r hr
  cases runs with
  | nil =>
      rw [addToRuns, List.mem_singleton] at hr
      exact hr ▸ hone
  | cons r₀ rest =>
      have h0 := hruns r₀ (by simp)
      have hrest (q : ReadRun) (hq : q ∈ rest) : RunHere e q := hruns q (by simp [hq])
      simp only [addToRuns] at hr
      split at hr
      · rename_i hnext
        rcases List.mem_cons.1 hr with rfl | hr
        · -- The page lengthens the newest run.
          have hle := h0.le
          have hlen := h0.length
          refine ⟨by simp only; omega, hi, by simp; omega, fun k crc hk => ?_⟩
          rw [List.getElem?_append] at hk
          split at hk
          · exact h0.page k crc hk
          · rename_i hge
            have hk₀ : k - r₀.expect.length = 0 := by
              have := (List.getElem?_eq_some_iff.1 hk).1
              simpa using this
            have hki : r₀.firstPage + k = i := by omega
            rw [hk₀] at hk
            cases hk
            simp only [hki]
            exact ⟨hstaged, hbit, trivial⟩
        · exact hrest r hr
      · rcases List.mem_cons.1 hr with rfl | hr
        · exact hone
        · exact hruns r hr

/-- A page in the runs after one was added was in them before, or it is that page. -/
theorem inRuns_addToRuns {m : MetaData} {j : Nat} {crc : UInt32} {runs : List ReadRun}
    (hj : InRuns j (addToRuns m i crc runs)) : InRuns j runs ∨ j = i := by
  obtain ⟨r, hr, h1, h2⟩ := hj
  cases runs with
  | nil =>
      rw [addToRuns, List.mem_singleton] at hr
      subst hr
      exact .inr (Nat.le_antisymm h2 h1)
  | cons r₀ rest =>
      simp only [addToRuns] at hr
      split at hr
      · rename_i hnext
        rcases List.mem_cons.1 hr with rfl | hr
        · simp only at h1 h2
          by_cases hji : j = i
          · exact .inr hji
          · exact .inl ⟨r₀, by simp, h1, by omega⟩
        · exact .inl ⟨r, by simp [hr], h1, h2⟩
      · rcases List.mem_cons.1 hr with rfl | hr
        · exact .inr (Nat.le_antisymm h2 h1)
        · exact .inl ⟨r, hr, h1, h2⟩

/-- Confirming a prediction keeps what is staged. -/
theorem staged_unmark {p : BufPage} (hp : e.staged i = some p) (j : Nat) :
    ((e.unmarkSpeculative i p).staged j).map BufPage.data = (e.staged j).map BufPage.data := by
  by_cases hji : j = i
  · subst hji
    rw [hp]
    simp [staged, unmarkSpeculative]
  · simp [staged, unmarkSpeculative, Function.update_of_ne hji]

/-- The bytes of a staged page are the content's. -/
theorem staged_bytes {p : BufPage} (hi : i < e.meta_.npages) (hp : e.staged i = some p)
    (hlen : p.data.length = e.meta_.pageBytes i) (j : Nat) (hj : j < p.data.length) :
    p.data[j]? = (content e data)[i * e.meta_.pageSize + j]? := by
  have hend := MetaData.end_le hi
  have hbytes := e.meta_.pageBytes_le i
  have hdiv : (i * e.meta_.pageSize + j) / e.meta_.pageSize = i := by
    rw [Nat.mul_comm, Nat.mul_add_div (MetaData.pageSize_pos_of_lt hi),
      Nat.div_eq_of_lt (by omega), Nat.add_zero]
  have hmod : (i * e.meta_.pageSize + j) % e.meta_.pageSize = j := by
    rw [Nat.mul_comm, Nat.mul_add_mod, Nat.mod_eq_of_lt (by omega)]
  have hbyte : byteAt e data (i * e.meta_.pageSize + j) = p.data[j] := by
    simp [byteAt, hdiv, hmod, hp, List.getD_eq_getElem?_getD, hj]
  rw [content, List.getElem?_map, List.getElem?_range (by omega), List.getElem?_eq_getElem hj]
  exact congrArg some hbyte.symm

theorem planned_step {off len : Nat} {account : Bool} {st st' : ReadPlan}
    (hreq : Request e.meta_ off len) (hwhole : StagedWhole e) (h1 : off / e.meta_.pageSize ≤ i)
    (h2 : i ≤ (off + len - 1) / e.meta_.pageSize)
    (h : Planned e data off len (off / e.meta_.pageSize) i st)
    (hstep : planPage off len account st i = some st') :
    Planned e data off len (off / e.meta_.pageSize) (i + 1) st' := by
  obtain ⟨hi, hlo, hhi⟩ := page_overlaps hreq.pos hreq.nonempty hreq.inside h1 h2
  have hsame := h.staged i
  have hpassed (runs : List ReadRun) (hi : (e.staged i).isSome = true ∨ InRuns i runs)
      (hold : ∀ j, InRuns j st.runs → InRuns j runs) (j : Nat)
      (hj₁ : off / e.meta_.pageSize ≤ j) (hj₂ : j < i + 1) :
      (e.staged j).isSome = true ∨ InRuns j runs := by
    by_cases hji : j = i
    · exact hji ▸ hi
    · exact (h.passed j hj₁ (by omega)).imp_right (hold j)
  unfold planPage at hstep
  simp only [h.meta_] at hstep
  split at hstep
  · -- A staged page is copied into place.
    rename_i p hst
    rw [hst] at hsame
    obtain ⟨q, hq, hdata⟩ := Option.map_eq_some_iff.1 hsame.symm
    have hqlen := hwhole i q hq
    obtain ⟨hclen, hcov⟩ := covered_copyPage hreq hlo hhi h.length (X := p.data)
      (by rw [← hdata, hqlen]) (by
        rw [← hdata]
        exact staged_bytes hi hq hqlen) h.covered
    cases hstep
    refine ⟨?_, fun j => ?_, hclen, h.runs, fun j hj => ?_, hcov,
      hpassed _ (.inl (by rw [hq]; rfl)) fun _ hj => hj⟩
    · simp only
      split
      · exact h.meta_
      · exact h.meta_
    · refine Eq.trans ?_ (h.staged j)
      simp only
      split
      · exact staged_unmark hst j
      · rfl
    · have := h.within j hj
      exact ⟨this.1, by omega⟩
  · rename_i hst
    rw [hst] at hsame
    have hnone : e.staged i = none := Option.map_eq_none_iff.1 hsame.symm
    split at hstep
    · -- A resident page joins the runs.
      rename_i hbit
      cases hstep
      have hle : ∀ r ∈ st.runs, r.firstPage ≤ r.lastPage := fun r hr => (h.runs r hr).le
      refine ⟨h.meta_, h.staged, h.length, runHere_addToRuns hi hnone hbit h.runs, fun j hj => ?_,
        covered_addToRuns hle h.covered, hpassed _ (.inr (addToRuns_covers (.inl rfl) hle))
          fun j hj => addToRuns_covers (.inr hj) hle⟩
      rcases inRuns_addToRuns hj with hj | rfl
      · have := h.within j hj
        exact ⟨this.1, by omega⟩
      · exact ⟨h1, Nat.lt_succ_self _⟩
    · cases hstep

/-- The loop stops at a page that is neither staged nor present. -/
theorem planPage_none {off len first : Nat} {account : Bool} {st : ReadPlan}
    (h : Planned e data off len first i st) (hstep : planPage off len account st i = none) :
    e.staged i = none ∧ e.meta_.bitmap.get i = false := by
  have hsame := h.staged i
  unfold planPage at hstep
  simp only [h.meta_] at hstep
  split at hstep
  · cases hstep
  · rename_i hst
    rw [hst] at hsame
    split at hstep
    · cases hstep
    · rename_i hbit
      exact ⟨Option.map_eq_none_iff.1 hsame.symm, by simpa using hbit⟩

/-- The whole loop: it passes all pages, or it stops at an absent one with the metadata as it was. -/
theorem planned_run {off len : Nat} {account : Bool} (hreq : Request e.meta_ off len)
    (hwhole : StagedWhole e) (count : Nat) {i : Nat} {st : ReadPlan}
    (h1 : off / e.meta_.pageSize ≤ i) (h2 : i + count ≤ (off + len - 1) / e.meta_.pageSize + 1)
    (h : Planned e data off len (off / e.meta_.pageSize) i st) :
    match planPages off len account st (List.range' i count) with
    | (st', true) => Planned e data off len (off / e.meta_.pageSize) (i + count) st'
    | (st', false) => st'.e.meta_ = e.meta_ ∧
        ∃ j, i ≤ j ∧ j < i + count ∧ e.staged j = none ∧ e.meta_.bitmap.get j = false := by
  induction count generalizing i st with
  | zero => exact h
  | succ count ih =>
      rw [List.range'_succ, planPages]
      cases hstep : planPage off len account st i with
      | none =>
          obtain ⟨hnone, hbit⟩ := planPage_none h hstep
          exact ⟨h.meta_, i, Nat.le_refl _, by omega, hnone, hbit⟩
      | some st₁ =>
          have hnext := planned_step hreq hwhole h1 (by omega) h hstep
          have hrest := ih (by omega) (by omega) hnext
          simp only
          generalize planPages _ _ _ _ _ = res at hrest ⊢
          obtain ⟨st', found⟩ := res
          cases found with
          | true =>
              simp only at hrest
              rwa [Nat.add_right_comm, Nat.add_assoc] at hrest
          | false =>
              obtain ⟨hmeta, j, hj₁, hj₂, hj⟩ := hrest
              exact ⟨hmeta, j, by omega, by omega, hj⟩

/-! ### The call -/

theorem inRuns_reverse {runs : List ReadRun} : InRuns i runs.reverse ↔ InRuns i runs := by
  simp [InRuns]

theorem planned_start {off len : Nat} {buf : Bytes} (hlen : buf.length = len) :
    Planned e data off len (off / e.meta_.pageSize) (off / e.meta_.pageSize)
      { e := e, out := buf, runs := [] } where
  meta_ := rfl
  staged _ := rfl
  length := hlen
  runs r hr := by cases hr
  within i hi := by
    obtain ⟨r, hr, -⟩ := hi
    cases hr
  covered k hk hbound := by
    have := Nat.div_le_div_right (c := e.meta_.pageSize) (Nat.le_add_right off k)
    omega
  passed i h1 h2 := by omega

/-- What the planning section gives: a page that is not here, or a plan for every page. -/
theorem readPlan_spec {buf : Bytes} {account : Bool} (hreq : Request e.meta_ off buf.length)
    (hwhole : StagedWhole e) :
    match e.readPlan off buf account with
    | (plan, true) => Planned e data off buf.length (off / e.meta_.pageSize)
        ((off + buf.length - 1) / e.meta_.pageSize + 1) plan
    | (plan, false) => plan.e.meta_ = e.meta_ ∧
        ∃ j, Touches e.meta_ off buf.length j ∧ e.staged j = none ∧
          e.meta_.bitmap.get j = false := by
  have hlast : off / e.meta_.pageSize ≤ (off + buf.length - 1) / e.meta_.pageSize := by
    have := hreq.nonempty
    exact Nat.div_le_div_right (by omega)
  have hcount : off / e.meta_.pageSize + ((off + buf.length - 1) / e.meta_.pageSize + 1 -
      off / e.meta_.pageSize) = (off + buf.length - 1) / e.meta_.pageSize + 1 := by omega
  have hstart : Planned e data off buf.length (off / e.meta_.pageSize) (off / e.meta_.pageSize)
      { e := e, out := buf, runs := [] } := planned_start rfl
  unfold readPlan
  simp only
  have hrun := @planned_run e data off buf.length account hreq hwhole _ _ _ (Nat.le_refl _)
    (Nat.le_of_eq hcount) hstart
  generalize planPages _ _ _ _ _ = res at hrun ⊢
  obtain ⟨plan, found⟩ := res
  cases found with
  | true =>
      simp only at hrun
      rwa [hcount] at hrun
  | false =>
      obtain ⟨hmeta, j, hj₁, hj₂, hj⟩ := hrun
      exact ⟨hmeta, j, (touches_iff hreq.pos hreq.nonempty hreq.inside).1 ⟨hj₁, by omega⟩, hj⟩

/-- A request that is planned whole is covered by its runs and what was copied. -/
theorem Planned.covers {off len : Nat} {plan : ReadPlan}
    (h : Planned e data off len (off / e.meta_.pageSize)
      ((off + len - 1) / e.meta_.pageSize + 1) plan) :
    Covered (content e data) e.meta_ off plan.out plan.runs.reverse e.meta_.npages := by
  intro k hk _
  have hpage : (off + k) / e.meta_.pageSize < (off + len - 1) / e.meta_.pageSize + 1 := by
    have := h.length
    exact Nat.lt_succ_of_le (Nat.div_le_div_right (by omega))
  refine (h.covered k hk hpage).imp_left ?_
  rintro ⟨r, hr, hin⟩
  exact ⟨r, List.mem_reverse.2 hr, hin⟩

/-- One call reads what reading its pages one at a time would read. -/
theorem readCached_reads_pages (t : Timing) (e : FileEntry) (d : Disk) (off : Nat) (buf : Bytes)
    (account : Bool) (hp : 0 < e.meta_.pageSize) (hlen : 0 < buf.length)
    (hin : off + buf.length ≤ e.meta_.fileSize) (hwhole : StagedWhole e) :
    ReadsPages e d off buf.length (readCached t off buf account e d) := by
  have hreq : Request e.meta_ off buf.length := ⟨hp, hlen, hin⟩
  have hempty : buf.isEmpty = false := by
    rw [List.isEmpty_eq_false_iff]
    rintro rfl
    simp at hlen
  have hplan := @readPlan_spec e d.data off buf account hreq hwhole
  rw [readCached, hempty, if_neg (by simp), if_neg (Nat.not_lt.2 hin)]
  generalize e.readPlan off buf account = res at hplan ⊢
  obtain ⟨plan, found⟩ := res
  cases found with
  | false =>
      obtain ⟨hmeta, j, hj, hnone, hbit⟩ := hplan
      refine ⟨⟨fun h => by simp at h, fun h => ?_⟩, fun _ h => by simp at h, fun h => by simp at h,
        fun i hi => absurd (by simp [hmeta]) hi⟩
      rcases h j hj with hstaged | ⟨hpresent, -⟩
      · simp [hnone] at hstaged
      · simp [hbit] at hpresent
  | true =>
      have hruns := readRuns_spec plan.runs.reverse (fun r hr => hplan.runs r (List.mem_reverse.1 hr))
        plan.e hplan.meta_ plan.out (by rwa [hplan.length]) hplan.covers
      have htouch (i : Nat) (hi : InRuns i plan.runs.reverse) : Touches e.meta_ off buf.length i := by
        obtain ⟨h1, h2⟩ := hplan.within i (inRuns_reverse.1 hi)
        exact (touches_iff hp hlen hin).1 ⟨h1, Nat.lt_succ_iff.1 h2⟩
      simp only [Bool.not_true, Bool.false_eq_true, if_false]
      generalize readRuns _ _ _ _ _ = res at hruns ⊢
      obtain ⟨e', ans⟩ := res
      cases ans with
      | some out =>
          obtain ⟨rfl, holen, hcov, hgood⟩ := hruns
          have hfull : out.length = buf.length := holen.trans hplan.length
          have hcontent := covered_done hp (by rwa [hfull]) hcov
          have hpage (i : Nat) :
              (readEnd t account (plan.e, some out)).1.meta_.page i = e.meta_.page i := by
            rw [← hplan.meta_]
            simp only [readEnd, touchAtime]
            split
            · split <;> rfl
            · rfl
          refine ⟨⟨fun _ i hi => ?_, fun _ => rfl⟩, fun out' h => ?_, fun _ => hpage,
            fun i hi => absurd (hpage i) hi⟩
          · -- A page of the request is staged, or in a run that has checked.
            obtain ⟨h1, h2⟩ := (touches_iff hp hlen hin).2 hi
            rcases hplan.passed i h1 (Nat.lt_succ_of_le h2) with hstaged | hrun
            · exact .inl hstaged
            · obtain ⟨r, hr, hr₁, hr₂⟩ := hrun
              have hhere := (hplan.runs r hr)
              have hbit := (hhere.page _ _ (hhere.getElem? hr₁ hr₂)).2.1
              rw [Nat.add_sub_cancel' hr₁] at hbit
              exact .inr ⟨hbit, hgood i (inRuns_reverse.2 ⟨r, hr, hr₁, hr₂⟩)⟩
          · cases h
            rw [hfull] at hcontent
            exact hcontent
      | none =>
          obtain ⟨⟨i, hi, hbad⟩, hdem⟩ := hruns
          refine ⟨⟨fun h => (nomatch h), fun h => ?_⟩, fun _ h => (nomatch h), fun h => (nomatch h),
            fun j hj => ?_⟩
          · -- The bad page is not staged, so it cannot be served.
            obtain ⟨r, hr, hr₁, hr₂⟩ := inRuns_reverse.1 hi
            have hhere := (hplan.runs r hr)
            have hnone := (hhere.page _ _ (hhere.getElem? hr₁ hr₂)).1
            rw [Nat.add_sub_cancel' hr₁] at hnone
            rcases h i (htouch i hi) with hstaged | ⟨-, hgood⟩
            · simp [hnone] at hstaged
            · exact absurd hgood hbad
          · rw [← hplan.meta_] at hj
            obtain ⟨hgone, hrun, hjbad⟩ := hdem.page j hj
            exact ⟨hgone, htouch j hrun, hjbad⟩

/-- A request from inside the first page, present over a file of zeros with another CRC, to the end
of the short last page, which is staged; the page between them is absent. -/
theorem partly_reads_pages : ReadsPages partly { sidecar := none, data := DataFile.truncate 9000 } 100
    (List.replicate 8900 (0 : UInt8)).length
    (readCached {} 100 (List.replicate 8900 0) true partly
      { sidecar := none, data := DataFile.truncate 9000 }) := by
  refine readCached_reads_pages {} partly _ 100 (List.replicate 8900 0) true (by decide)
    (by rw [List.length_replicate]; decide) (by rw [List.length_replicate]; decide) fun i p hp => ?_
  by_cases hi : i = 2
  · subst hi
    have hpage : partly.staged 2 = some { data := List.replicate 808 7, crc := 0, spec := true } := rfl
    rw [hpage] at hp
    cases hp
    rw [List.length_replicate]
    rfl
  · have hnone : partly.buf i = none := if_neg hi
    rw [staged, hnone] at hp
    cases hp

end UCache.CachedReads
