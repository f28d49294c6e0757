/-
Module: UCache.Core.Reading
Purpose: What a cached read puts into the caller's buffer.  The plan covers every byte of the
  request with a staged page or with a run of resident pages, and a run that passes its CRCs holds
  the origin's bytes.
Trusted boundary: none
Main exports: originPage, filePage, CrcOk
-/
import UCache.Core.Stage

namespace UCache

open Lib

section Reading

variable {Z : Prop} {O : Bytes} {m : MetaData} {i off : Nat}

/-- Page `i` of the origin, in the geometry of `m`. -/
def originPage (O : Bytes) (m : MetaData) (i : Nat) : Bytes :=
  slice O (i * m.pageSize) (m.pageBytes i)

/-- The CRC of the origin's page or, where `Z` allows it, the zero of a page without one. -/
def CrcOk (Z : Prop) (O : Bytes) (m : MetaData) (i : Nat) (crc : UInt32) : Prop :=
  crc = crc32c (originPage O m i) ∨ (Z ∧ crc = 0)

/-- A staged page that holds the origin's page. -/
def PageIs (O : Bytes) (m : MetaData) (i : Nat) (data : Bytes) (crc : UInt32) : Prop :=
  data = originPage O m i ∧ crc = crc32c (originPage O m i)

/-- A run expects the CRCs of the origin's pages. -/
structure RunOk (Z : Prop) (O : Bytes) (m : MetaData) (r : FileEntry.ReadRun) : Prop where
  le : r.firstPage ≤ r.lastPage
  lt : r.lastPage < m.npages
  length : r.expect.length = r.lastPage + 1 - r.firstPage
  expect : ∀ k crc, r.expect[k]? = some crc → CrcOk Z O m (r.firstPage + k) crc

/-- Every byte of the request in a page below `bound` is the origin's, or in a run. -/
def Covered (O : Bytes) (m : MetaData) (off : Nat) (out : Bytes) (runs : List FileEntry.ReadRun)
    (bound : Nat) : Prop :=
  ∀ k < out.length, (off + k) / m.pageSize < bound →
    (∃ r ∈ runs, r.firstPage ≤ (off + k) / m.pageSize ∧ (off + k) / m.pageSize ≤ r.lastPage) ∨
      out[k]? = O[off + k]?

/-- Page `i` as the data file holds it. -/
def filePage (d : DataFile) (m : MetaData) (i : Nat) : Bytes :=
  d.read (i * m.pageSize) (m.pageBytes i)

/-- The CRC tells the origin's pages from what the data file holds in their place. -/
def Distinguishes (Z : Prop) (O : Bytes) (m : MetaData) (d : DataFile) : Prop :=
  ∀ i < m.npages, (filePage d m i).length = m.pageBytes i →
    CrcOk Z O m i (crc32c (filePage d m i)) → filePage d m i = originPage O m i

/-- Bytes fetched for `[off, off + bytes.length)`: the origin's, as far as the file goes. -/
def OriginBytes (O : Bytes) (off : Nat) (bytes : Bytes) : Prop :=
  ∀ k < bytes.length, off + k < O.length → bytes[k]? = O[off + k]?

/-- Page `i` lies in a buffer of `len` bytes that starts at `off`. -/
def InBuffer (m : MetaData) (off len i : Nat) : Prop :=
  i < m.npages ∧ off ≤ i * m.pageSize ∧ i * m.pageSize + m.pageBytes i ≤ off + len

/-- Page `i` cut out of bytes fetched from the origin is the origin's page. -/
theorem cutPage_isOrigin {e : FileEntry} {bytes : Bytes} (hO : O.length = m.fileSize)
    (hbytes : OriginBytes O off bytes) (hgeo : Geometry m e) (hi : InBuffer m off bytes.length i) :
    PageIs O m i (FileEntry.cutPage e.meta_ off bytes i).data
      (FileEntry.cutPage e.meta_ off bytes i).crc := by
  obtain ⟨hlt, hoff, hstop⟩ := hi
  have hend := MetaData.end_le hlt
  have hdata : (FileEntry.cutPage e.meta_ off bytes i).data = originPage O m i := by
    simp only [FileEntry.cutPage, hgeo.pageSize, hgeo.pageBytes]
    apply List.ext_getElem?
    intro j
    rw [getElem?_slice, originPage, getElem?_slice]
    split
    · rw [hbytes _ (by omega) (by omega)]
      congr 1
      omega
    · rfl
  exact ⟨hdata, congrArg crc32c hdata⟩

/-! ### Copying -/

/-- Copy `[a, b)` of the file into a buffer that starts at `off`, out of a stretch that starts at
`xs` and holds the origin's bytes. -/
theorem getElem?_copy {X w : Bytes} {off xs a b : Nat}
    (hX : ∀ j < X.length, X[j]? = O[xs + j]?) (hxa : xs ≤ a) (hbx : b ≤ xs + X.length)
    (hoa : off ≤ a) (hbo : b ≤ off + w.length) (hab : a ≤ b) :
    (patch w (a - off) (slice X (a - xs) (b - a))).length = w.length ∧
      ∀ k, (patch w (a - off) (slice X (a - xs) (b - a)))[k]? =
        if a ≤ off + k ∧ off + k < b then O[off + k]? else w[k]? := by
  have hlen : (slice X (a - xs) (b - a)).length = b - a := by
    rw [length_slice]
    omega
  have hfit : a - off + (slice X (a - xs) (b - a)).length ≤ w.length := by omega
  refine ⟨length_patch hfit, ?_⟩
  intro k
  rw [getElem?_patch hfit, hlen]
  by_cases hk : a ≤ off + k ∧ off + k < b
  · rw [if_pos (by omega), if_pos hk, getElem?_slice, if_pos (by omega), hX _ (by omega)]
    congr 1
    omega
  · rw [if_neg (by omega), if_neg hk]

theorem getElem?_originPage {j : Nat} (hj : j < m.pageBytes i) :
    (originPage O m i)[j]? = O[i * m.pageSize + j]? := by
  rw [originPage, getElem?_slice, if_pos hj]

theorem length_originPage (hO : O.length = m.fileSize) (hi : i < m.npages) :
    (originPage O m i).length = m.pageBytes i := by
  have := MetaData.end_le hi
  rw [originPage, length_slice]
  omega

/-! ### The plan -/

variable {r : FileEntry.ReadRun} {runs : List FileEntry.ReadRun} {crc : UInt32}

theorem covered_page {k : Nat} (hp : 0 < m.pageSize) (h : (off + k) / m.pageSize = i) :
    i * m.pageSize ≤ off + k ∧ off + k < i * m.pageSize + m.pageSize := by
  subst h
  have h1 := Nat.div_mul_le_self (off + k) m.pageSize
  have h2 := Nat.lt_div_mul_add hp (a := off + k)
  exact ⟨h1, h2⟩

/-- Pages of a request start before its end and end after its start. -/
theorem page_overlaps {len : Nat} (hp : 0 < m.pageSize) (hlen : 0 < len)
    (hend : off + len ≤ m.fileSize) (h1 : off / m.pageSize ≤ i)
    (h2 : i ≤ (off + len - 1) / m.pageSize) :
    i < m.npages ∧ i * m.pageSize < off + len ∧ off < i * m.pageSize + m.pageBytes i := by
  have ha : off < i * m.pageSize + m.pageSize := by
    have hlt := Nat.lt_div_mul_add hp (a := off)
    have hle : off / m.pageSize * m.pageSize ≤ i * m.pageSize := Nat.mul_le_mul_right _ h1
    omega
  have hb : i * m.pageSize ≤ off + len - 1 := by
    have hle : i * m.pageSize ≤ (off + len - 1) / m.pageSize * m.pageSize :=
      Nat.mul_le_mul_right _ h2
    have := Nat.div_mul_le_self (off + len - 1) m.pageSize
    omega
  refine ⟨MetaData.lt_npages hp (by omega), by omega, ?_⟩
  unfold MetaData.pageBytes
  omega

theorem runOk_single (hi : i < m.npages) (hcrc : CrcOk Z O m i crc) :
    RunOk Z O m { firstPage := i, lastPage := i, expect := [crc] } := by
  refine ⟨Nat.le_refl _, hi, by simp, ?_⟩
  intro k crc' hk
  cases k with
  | zero =>
      cases hk
      exact hcrc
  | succ k => simp at hk

theorem RunOk.extend (h : RunOk Z O m r) (hnext : r.lastPage + 1 = i) (hi : i < m.npages)
    (hcrc : CrcOk Z O m i crc) :
    RunOk Z O m { r with lastPage := i, expect := r.expect ++ [crc] } := by
  have hle := h.le
  have hlen := h.length
  refine ⟨by simp only; omega, hi, by simp; omega, ?_⟩
  intro k crc' hk
  rw [List.getElem?_append] at hk
  split at hk
  · exact h.expect k crc' hk
  · rename_i hge
    have hk0 : k - r.expect.length = 0 := by
      by_contra hne
      rw [List.getElem?_eq_none (by simp; omega)] at hk
      simp at hk
    rw [hk0] at hk
    cases hk
    have hkey : r.firstPage + k = i := by omega
    simpa only [hkey] using hcrc

theorem addToRuns_ok (hi : i < m.npages) (hcrc : CrcOk Z O m i crc)
    (hruns : ∀ r ∈ runs, RunOk Z O m r) :
    ∀ r ∈ FileEntry.addToRuns m i crc runs, RunOk Z O m r := by
  intro r hr
  cases runs with
  | nil =>
      rw [FileEntry.addToRuns, List.mem_singleton] at hr
      exact hr ▸ runOk_single hi hcrc
  | cons r₀ rest =>
      simp only [FileEntry.addToRuns] at hr
      by_cases hnext : r₀.lastPage + 1 = i ∧
          FileEntry.runBytes m r₀.firstPage i ≤ FileEntry.kMaxCoalescedRead
      · rw [if_pos hnext] at hr
        rcases List.mem_cons.1 hr with rfl | hr
        · exact (hruns r₀ (by simp)).extend hnext.1 hi hcrc
        · exact hruns r (by simp [hr])
      · rw [if_neg hnext] at hr
        rcases List.mem_cons.1 hr with rfl | hr
        · exact runOk_single hi hcrc
        · exact hruns r hr

/-- Page `j` is in one of the runs. -/
def InRuns (j : Nat) (runs : List FileEntry.ReadRun) : Prop :=
  ∃ r ∈ runs, r.firstPage ≤ j ∧ j ≤ r.lastPage

/-- The page just added is in a run, and so is every page that was. -/
theorem addToRuns_covers {j : Nat} (hj : j = i ∨ InRuns j runs)
    (hruns : ∀ r ∈ runs, r.firstPage ≤ r.lastPage) :
    InRuns j (FileEntry.addToRuns m i crc runs) := by
  have hnew : ∀ rest, j = i →
      InRuns j ({ firstPage := i, lastPage := i, expect := [crc] } :: rest) := by
    rintro rest rfl
    exact ⟨_, List.mem_cons_self, Nat.le_refl _, Nat.le_refl _⟩
  cases runs with
  | nil =>
      rcases hj with rfl | ⟨r, hr, -⟩
      · exact hnew [] rfl
      · simp at hr
  | cons r₀ rest =>
      have h0 := hruns r₀ (by simp)
      simp only [FileEntry.addToRuns]
      split
      · rename_i hnext
        rcases hj with hj | ⟨r, hr, h1, h2⟩
        · exact ⟨_, List.mem_cons_self, by simp only; omega, by simp only; omega⟩
        · rcases List.mem_cons.1 hr with rfl | hr
          · exact ⟨_, List.mem_cons_self, h1, by simp only; omega⟩
          · exact ⟨r, by simp [hr], h1, h2⟩
      · rcases hj with hj | ⟨r, hr, h⟩
        · exact hnew _ hj
        · exact ⟨r, List.mem_cons_of_mem _ hr, h⟩

/-- What the planning loop has reached when it stands before page `bound`. -/
structure PlanOk (Z : Prop) (O : Bytes) (m : MetaData) (off len bound : Nat)
    (st : FileEntry.ReadPlan) : Prop where
  meta_ : st.e.meta_ = m
  staged : StagedOk (PageIs O m) st.e
  length : st.out.length = len
  runs : ∀ r ∈ st.runs, RunOk Z O m r
  covered : Covered O m off st.out st.runs bound

/-- A request inside the file. -/
structure Request (m : MetaData) (off len : Nat) : Prop where
  pos : 0 < m.pageSize
  nonempty : 0 < len
  inside : off + len ≤ m.fileSize

/-- A page copied into place covers its part of the request. -/
theorem covered_copyPage {len : Nat} {out X : Bytes} (hreq : Request m off len)
    (hlo : i * m.pageSize < off + len) (hhi : off < i * m.pageSize + m.pageBytes i)
    (hlen : out.length = len) (hXlen : X.length = m.pageBytes i)
    (hX : ∀ j < X.length, X[j]? = O[i * m.pageSize + j]?) (hcov : Covered O m off out runs i) :
    let cStart := max off (i * m.pageSize)
    let cEnd := min (off + len) (i * m.pageSize + m.pageBytes i)
    let out' := patch out (cStart - off) (slice X (cStart - i * m.pageSize) (cEnd - cStart))
    out'.length = len ∧ Covered O m off out' runs (i + 1) := by
  obtain ⟨hclen, hcopy⟩ := getElem?_copy (w := out)
    (b := min (off + len) (i * m.pageSize + m.pageBytes i)) hX (Nat.le_max_right off _)
    (by omega) (Nat.le_max_left off _) (by omega) (by omega)
  refine ⟨hclen.trans hlen, ?_⟩
  intro k hk hbound
  rw [hclen] at hk
  rw [hcopy]
  by_cases hki : (off + k) / m.pageSize = i
  · right
    obtain ⟨hks, hke⟩ := covered_page hreq.pos hki
    have hin := hreq.inside
    have hpb : off + k < i * m.pageSize + m.pageBytes i := by
      unfold MetaData.pageBytes
      omega
    rw [if_pos (by omega)]
  · rcases hcov k hk (by omega) with hrun | hbyte
    · exact Or.inl hrun
    · right
      split
      · rfl
      · exact hbyte

/-- A page added to the runs covers its part of the request. -/
theorem covered_addToRuns {out : Bytes} (hle : ∀ r ∈ runs, r.firstPage ≤ r.lastPage)
    (hcov : Covered O m off out runs i) :
    Covered O m off out (FileEntry.addToRuns m i crc runs) (i + 1) := by
  intro k hk hbound
  by_cases hki : (off + k) / m.pageSize = i
  · exact Or.inl (addToRuns_covers (Or.inl hki) hle)
  · rcases hcov k hk (by omega) with hrun | hbyte
    · exact Or.inl (addToRuns_covers (Or.inr hrun) hle)
    · exact Or.inr hbyte

theorem planPage_ok (hO : O.length = m.fileSize)
    (hpages : ∀ i < m.npages, m.bitmap.get i = true → CrcOk Z O m i (m.pageCrcs i)) {len : Nat}
    {account : Bool} {st st' : FileEntry.ReadPlan} (hreq : Request m off len)
    (h1 : off / m.pageSize ≤ i) (h2 : i ≤ (off + len - 1) / m.pageSize)
    (h : PlanOk Z O m off len i st) (hstep : FileEntry.planPage off len account st i = some st') :
    PlanOk Z O m off len (i + 1) st' := by
  obtain ⟨hi, hlo, hhi⟩ := page_overlaps hreq.pos hreq.nonempty hreq.inside h1 h2
  unfold FileEntry.planPage at hstep
  simp only [h.meta_] at hstep
  split at hstep
  · -- A staged page is copied into place.
    rename_i p hst
    have hstaged : st.e.buf i = some p ∨ st.e.flushing i = some p := by
      rcases Option.or_eq_some_iff.1 hst with h' | ⟨-, h'⟩
      · exact Or.inl h'
      · exact Or.inr h'
    obtain ⟨hdata, hcrc⟩ := h.staged i p hstaged
    have hplen : p.data.length = m.pageBytes i := by rw [hdata, length_originPage hO hi]
    have hX : ∀ j < p.data.length, p.data[j]? = O[i * m.pageSize + j]? := by
      intro j hj
      rw [hdata, getElem?_originPage (by omega)]
    obtain ⟨hclen, hcov⟩ := covered_copyPage hreq hlo hhi h.length hplen hX h.covered
    cases hstep
    have hbuf : StagedOk (PageIs O m) (if (p.spec && account) = true then
        st.e.unmarkSpeculative i p else st.e) := by
      split
      · exact h.staged.unmarkSpeculative ⟨hdata, hcrc⟩
      · exact h.staged
    refine ⟨?_, hbuf, hclen, h.runs, hcov⟩
    simp only
    split
    · exact h.meta_
    · exact h.meta_
  · split at hstep
    · -- A resident page joins the runs.
      rename_i hbit
      cases hstep
      have hle : ∀ r ∈ st.runs, r.firstPage ≤ r.lastPage := fun r hr => (h.runs r hr).le
      exact ⟨h.meta_, h.staged, h.length, addToRuns_ok hi (hpages i hi hbit) h.runs,
        covered_addToRuns hle h.covered⟩
    · simp at hstep

theorem planPages_ok (hO : O.length = m.fileSize)
    (hpages : ∀ i < m.npages, m.bitmap.get i = true → CrcOk Z O m i (m.pageCrcs i)) {len : Nat}
    {account : Bool} (hreq : Request m off len) (count : Nat) :
    ∀ {i : Nat} {st st' : FileEntry.ReadPlan}, off / m.pageSize ≤ i →
      i + count ≤ (off + len - 1) / m.pageSize + 1 → PlanOk Z O m off len i st →
      FileEntry.planPages off len account st (List.range' i count) = (st', true) →
      PlanOk Z O m off len (i + count) st' := by
  induction count with
  | zero =>
      intro i st st' _ _ h hrun
      cases hrun
      exact h
  | succ count ih =>
      intro i st st' h1 h2 h hrun
      rw [List.range'_succ, FileEntry.planPages] at hrun
      split at hrun
      · rename_i st₁ hst₁
        have hnext := planPage_ok hO hpages hreq h1 (by omega) h hst₁
        have := ih (by omega) (by omega) hnext hrun
        rwa [Nat.add_assoc, Nat.add_comm 1 count] at this
      · simp at hrun

/-- A plan that met no absent page: every byte of the request is the origin's or in a run. -/
theorem readPlan_ok {e : FileEntry} (hO : O.length = e.meta_.fileSize)
    (hpages : ∀ i < e.meta_.npages, e.meta_.bitmap.get i = true →
      CrcOk Z O e.meta_ i (e.meta_.pageCrcs i)) (hst : StagedOk (PageIs O e.meta_) e) {buf : Bytes}
    {account : Bool} {plan : FileEntry.ReadPlan} (hreq : Request e.meta_ off buf.length)
    (hplan : e.readPlan off buf account = (plan, true)) :
    plan.out.length = buf.length ∧ (∀ r ∈ plan.runs, RunOk Z O e.meta_ r) ∧
      Covered O e.meta_ off plan.out plan.runs e.meta_.npages := by
  have hlast : off / e.meta_.pageSize ≤ (off + buf.length - 1) / e.meta_.pageSize := by
    apply Nat.div_le_div_right
    have := hreq.nonempty
    omega
  have hstart : PlanOk Z O e.meta_ off buf.length (off / e.meta_.pageSize)
      { e := e, out := buf, runs := [] } := by
    refine ⟨rfl, hst, rfl, by simp, ?_⟩
    intro k hk hbound
    have := Nat.div_le_div_right (c := e.meta_.pageSize) (Nat.le_add_right off k)
    omega
  have hdone := planPages_ok hO hpages hreq _ (Nat.le_refl _) (by omega) hstart hplan
  refine ⟨hdone.length, hdone.runs, ?_⟩
  intro k hk _
  refine hdone.covered k hk ?_
  have hk' : k < buf.length := by rwa [← hdone.length]
  have : (off + k) / e.meta_.pageSize ≤ (off + buf.length - 1) / e.meta_.pageSize := by
    apply Nat.div_le_div_right
    omega
  omega

/-! ### Reading and checking a run -/

theorem DataFile.length_read (d : DataFile) (a n : Nat) :
    (d.read a n).length = min n (d.size - a) := by
  simp [DataFile.read]

theorem DataFile.take_read (d : DataFile) (a n k : Nat) :
    (d.read a n).take k = d.read a (min k n) := by
  unfold DataFile.read
  rw [← List.map_take, List.take_range]
  congr 2
  omega

theorem DataFile.drop_read (d : DataFile) (a n k : Nat) :
    (d.read a n).drop k = d.read (a + k) (n - k) := by
  apply List.ext_getElem?
  intro j
  simp only [DataFile.read, List.getElem?_drop, List.getElem?_map]
  by_cases hj : k + j < min n (d.size - a)
  · rw [List.getElem?_range hj, List.getElem?_range (by omega)]
    simp [Nat.add_assoc]
  · rw [List.getElem?_eq_none (by simp; omega), List.getElem?_eq_none (by simp; omega)]
    rfl

/-- A run that passes its CRCs holds the origin's bytes: byte `j` of page `i + k`, wherever the
bytes were read from the page file on from page `i`. -/
theorem verifyRun_page {d : DataFile} (hdist : Distinguishes Z O m d) :
    ∀ (expect : List UInt32) {i n : Nat},
      (∀ k crc, expect[k]? = some crc → i + k < m.npages ∧ CrcOk Z O m (i + k) crc) →
      FileEntry.verifyRun m i expect (d.read (i * m.pageSize) n) = .ok →
      ∀ k < expect.length, ∀ j < m.pageBytes (i + k),
        (d.read (i * m.pageSize) n)[k * m.pageSize + j]? = O[(i + k) * m.pageSize + j]? := by
  intro expect
  induction expect with
  | nil => simp
  | cons crc rest ih =>
      intro i n hexp hok k hk j hj
      simp only [FileEntry.verifyRun] at hok
      split at hok
      · simp at hok
      rename_i hlong
      split at hok
      · simp at hok
      rename_i hcrc
      rw [DataFile.length_read] at hlong
      rw [DataFile.take_read, Nat.min_eq_left (by omega), not_not] at hcrc
      cases k with
      | zero =>
          -- The head's bytes have the CRC of the origin's page.
          obtain ⟨hi, hgood⟩ := hexp 0 crc rfl
          have hpage : filePage d m i = originPage O m i := by
            apply hdist i hi
            · rw [filePage, DataFile.length_read]
              omega
            · rw [filePage, hcrc]
              exact hgood
          have htake : (d.read (i * m.pageSize) n).take (m.pageBytes i) = originPage O m i := by
            rw [DataFile.take_read, Nat.min_eq_left (by omega)]
            exact hpage
          have hbyte := getElem?_originPage (O := O) hj
          simp only [Nat.zero_mul, Nat.zero_add, Nat.add_zero] at hbyte hj ⊢
          rw [← hbyte, ← htake, List.getElem?_take_of_lt hj]
      | succ k =>
          have hlt : k < rest.length := by simpa using hk
          obtain ⟨hlast, -⟩ := hexp (k + 1) rest[k] (by simp [hlt])
          -- A page that another one follows is full.
          have hfull : m.pageBytes i = m.pageSize := MetaData.pageBytes_of_succ_lt (by omega)
          have hnext : i * m.pageSize + m.pageSize = (i + 1) * m.pageSize := by
            rw [Nat.add_mul, Nat.one_mul]
          have hdrop : (d.read (i * m.pageSize) n).drop (m.pageBytes i) =
              d.read ((i + 1) * m.pageSize) (n - m.pageSize) := by
            rw [DataFile.drop_read, hfull, hnext]
          have hexp' : ∀ k crc, rest[k]? = some crc →
              i + 1 + k < m.npages ∧ CrcOk Z O m (i + 1 + k) crc := by
            intro k crc hk
            have := hexp (k + 1) crc (by simpa using hk)
            rwa [Nat.add_right_comm, Nat.add_assoc]
          have hik : i + (k + 1) = i + 1 + k := by omega
          rw [hik] at hj ⊢
          rw [hdrop] at hok
          rw [← ih hexp' hok k hlt j hj, ← hdrop, List.getElem?_drop, hfull]
          congr 1
          rw [Nat.add_mul, Nat.one_mul]
          omega

/-- What a `pread` of whole pages gives is a `pread` of some length from the same place. -/
theorem preadPages_eq (c : Choice) (d : DataFile) (first last : Nat) :
    ∃ n, Frame.preadPages c m d first last = d.read (first * m.pageSize) n ∧
      n ≤ FileEntry.runBytes m first last := by
  unfold Frame.preadPages
  simp only
  split
  · exact ⟨_, rfl, Nat.le_refl _⟩
  · exact ⟨_, DataFile.take_read d _ _ _, Nat.min_le_right _ _⟩

/-- The bytes of a verified run. -/
theorem verifyRun_origin {d : DataFile} {c : Choice} (hO : O.length = m.fileSize)
    (hdist : Distinguishes Z O m d) (hr : RunOk Z O m r)
    (hok : FileEntry.verifyRun m r.firstPage r.expect
      (Frame.preadPages c m d r.firstPage r.lastPage) = .ok) :
    let got := Frame.preadPages c m d r.firstPage r.lastPage
    got.length = FileEntry.runBytes m r.firstPage r.lastPage ∧
      ∀ j < got.length, got[j]? = O[r.firstPage * m.pageSize + j]? := by
  obtain ⟨n, hgot, hn⟩ := preadPages_eq (m := m) c d r.firstPage r.lastPage
  simp only [hgot] at hok ⊢
  have hle := hr.le
  have hlast := hr.lt
  have hlen := hr.length
  have hP : 0 < m.pageSize := MetaData.pageSize_pos_of_lt hlast
  have hpage := verifyRun_page hdist r.expect (i := r.firstPage) (n := n) (by
    intro k crc hk
    have hlt : k < r.expect.length := by
      by_contra hge
      rw [List.getElem?_eq_none (by omega)] at hk
      simp at hk
    exact ⟨by omega, hr.expect k crc hk⟩) hok
  have hend := MetaData.end_le hlast
  have hmono : r.firstPage * m.pageSize ≤ r.lastPage * m.pageSize := Nat.mul_le_mul_right _ hle
  have hbyte : ∀ j < FileEntry.runBytes m r.firstPage r.lastPage,
      (d.read (r.firstPage * m.pageSize) n)[j]? = O[r.firstPage * m.pageSize + j]? := by
    intro j hj
    unfold FileEntry.runBytes at hj
    have hdiv := Nat.div_add_mod' j m.pageSize
    have hmod := Nat.mod_lt j hP
    -- The page of byte `j` is at most the last one.
    have hk : r.firstPage + j / m.pageSize ≤ r.lastPage := by
      by_contra hgt
      have hmul : (r.lastPage + 1) * m.pageSize ≤ (r.firstPage + j / m.pageSize) * m.pageSize :=
        Nat.mul_le_mul_right _ (by omega)
      rw [Nat.add_mul, Nat.add_mul, Nat.one_mul] at hmul
      have := MetaData.pageBytes_le m r.lastPage
      omega
    have hstart : (r.firstPage + j / m.pageSize) * m.pageSize + j % m.pageSize =
        r.firstPage * m.pageSize + j := by
      rw [Nat.add_mul]
      omega
    have hin : j % m.pageSize < m.pageBytes (r.firstPage + j / m.pageSize) := by
      unfold MetaData.pageBytes
      omega
    have := hpage (j / m.pageSize) (by omega) (j % m.pageSize) hin
    rwa [hdiv, hstart] at this
  have hge : FileEntry.runBytes m r.firstPage r.lastPage ≤
      (d.read (r.firstPage * m.pageSize) n).length := by
    by_contra hlt
    have hj := hbyte (d.read (r.firstPage * m.pageSize) n).length (by omega)
    rw [List.getElem?_eq_none (Nat.le_refl _)] at hj
    have hbound := List.getElem?_eq_none_iff.1 hj.symm
    unfold FileEntry.runBytes at hlt
    omega
  have hle' : (d.read (r.firstPage * m.pageSize) n).length ≤
      FileEntry.runBytes m r.firstPage r.lastPage := by
    rw [DataFile.length_read]
    omega
  exact ⟨by omega, fun j hj => hbyte j (by omega)⟩

/-- A byte of a page of the run lies in the run's bytes. -/
theorem run_byte_mem (hlt : r.lastPage < m.npages) {x : Nat} (hx : x < m.fileSize)
    (h1 : r.firstPage ≤ x / m.pageSize) (h2 : x / m.pageSize ≤ r.lastPage) :
    r.firstPage * m.pageSize ≤ x ∧
      x < r.firstPage * m.pageSize + FileEntry.runBytes m r.firstPage r.lastPage := by
  have hP : 0 < m.pageSize := MetaData.pageSize_pos_of_lt hlt
  have hstart := Nat.div_mul_le_self x m.pageSize
  have hstop := Nat.lt_div_mul_add hP (a := x)
  have hlo : r.firstPage * m.pageSize ≤ x / m.pageSize * m.pageSize := Nat.mul_le_mul_right _ h1
  have hhi : x / m.pageSize * m.pageSize ≤ r.lastPage * m.pageSize := Nat.mul_le_mul_right _ h2
  unfold FileEntry.runBytes MetaData.pageBytes
  omega

/-- Copying a run's bytes into place covers its pages. -/
theorem copyRun_covers {out got : Bytes} {rest : List FileEntry.ReadRun}
    (hlt : r.lastPage < m.npages) (hlen : got.length = FileEntry.runBytes m r.firstPage r.lastPage)
    (hbytes : ∀ j < got.length, got[j]? = O[r.firstPage * m.pageSize + j]?)
    (hend : off + out.length ≤ m.fileSize) (hcov : Covered O m off out (r :: rest) m.npages) :
    let out' := FileEntry.copyRun m off out.length out r got
    out'.length = out.length ∧ Covered O m off out' rest m.npages := by
  unfold FileEntry.copyRun
  simp only
  by_cases hover : max off (r.firstPage * m.pageSize) ≤
      min (off + out.length)
        (r.firstPage * m.pageSize + FileEntry.runBytes m r.firstPage r.lastPage)
  · obtain ⟨hclen, hcopy⟩ := getElem?_copy (w := out) hbytes (Nat.le_max_right off _)
      (by rw [hlen]; exact Nat.min_le_right _ _) (Nat.le_max_left off _)
      (Nat.min_le_left _ _) hover
    refine ⟨hclen, ?_⟩
    intro k hk hbound
    rw [hclen] at hk
    rw [hcopy]
    rcases hcov k hk hbound with ⟨r', hr', h1, h2⟩ | hbyte
    · rcases List.mem_cons.1 hr' with rfl | hr'
      · right
        have hin := run_byte_mem hlt (by omega) h1 h2
        rw [if_pos (by omega)]
      · exact Or.inl ⟨r', hr', h1, h2⟩
    · right
      split
      · rfl
      · exact hbyte
  · -- The run lies outside the request: nothing is copied.
    have hempty : min (off + out.length)
        (r.firstPage * m.pageSize + FileEntry.runBytes m r.firstPage r.lastPage) -
          max off (r.firstPage * m.pageSize) = 0 := by omega
    rw [hempty, slice_zero, patch_nil]
    refine ⟨rfl, ?_⟩
    intro k hk hbound
    rcases hcov k hk hbound with ⟨r', hr', h1, h2⟩ | hbyte
    · rcases List.mem_cons.1 hr' with rfl | hr'
      · have hin := run_byte_mem hlt (by omega) h1 h2
        omega
      · exact Or.inl ⟨r', hr', h1, h2⟩
    · exact Or.inr hbyte

/-- Copying a verified run into place covers its pages. -/
theorem copyRun_ok {d : DataFile} {c : Choice} {out : Bytes} {rest : List FileEntry.ReadRun}
    (hO : O.length = m.fileSize) (hdist : Distinguishes Z O m d) (hr : RunOk Z O m r)
    (hend : off + out.length ≤ m.fileSize) (hcov : Covered O m off out (r :: rest) m.npages)
    (hok : FileEntry.verifyRun m r.firstPage r.expect
      (Frame.preadPages c m d r.firstPage r.lastPage) = .ok) :
    let out' := FileEntry.copyRun m off out.length out r
      (Frame.preadPages c m d r.firstPage r.lastPage)
    out'.length = out.length ∧ Covered O m off out' rest m.npages := by
  obtain ⟨hlen, hbytes⟩ := verifyRun_origin hO hdist hr hok
  exact copyRun_covers hr.lt hlen hbytes hend hcov

/-- With no runs left the buffer holds the origin's bytes. -/
theorem covered_done {out : Bytes} (hP : 0 < m.pageSize) (hend : off + out.length ≤ m.fileSize)
    (hcov : Covered O m off out [] m.npages) : out = slice O off out.length := by
  apply List.ext_getElem?
  intro k
  rw [getElem?_slice]
  by_cases hk : k < out.length
  · rw [if_pos hk]
    have hpage : (off + k) / m.pageSize < m.npages := by
      apply MetaData.lt_npages hP
      have := Nat.div_mul_le_self (off + k) m.pageSize
      omega
    rcases hcov k hk hpage with ⟨r, hr, -⟩ | hbyte
    · simp at hr
    · exact hbyte
  · rw [if_neg hk, List.getElem?_eq_none (by omega)]

end Reading

end UCache
