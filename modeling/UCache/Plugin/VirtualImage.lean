/-
Module: UCache.Plugin.VirtualImage
Purpose: The bytes a file in a slot layout consists of, and that each turn of the cut, each gather
  and each copy of a slot is about these bytes.
Trusted boundary: none
Main exports: slotContent, imageByte, image
-/
import UCache.Plugin.ColdRequest

namespace UCache

open Lib

/-! ### The virtual image -/

def Window.covers (w : Window) (v : Nat) : Bool := decide (w.off ≤ v) && decide (v < w.stop)

def FillSlot.covers (s : FillSlot) (v : Nat) : Bool :=
  decide (s.vSeek ≤ v) && decide (v < s.vSeek + s.vLen)

/-- What a slot with this record reads as: for a tree the record and zeros, for a column store the
decoded page and its checksum. -/
def slotContent (cx : ColdCx) (i : Nat) (record : Bytes) : Bytes :=
  if cx.rnt then
    let page := decodePage cx.D record ((cx.slot i).vLen - kSlotChecksumBytes)
    page ++ sealDecodedPage cx.hash page
  else record ++ List.replicate ((cx.slot i).vLen - record.length) 0

/-- Byte `v` of the virtual file, for a set of slot records. -/
def imageByte (cx : ColdCx) (origin : Bytes) (recs : Nat → Bytes) (v : Nat) : UInt8 :=
  let L := cx.L
  if v < L.originSize then
    match L.windows.find? fun w => w.covers v with
    | some w => w.bytes.getD (v - w.off) 0
    | none => origin.getD v 0
  else if v < L.metaSeek then 0
  else if v < L.metaEnd then L.metaRecord.getD (v - L.metaSeek) 0
  else if v < L.slotsBegin then 0
  else
    match L.slots.findIdx? fun s => s.covers v with
    | some i => (slotContent cx i (recs i)).getD (v - (cx.slot i).vSeek) 0
    | none => 0

/-- A range of the virtual file. -/
def image (cx : ColdCx) (origin : Bytes) (recs : Nat → Bytes) (off len : Nat) : Bytes :=
  (List.range len).map fun t => imageByte cx origin recs (off + t)

@[simp] theorem length_image (cx : ColdCx) (origin : Bytes) (recs : Nat → Bytes) (off len : Nat) :
    (image cx origin recs off len).length = len := by
  simp [image]

theorem getElem?_image (cx : ColdCx) (origin : Bytes) (recs : Nat → Bytes) (off len t : Nat) :
    (image cx origin recs off len)[t]? =
      if t < len then some (imageByte cx origin recs (off + t)) else none := by
  by_cases ht : t < len <;> simp [image, ht]

/-- A stretch of bytes that agree one by one with the image. -/
theorem eq_image {cx : ColdCx} {origin : Bytes} {recs : Nat → Bytes} {off : Nat} {b : Bytes}
    (h : ∀ t, t < b.length → b[t]? = some (imageByte cx origin recs (off + t))) :
    b = image cx origin recs off b.length := by
  apply List.ext_getElem?
  intro t
  rw [getElem?_image]
  by_cases ht : t < b.length
  · rw [if_pos ht, h t ht]
  · rw [if_neg ht, List.getElem?_eq_none (by omega)]

/-! ### Windows -/

/-- Disjoint windows: the one that covers a position is the one the search finds. -/
theorem find_window {ws : List Window} (h : ws.Pairwise fun a b => a.stop ≤ b.off) {w : Window}
    (hw : w ∈ ws) {v : Nat} (hv : w.covers v = true) : ws.find? (fun w => w.covers v) = some w := by
  induction ws with
  | nil => cases hw
  | cons x xs ih =>
      rw [List.pairwise_cons] at h
      rcases List.mem_cons.1 hw with rfl | hmem
      · exact List.find?_cons_of_pos hv
      · have hle := h.1 w hmem
        have hnot : ¬ x.covers v = true := by
          simp only [Window.covers, Bool.and_eq_true, decide_eq_true_eq] at hv ⊢
          omega
        rw [List.find?_cons_of_neg (by simpa using hnot)]
        exact ih h.2 hmem

/-- The scan finds a window that covers the position, or a stretch that no window touches. -/
theorem windowScan_spec {pos : Nat} {ws : List Window} {next : Nat} (hpos : pos < next) :
    (∃ w, (windowScan pos ws next).1 = some w ∧ w ∈ ws ∧ w.covers pos = true) ∨
      ((windowScan pos ws next).1 = none ∧ pos < (windowScan pos ws next).2 ∧
        (windowScan pos ws next).2 ≤ next ∧
          ∀ w ∈ ws, ∀ v, pos ≤ v → v < (windowScan pos ws next).2 → w.covers v = false) := by
  induction ws generalizing next with
  | nil =>
      refine Or.inr ⟨rfl, hpos, Nat.le_refl _, ?_⟩
      intro w hw
      cases hw
  | cons x xs ih =>
      unfold windowScan
      by_cases hx : x.off ≤ pos ∧ pos < x.stop
      · rw [if_pos hx]
        refine Or.inl ⟨x, rfl, by simp, ?_⟩
        simpa [Window.covers] using hx
      · rw [if_neg hx]
        have hnext : pos < (if pos < x.off then min next x.off else next) := by
          split <;> omega
        obtain ⟨w, hw, hmem, hcov⟩ | ⟨hnone, hlt, hle, hall⟩ := ih hnext
        · exact Or.inl ⟨w, hw, by simp [hmem], hcov⟩
        · have hle' : (if pos < x.off then min next x.off else next) ≤ next := by
            split <;> omega
          refine Or.inr ⟨hnone, hlt, by omega, ?_⟩
          intro w hw v hv₁ hv₂
          rcases List.mem_cons.1 hw with rfl | hmem
          · have hstart : pos < w.off → (if pos < w.off then min next w.off else next) ≤ w.off := by
              intro hlt
              rw [if_pos hlt]
              omega
            simp only [Window.covers, Bool.and_eq_false_iff, decide_eq_false_iff_not]
            omega
          · exact hall w hmem v hv₁ hv₂

/-! ### Slots -/

theorem SlotsFrom.findIdx_zero {a b : Nat} {slots : List FillSlot} (h : SlotsFrom a slots b)
    {pos : Nat} (hpos : pos < a) : slots.findIdx (fun s => decide (pos < s.vSeek)) = 0 := by
  cases slots with
  | nil => rfl
  | cons s rest =>
      rw [List.findIdx_cons, decide_eq_true (by rw [h.1]; exact hpos)]
      rfl

/-- The search by upper bound finds the slot that covers a position. -/
theorem SlotsFrom.upperBound {a b : Nat} {slots : List FillSlot} (h : SlotsFrom a slots b)
    {pos : Nat} (hlo : a ≤ pos) (hhi : pos < b) :
    0 < slots.findIdx (fun s => decide (pos < s.vSeek)) ∧
      ∃ s, slots[slots.findIdx (fun s => decide (pos < s.vSeek)) - 1]? = some s ∧
        s.covers pos = true := by
  induction slots generalizing a with
  | nil =>
      cases h
      omega
  | cons s rest ih =>
      have hs := h.1
      have hfalse : decide (pos < s.vSeek) = false := decide_eq_false (by omega)
      have hidx : (s :: rest).findIdx (fun s => decide (pos < s.vSeek)) =
          rest.findIdx (fun s => decide (pos < s.vSeek)) + 1 := by
        rw [List.findIdx_cons, hfalse]
        rfl
      rw [hidx]
      refine ⟨by omega, ?_⟩
      by_cases hin : pos < a + s.vLen
      · refine ⟨s, ?_, ?_⟩
        · rw [h.2.findIdx_zero hin]
          rfl
        · simp only [FillSlot.covers, Bool.and_eq_true, decide_eq_true_eq]
          omega
      · obtain ⟨hpos, t, ht, hcov⟩ := ih h.2 (by omega)
        refine ⟨t, ?_, hcov⟩
        rw [Nat.add_sub_cancel]
        obtain ⟨j, hj⟩ := Nat.exists_eq_succ_of_ne_zero (Nat.pos_iff_ne_zero.1 hpos)
        rw [hj] at ht ⊢
        exact ht

/-- A slot starts where the ones before it end. -/
theorem SlotsFrom.vSeek_ge {a b : Nat} {slots : List FillSlot} (h : SlotsFrom a slots b) {i : Nat}
    {s : FillSlot} (hi : slots[i]? = some s) : a ≤ s.vSeek := by
  induction slots generalizing a i with
  | nil => simp at hi
  | cons t rest ih =>
      cases i with
      | zero =>
          cases hi
          exact Nat.le_of_eq h.1.symm
      | succ i =>
          have := ih h.2 hi
          omega

/-- Slots do not overlap: the search by cover finds the same slot. -/
theorem SlotsFrom.findIdx_covers {a b : Nat} {slots : List FillSlot} (h : SlotsFrom a slots b)
    {i : Nat} {s : FillSlot} (hi : slots[i]? = some s) {v : Nat} (hv : s.covers v = true) :
    slots.findIdx? (fun s => s.covers v) = some i := by
  induction slots generalizing a i with
  | nil => simp at hi
  | cons t rest ih =>
      cases i with
      | zero =>
          cases hi
          rw [List.findIdx?_cons, if_pos hv]
      | succ i =>
          have hge := h.2.vSeek_ge hi
          have hnot : ¬ t.covers v = true := by
            have := h.1
            simp only [FillSlot.covers, Bool.and_eq_true, decide_eq_true_eq] at hv ⊢
            omega
          rw [List.findIdx?_cons, if_neg hnot, ih h.2 hi]
          rfl

/-! ### One turn of the cut -/

variable {cx : ColdCx}

/-- What the bytes a turn of `classify` found have to do with the image. -/
def SourceOk (cx : ColdCx) (pos n : Nat) : Source → Prop
  | .written b => ∀ origin recs, b = image cx origin recs pos n
  | .orig off => off = pos ∧ pos + n ≤ cx.L.originSize ∧
      ∀ origin recs v, pos ≤ v → v < pos + n → imageByte cx origin recs v = origin.getD v 0
  | .slot i start => i < cx.L.slots.length ∧ start + n ≤ (cx.slot i).vLen ∧
      ∀ origin recs t, t < n →
        imageByte cx origin recs (pos + t) = (slotContent cx i (recs i)).getD (start + t) 0

theorem imageByte_window (hok : LayoutOk cx.L) {w : Window} (hw : w ∈ cx.L.windows) {v : Nat}
    (hv : w.covers v = true) (origin : Bytes) (recs : Nat → Bytes) :
    imageByte cx origin recs v = w.bytes.getD (v - w.off) 0 := by
  have hin := hok.inside w hw
  have hlt : v < cx.L.originSize := by
    simp only [Window.covers, Bool.and_eq_true, decide_eq_true_eq] at hv
    omega
  simp only [imageByte, if_pos hlt, find_window hok.windows hw hv]

/-- A turn that moves on inside the chunk and finds the image's bytes. -/
structure TurnOk (cx : ColdCx) (pos stop : Nat) (t : Source × Nat) : Prop where
  moves : 0 < t.2
  inside : pos + t.2 ≤ stop
  source : SourceOk cx pos t.2 t.1

/-- A stretch written at once. -/
theorem turnOk_written {pos stop n : Nat} {b : Bytes} (hlen : b.length = n) (hpos : 0 < n)
    (hstop : pos + n ≤ stop)
    (h : ∀ origin recs t, t < n → b[t]? = some (imageByte cx origin recs (pos + t))) :
    TurnOk cx pos stop (.written b, n) := by
  refine ⟨hpos, hstop, ?_⟩
  intro origin recs
  subst hlen
  exact eq_image (h origin recs)

theorem getElem?_eq_getD {b : Bytes} {t : Nat} (h : t < b.length) : b[t]? = some (b.getD t 0) := by
  rw [List.getElem?_eq_getElem h, List.getD_eq_getElem _ _ h]

theorem turnOk_window (hok : LayoutOk cx.L) {pos stop : Nat} (hpos : pos < stop)
    (hlt : pos < cx.L.originSize) {w : Window} (hw : w ∈ cx.L.windows)
    (hcov : w.covers pos = true) :
    TurnOk cx pos stop (.written (slice w.bytes (pos - w.off)
      (min (min stop cx.L.originSize) w.stop - pos)),
        min (min stop cx.L.originSize) w.stop - pos) := by
  have hws : w.stop = w.off + w.bytes.length := rfl
  simp only [Window.covers, Bool.and_eq_true, decide_eq_true_eq] at hcov
  refine turnOk_written (by rw [length_slice]; omega) (by omega) (by omega) ?_
  intro origin recs t ht
  have hcov' : w.covers (pos + t) = true := by
    simp only [Window.covers, Bool.and_eq_true, decide_eq_true_eq]
    omega
  rw [imageByte_window hok hw hcov', getElem?_slice, if_pos ht, getElem?_eq_getD (by omega)]
  congr 2
  omega

theorem turnOk_origin (hok : LayoutOk cx.L) {pos stop : Nat} (hpos : pos < stop)
    (hlt : pos < cx.L.originSize) : TurnOk cx pos stop (classifyAt cx.L pos stop) := by
  have hscan := @windowScan_spec pos cx.L.windows (min stop cx.L.originSize) (by omega)
  simp only [classifyAt, if_pos hlt]
  generalize windowScan pos cx.L.windows (min stop cx.L.originSize) = res at hscan ⊢
  obtain ⟨ow, next⟩ := res
  obtain ⟨w, hw, hmem, hcov⟩ | ⟨hnone, hnext, hle, hall⟩ := hscan
  · cases hw
    exact turnOk_window hok hpos hlt hmem hcov
  · cases hnone
    simp only at hnext hle hall
    refine ⟨?_, ?_, rfl, ?_, ?_⟩
    · show 0 < next - pos
      omega
    · show pos + (next - pos) ≤ stop
      omega
    · show pos + (next - pos) ≤ cx.L.originSize
      omega
    · intro origin recs v hv₁ hv₂
      simp only at hv₂
      have hfind : cx.L.windows.find? (fun w => w.covers v) = none := by
        rw [List.find?_eq_none]
        intro w hw
        simp [hall w hw v hv₁ (by omega)]
      simp only [imageByte, if_pos (show v < cx.L.originSize by omega), hfind]

theorem turnOk_slot (hok : LayoutOk cx.L) {pos stop : Nat} (hpos : pos < stop)
    (hstop : stop ≤ cx.L.virtualSize) (hlo : cx.L.slotsBegin ≤ pos) :
    TurnOk cx pos stop (classifyAt cx.L pos stop) := by
  have hmeta := hok.metaSeek
  have hend := hok.metaEnd
  have hme : cx.L.metaSeek ≤ cx.L.metaEnd := Nat.le_add_right _ _
  have hpast : ∀ t, ¬ pos + t < cx.L.originSize ∧ ¬ pos + t < cx.L.metaSeek ∧
      ¬ pos + t < cx.L.metaEnd ∧ ¬ pos + t < cx.L.slotsBegin := by omega
  have h1 : ¬ pos < cx.L.originSize := by omega
  have h2 : ¬ pos < cx.L.metaSeek := by omega
  have h3 : ¬ pos < cx.L.metaEnd := by omega
  obtain ⟨-, s, hs, hcov⟩ := hok.slots.upperBound hlo (show pos < _ by omega)
  change cx.L.slots[cx.L.slotAt pos]? = some s at hs
  have hgetD : cx.L.slots.getD (cx.L.slotAt pos) {} = s := by
    rw [List.getD_eq_getElem?_getD, hs]
    rfl
  unfold classifyAt
  rw [if_neg h1, if_neg h2, if_neg h3, if_neg (show ¬ pos < cx.L.slotsBegin by omega)]
  simp only [hgetD]
  simp only [FillSlot.covers, Bool.and_eq_true, decide_eq_true_eq] at hcov
  refine ⟨?_, ?_, (List.getElem?_eq_some_iff.1 hs).1, ?_, ?_⟩
  · simp only
    omega
  · simp only
    omega
  · simp only [ColdCx.slot, hgetD]
    omega
  · intro origin recs t ht
    simp only at ht
    obtain ⟨h1, h2, h3, h4⟩ := hpast t
    have hfind := @SlotsFrom.findIdx_covers _ _ _ hok.slots _ s hs (pos + t) (by
      simp only [FillSlot.covers, Bool.and_eq_true, decide_eq_true_eq]
      omega)
    simp only [imageByte, if_neg h1, if_neg h2, if_neg h3, if_neg h4, hfind, ColdCx.slot, hgetD]
    congr 1
    omega

/-- [SRC ColdRun.cc:1437-1491] Each turn of the loop moves on inside the chunk, and what it finds
is the image's bytes there. -/
theorem classifyAt_spec {cx : ColdCx} (hok : LayoutOk cx.L) {pos stop : Nat} (hpos : pos < stop)
    (hstop : stop ≤ cx.L.virtualSize) : TurnOk cx pos stop (classifyAt cx.L pos stop) := by
  have hmeta := hok.metaSeek
  have hend := hok.metaEnd
  have hme : cx.L.metaEnd = cx.L.metaSeek + cx.L.metaRecord.length := rfl
  by_cases horig : pos < cx.L.originSize
  · exact turnOk_origin hok hpos horig
  by_cases hslot : cx.L.slotsBegin ≤ pos
  · exact turnOk_slot hok hpos hstop hslot
  unfold classifyAt
  rw [if_neg horig]
  by_cases hpad : pos < cx.L.metaSeek
  · rw [if_pos hpad]
    refine turnOk_written (by simp) (by omega) (by omega) ?_
    intro origin recs t ht
    simp only [imageByte, List.getElem?_replicate, if_pos ht,
      if_neg (show ¬ pos + t < cx.L.originSize by omega),
      if_pos (show pos + t < cx.L.metaSeek by omega)]
  rw [if_neg hpad]
  by_cases hrec : pos < cx.L.metaEnd
  · rw [if_pos hrec]
    refine turnOk_written (by rw [length_slice]; omega) (by omega) (by omega) ?_
    intro origin recs t ht
    rw [getElem?_slice, if_pos ht, getElem?_eq_getD (by omega)]
    simp only [imageByte, if_neg (show ¬ pos + t < cx.L.originSize by omega),
      if_neg (show ¬ pos + t < cx.L.metaSeek by omega),
      if_pos (show pos + t < cx.L.metaEnd by omega)]
    congr 2
    omega
  rw [if_neg hrec, if_pos (by omega)]
  refine turnOk_written (by simp) (by omega) (by omega) ?_
  intro origin recs t ht
  simp only [imageByte, List.getElem?_replicate, if_pos ht,
    if_neg (show ¬ pos + t < cx.L.originSize by omega),
    if_neg (show ¬ pos + t < cx.L.metaSeek by omega),
    if_neg (show ¬ pos + t < cx.L.metaEnd by omega),
    if_pos (show pos + t < cx.L.slotsBegin by omega)]

/-! ### Bytes of the origin -/

/-- The bytes of the basket or page a slot stands for. -/
def origBytes (cx : ColdCx) (origin : Bytes) (i : Nat) : Bytes :=
  slice origin (cx.slot i).origSeek (cx.slot i).origLen

/-- [SRC ReadRounding.h:33-56] A rounded span covers the one asked for, as far as the file goes. -/
theorem roundSpan_spec (pageSize fileSize off len : Nat) :
    (roundSpan pageSize fileSize off len).1 ≤ off ∧
      (roundSpan pageSize fileSize off len).1 ≤ (roundSpan pageSize fileSize off len).2 ∧
        (off + len ≤ (roundSpan pageSize fileSize off len).2 ∨
          fileSize ≤ (roundSpan pageSize fileSize off len).2) := by
  have hstart : off / pageSize * pageSize ≤ off := Nat.div_mul_le_self _ _
  unfold roundSpan
  simp only
  split
  · simp
  · rename_i h
    have hpos : 0 < pageSize := by
      by_contra hzero
      have : pageSize = 0 := by omega
      subst this
      simp at h
    have hceil : off + len ≤ (off + len + pageSize - 1) / pageSize * pageSize := by
      have hdiv := Nat.lt_div_mul_add (a := off + len + pageSize - 1) hpos
      omega
    simp only
    omega

/-- [SRC ColdRun.cc:1367-1381] What is gathered from elements that hold the origin's bytes is the
origin's bytes, all of them. -/
theorem gather_origin {origin : Bytes} {wire : List (WireElem × Bytes)}
    (h : ∀ e ∈ wire, e.2 = slice origin e.1.off e.1.len ∧ e.2.length = e.1.len)
    {pos left : Nat} {buf : Bytes} (hg : gather wire pos left = some buf) :
    buf = slice origin pos left ∧ buf.length = left := by
  induction wire generalizing pos left buf with
  | nil =>
      unfold gather at hg
      split at hg
      · rename_i hleft
        cases hg
        simp [hleft]
      · cases hg
  | cons e rest ih =>
      obtain ⟨w, data⟩ := e
      obtain ⟨hdata, hlen⟩ := h (w, data) (by simp)
      have hrest : ∀ e ∈ rest, e.2 = slice origin e.1.off e.1.len ∧ e.2.length = e.1.len :=
        fun e he => h e (by simp [he])
      unfold gather at hg
      split at hg
      · rename_i hleft
        cases hg
        simp [hleft]
      split at hg
      · exact ih hrest hg
      rename_i hin
      simp only [Option.map_eq_some_iff] at hg
      obtain ⟨b, hb, rfl⟩ := hg
      obtain ⟨hbytes, hblen⟩ := ih hrest hb
      simp only at hdata hlen
      have hfirst : slice data (pos - w.off) (min left (w.off + w.len - pos)) =
          slice origin pos (min left (w.off + w.len - pos)) := by
        rw [hdata, slice_slice (by omega)]
        congr 1
        omega
      constructor
      · rw [hfirst, hbytes, slice_append_slice]
        congr 1
        omega
      · rw [List.length_append, length_slice, hblen]
        omega

/-! ### Bytes of a slot -/

/-- [SRC ColdRun.cc:996-1031] A copy out of a record is the slot's bytes. -/
theorem slotBytes_content {i start len : Nat} {record b : Bytes}
    (hlen : start + len ≤ (cx.slot i).vLen) (h : slotBytes cx i record start len = some b) :
    b = slice (slotContent cx i record) start len ∧ b.length = len := by
  unfold slotBytes at h
  simp only at h
  by_cases hrnt : cx.rnt = true
  · rw [if_pos hrnt] at h
    split at h
    · cases h
    rename_i hpage
    cases h
    simp only [slotContent, if_pos hrnt]
    generalize hp : decodePage cx.D record ((cx.slot i).vLen - kSlotChecksumBytes) = page at *
    generalize hq : (cx.slot i).vLen - kSlotChecksumBytes = pageLen at *
    have hsum : (sealDecodedPage cx.hash page).length = 8 := by
      simp [sealDecodedPage, kSlotChecksumBytes]
    have hv : (cx.slot i).vLen ≤ pageLen + 8 := by
      rw [← hq, kSlotChecksumBytes]
      omega
    have hpl : page.length = pageLen := by simpa using hpage
    generalize sealDecodedPage cx.hash page = sum at *
    by_cases hin : start < pageLen
    · rw [if_pos hin]
      constructor
      · apply List.ext_getElem?
        intro t
        rw [getElem?_slice]
        by_cases ht : t < min len (pageLen - start)
        · rw [List.getElem?_append_left (by rw [length_slice]; omega), getElem?_slice, if_pos ht,
            if_pos (by omega), List.getElem?_append_left (by omega)]
        · rw [List.getElem?_append_right (by rw [length_slice]; omega), getElem?_slice,
            length_slice]
          by_cases ht' : t < len
          · rw [if_pos (by omega), if_pos ht', List.getElem?_append_right (by omega)]
            congr 1
            omega
          · rw [if_neg (by omega), if_neg ht']
      · rw [List.length_append, length_slice, length_slice]
        omega
    · rw [if_neg hin, List.nil_append]
      constructor
      · have hstart : start = page.length + (start - pageLen) := by omega
        rw [hstart, slice_append_right]
        congr 1 <;> omega
      · rw [length_slice]
        omega
  · rw [if_neg hrnt] at h
    cases h
    simp only [slotContent, if_neg hrnt]
    by_cases hin : start < record.length
    · rw [if_pos hin]
      constructor
      · apply List.ext_getElem?
        intro t
        rw [getElem?_slice]
        by_cases ht : t < min len (record.length - start)
        · rw [List.getElem?_append_left (by rw [length_slice]; omega), getElem?_slice, if_pos ht,
            if_pos (by omega), List.getElem?_append_left (by omega)]
        · rw [List.getElem?_append_right (by rw [length_slice]; omega), length_slice,
            List.getElem?_replicate]
          by_cases ht' : t < len
          · rw [if_pos (by omega), if_pos ht', List.getElem?_append_right (by omega),
              List.getElem?_replicate, if_pos (by omega)]
          · rw [if_neg (by omega), if_neg ht']
      · rw [List.length_append, length_slice, List.length_replicate]
        omega
    · rw [if_neg hin, slice_zero, List.nil_append]
      constructor
      · have hstart : start = record.length + (start - record.length) := by omega
        rw [hstart, slice_append_right, slice, List.drop_replicate, List.take_replicate]
        congr 1
        omega
      · rw [List.length_replicate]
        omega

/-! ### Records -/

/-- Decoding undoes this encoder on what slot `i` holds. -/
def SlotUndoes (cx : ColdCx) (origin : Bytes) (E : Encoder) (i : Nat) : Prop :=
  if cx.rnt then
    Undoes cx.D E 1 (decodePage cx.D ((origBytes cx origin i).take (cx.pages.getD i {}).nbytes)
      ((cx.slot i).vLen - kSlotChecksumBytes))
  else
    ∀ k, basketKey (origBytes cx origin i) = some k →
      Undoes cx.D E 1 (decompressFrames cx.D ((origBytes cx origin i).drop k.keylen)
        k.objlen.toNat)

/-- The record of slot `i` is what a conversion made of the original, here or elsewhere. -/
def Made (cx : ColdCx) (origin : Bytes) (recs : Nat → Bytes) (i : Nat) (kind : BasketKind) : Prop :=
  ∃ E, SlotUndoes cx origin E i ∧ convertSlot cx E i (origBytes cx origin i) = some (kind, recs i)

/-- What a slot's record is to its original: for a tree a record whose key names the slot and that
decodes to the same payload, for a column store a block that decodes to the same page. -/
def SlotRecordOk (cx : ColdCx) (origin : Bytes) (i : Nat) (record : Bytes) : Prop :=
  if cx.rnt then
    SamePage cx.D ((origBytes cx origin i).take (cx.pages.getD i {}).nbytes)
      ((cx.slot i).vLen - kSlotChecksumBytes) record
  else
    keySeek record = (cx.slot i).vSeek ∧
      (Covers (origBytes cx origin i) → record.length ≤ (cx.slot i).vLen ∧
        decodeBasket cx.D record = decodeBasket cx.D (origBytes cx origin i))

/-- A basket kept as stored is the original. -/
theorem convertBasket_original {D : Decoders} {E : Encoder} {record : Bytes} {slotLen : Nat}
    {codecs : List String} {c : ConvertedBasket}
    (h : convertBasket D E record slotLen codecs = .ok c) (hkind : c.kind = .original) :
    c.record = record := by
  unfold convertBasket at h
  split at h
  · cases h
  split at h
  · cases h
  simp only at h
  repeat' split at h
  all_goals cases h
  all_goals first
    | rfl
    | cases hkind

/-- The record of a tree's slot, before its key is pointed at the slot. -/
def treeRecord (cx : ColdCx) (E : Encoder) (i : Nat) (original : Bytes) : BasketKind × Bytes :=
  match convertBasket cx.D E original (cx.slot i).vLen cx.codecs with
  | .ok c => (c.kind, c.record)
  | .error _ => (.original, original)

theorem convertSlot_tree (hrnt : cx.rnt = false) {E : Encoder} {i : Nat} {original record : Bytes}
    {kind : BasketKind} (h : convertSlot cx E i original = some (kind, record)) :
    (treeRecord cx E i original).1 = kind ∧
      patchKeySeek (treeRecord cx E i original).2 (cx.slot i).vSeek = some record := by
  unfold convertSlot at h
  simp only [hrnt, Bool.false_eq_true, if_false, Option.map_eq_some_iff, Prod.mk.injEq] at h
  obtain ⟨r, hr, hk, rfl⟩ := h
  exact ⟨hk, hr⟩

/-- A slot kept as stored reads as the byte cache's copy, pointed at the slot. -/
theorem Made.original {origin : Bytes} {recs : Nat → Bytes} {i : Nat} (hrnt : cx.rnt = false)
    (h : Made cx origin recs i .original) :
    patchKeySeek (origBytes cx origin i) (cx.slot i).vSeek = some (recs i) := by
  obtain ⟨E, -, hconv⟩ := h
  obtain ⟨hkind, hpatch⟩ := convertSlot_tree hrnt hconv
  have hsame : (treeRecord cx E i (origBytes cx origin i)).2 = origBytes cx origin i := by
    unfold treeRecord at hkind ⊢
    split at hkind
    · rename_i c hc
      exact convertBasket_original hc hkind
    · rfl
  rwa [hsame] at hpatch

/-- What a layout gives its slots. -/
structure SlotsOk (cx : ColdCx) : Prop where
  room : cx.rnt = false → ∀ i, (cx.slot i).origLen ≤ (cx.slot i).vLen
  small : cx.rnt = false → ∀ i, (cx.slot i).vLen < 2 ^ 31

/-- Every record that was made is right for its slot. -/
theorem Made.recordOk (hslots : SlotsOk cx) {origin : Bytes} {recs : Nat → Bytes} {i : Nat}
    {kind : BasketKind} (h : Made cx origin recs i kind) : SlotRecordOk cx origin i (recs i) := by
  obtain ⟨E, hundo, hconv⟩ := h
  unfold SlotRecordOk
  unfold SlotUndoes at hundo
  by_cases hrnt : cx.rnt = true
  · rw [if_pos hrnt] at hundo ⊢
    unfold convertSlot at hconv
    simp only [if_pos hrnt] at hconv
    split at hconv
    · cases hconv
    · rename_i p hp
      simp only [Option.some.injEq, Prod.mk.injEq] at hconv
      rw [← hconv.2]
      exact (convertPage_same hp hundo).1
  · rw [if_neg hrnt] at hundo ⊢
    have hfalse : cx.rnt = false := by simpa using hrnt
    obtain ⟨-, hpatch⟩ := convertSlot_tree hfalse hconv
    have hput := patchKeySeek_spec hpatch
    refine ⟨hput.keySeek rfl, ?_⟩
    intro hcover
    have hsame : SameBasket cx.D (origBytes cx origin i) (cx.slot i).vLen
        (treeRecord cx E i (origBytes cx origin i)).2 := by
      unfold treeRecord
      split
      · rename_i c hc
        exact convertBasket_same hc (hslots.small hfalse i) hcover hundo
      · refine ⟨?_, rfl, hcover⟩
        have := hslots.room hfalse i
        simp only [origBytes, length_slice]
        omega
    refine ⟨?_, ?_⟩
    · rw [hput.length]
      exact hsame.length
    · rw [decodeBasket_patchKeySeek hpatch hsame.covers, hsame.decode]

/-! ### Where a record is -/

/-- What a snapshot of a slot says is right: its record is the slot's, or a conversion of this
kind made it. -/
structure WhereOk (cx : ColdCx) (origin : Bytes) (recs : Nat → Bytes) (i : Nat) (w : Where) :
    Prop where
  made : ∃ kind, Made cx origin recs i kind
  mem : ∀ m, w.mem = some m → m = recs i
  kind : w.mem = none → Made cx origin recs i w.kind

/-- [SRC ColdRun.cc:953-1032] A copy that succeeds yields the slot's bytes. -/
theorem copySlot_content {origin : Bytes} {recs : Nat → Bytes} {i start len : Nat} {w : Where}
    (hw : WhereOk cx origin recs i w) {a : Answers}
    (hcached : a.cached = true → a.bytes = origBytes cx origin i)
    (hstored : ∀ m, a.stored = some m → m = recs i) {b : Bytes}
    (h : copySlot cx i start len w a = .bytes b) :
    b = slice (slotContent cx i (recs i)) start len ∧ b.length = len := by
  have hrecord : ∀ record, recordOf cx i w a = some record → record = recs i := by
    intro record hr
    unfold recordOf at hr
    split at hr
    · rename_i m hm
      cases hr
      exact hw.mem _ hm
    rename_i hnone
    split at hr
    · rename_i hkind
      split at hr
      · rename_i hyes
        have horig := hw.kind hnone
        rw [hkind.1] at horig
        rw [hcached hyes, horig.original hkind.2] at hr
        exact (Option.some.inj hr).symm
      · cases hr
    split at hr
    · exact hstored record hr
    · cases hr
  unfold copySlot at h
  split at h
  · cases h
  rename_i hin
  split at h
  · cases h
  rename_i record hr
  split at h
  · cases h
  rename_i b' hb
  cases h
  rw [hrecord record hr] at hb
  exact slotBytes_content (by omega) hb

end UCache
