/-
Module: UCache.Transpose.FillSafe
Purpose: Computing the fill layout and converting a basket with every access to a buffer checked.  For a
  file that parses the layout's are all inside; a basket's are unless its record is rebuilt in fewer
  than four bytes.
Trusted boundary: none
Main exports: declined, insideIn, placeSlotIn
-/
import UCache.Transpose.BuildSafe

namespace UCache

open Lib

/-- A refusal, among the ways a computation with checked accesses ends. -/
def declined {α : Type} : Except String α → Except BuildFault α
  | .ok a => .ok a
  | .error why => refuse why

@[simp] theorem declined_ok {α : Type} (a : α) : declined (.ok a) = .ok a := rfl

@[simp] theorem declined_error {α : Type} (why : String) :
    declined (.error why : Except String α) = refuse why := rfl

theorem declined_bind {α β : Type} (x : Except String α) (f : α → Except String β) :
    declined (x >>= f) = (declined x >>= fun a => declined (f a)) := by
  cases x <;> rfl

theorem avoids_declined {α : Type} (x : Except String α) : Avoids .outside (declined x) := by
  cases x with
  | ok a => exact avoids_ok a
  | error why => exact avoids_refuse

/-! ### The layout -/

/-- [SRC FillLayout.cc:203-207] Whether each of these baskets lies inside the file, up to the first
that does not. -/
def insideIn (br : BranchInfo) (fend : Int) : List Nat → Except BuildFault Bool
  | [] => .ok true
  | i :: rest =>
      if br.basketSeek.length ≤ i ∨ br.basketBytes.length ≤ i then .error .outside
      else if 0 < br.basketSeek.getD i 0 ∧ 0 < br.basketBytes.getD i 0 ∧
          br.basketSeek.getD i 0 + br.basketBytes.getD i 0 ≤ fend % 2 ^ 64 then
        insideIn br fend rest
      else .ok false

/-- [SRC FillLayout.cc:198-211] Whether branch `b` moves. -/
def movesIn (fm : FileMeta) (H : Header) (codecs : List String) (b : Nat) : Except BuildFault Bool :=
  let br := fm.branches.getD b {}
  if decide (0 < br.writeBasket) && !br.externalFile && decide (br.zipBytesOff ≠ 0) &&
      listed codecs (codecOfSetting br.compress H.compress) then
    insideIn br fm.fend (List.range br.writeBasket.toNat)
  else .ok false

def relocatedIn (fm : FileMeta) (H : Header) (codecs : List String) : Except BuildFault (List Nat) :=
  (List.range fm.branches.length).foldlM (fun moved b => do
    let moves ← movesIn fm H codecs b
    .ok (if moves then moved ++ [b] else moved)) []

/-- [SRC FillLayout.cc:233-244] -/
def placeSlotIn (fm : FileMeta) (slotFactor100 : Nat) (st : Placing) (bi : Nat × Nat) :
    Except BuildFault Placing :=
  let br := fm.branches.getD bi.1 {}
  if br.basketSeek.length ≤ bi.2 ∨ br.basketBytes.length ≤ bi.2 then .error .outside
  else
    let origLen := (br.basketBytes.getD bi.2 0).toNat
    let vLen := min (origLen * slotFactor100 / 100) kInt32Max
    do
      let blob₁ ← putIn st.blob (br.seekArrayOff + 8 * bi.2) 8 st.pos
      let blob₂ ← putIn blob₁ (br.bytesArrayOff + 4 * bi.2) 4 vLen
      .ok
        { pos := st.pos + vLen
          blob := blob₂
          slots := st.slots ++
            [{ origSeek := (br.basketSeek.getD bi.2 0).toNat
               origLen := origLen
               vSeek := st.pos
               vLen := vLen
               branch := bi.1
               basket := bi.2 }] }

/-- [SRC FillLayout.cc:39-50] -/
def putKeySeekIn (why : String) (p : Bytes) (off ver : Nat) (seek : Int) : Except BuildFault Bytes :=
  if keyWide ver then putIn p (off + 18) 8 seek
  else if seek < 0 ∨ 2 ^ 31 ≤ seek then refuse why
  else putIn p (off + 18) 4 seek

/-- [SRC FillLayout.cc:262-268] -/
def metaRecordIn (E : Encoder) (fm : FileMeta) (treeKeyHeader blob : Bytes)
    (reserve metaSeek : Nat) : Except BuildFault Bytes :=
  let rec₀ := treeKeyHeader ++ metaPayload E blob
  if reserve < rec₀.length then refuse "metadata key outgrew its reservation"
  else do
    let rec₁ ← putIn rec₀ 0 4 rec₀.length
    putKeySeekIn "tree key is 32-bit and the extension starts past 2 GiB" rec₁ 0 fm.treeKey.ver
      metaSeek

/-- [SRC FillLayout.cc:283-294] -/
def patchEntriesIn (fm : FileMeta) (metaLen metaSeek : Nat) :
    Nat → Bytes → Nat → Bool → Except BuildFault (Bytes × Bool)
  | 0, klist, _, patched => .ok (klist, patched)
  | n + 1, klist, pos, patched =>
      match parseKey klist pos with
      | none => refuse "keys-list entry malformed"
      | some e =>
          if e.cls = ascii "TTree" ∧ e.name = fm.treeKey.name ∧
              e.seekkey = fm.treeKey.seekkey then do
            let k₁ ← putIn klist pos 4 metaLen
            let k₂ ← putKeySeekIn "keys-list entry is 32-bit and the metadata key lies past 2 GiB"
              k₁ pos e.ver metaSeek
            patchEntriesIn fm metaLen metaSeek n k₂ (pos + e.keylen) true
          else patchEntriesIn fm metaLen metaSeek n klist (pos + e.keylen) patched

/-- [SRC FillLayout.cc:270-296] -/
def patchKeysListIn (fm : FileMeta) (keysList : Bytes) (originSize metaLen metaSeek : Nat) :
    Except BuildFault Bytes :=
  match parseKey keysList 0 with
  | none => refuse "keys-list record malformed"
  | some kl =>
      if kl.nbytes ≤ 0 ∨ kl.nbytes ≠ keysList.length ∨ keysList.length < kl.keylen + 4 then
        refuse "keys-list record malformed"
      else if fm.keyslistSeek < 100 ∨ (originSize : Int) < fm.keyslistSeek + keysList.length then
        refuse "keys-list record does not lie inside the original file"
      else do
        let (klist, patched) ← patchEntriesIn fm metaLen metaSeek
          (beGetInt keysList kl.keylen 4).toNat keysList (kl.keylen + 4) false
        if patched then .ok klist else refuse "live tree entry not found in the keys list"

/-- [SRC FillLayout.cc:169-309] -/
def layoutForFillIn (E : Encoder) (fm : FileMeta) (fileSize : Nat)
    (header treeKeyHeader keysList : Bytes) (codecs : List String) (slotFactor100 : Nat) :
    Except BuildFault FillLayout :=
  if slotFactor100 < 100 then refuse "slot factor must be at least 1"
  else
    match parseHeader header with
    | none => refuse "file header unreadable or fBEGIN below 75"
    | some H =>
        if H.stop ≠ fm.fend then refuse "file header disagrees with the parse on fEND"
        else if treeKeyHeader.length ≠ fm.treeKey.keylen ∨ fm.treeKey.keylen < 26 then
          refuse "tree key header missing"
        else if fm.zipBytesOff = 0 ∨ fm.autoFlushOff = 0 ∨ fm.zipBytes ≤ 0 then
          refuse "tree record fields not located"
        else do
          let relocated ← relocatedIn fm H codecs
          if relocated = [] then refuse "no relocatable branch"
          else if (fileSize : Int) ≠ fm.fend % 2 ^ 64 then
            refuse ("file size " ++ toString fileSize ++ " differs from fEND " ++ toString fm.fend)
          else
            let metaSeek := (fileSize + kAlign - 1) / kAlign * kAlign
            let reserve := fm.treeKey.keylen + fm.treeBlob.length
            let slotsBegin := metaSeek + reserve
            do
              let placed ← (movedBaskets fm relocated).foldlM (placeSlotIn fm slotFactor100)
                { pos := slotsBegin, blob := fm.treeBlob }
              let metaRecord ← metaRecordIn E fm treeKeyHeader placed.blob reserve metaSeek
              let klist ← patchKeysListIn fm keysList fileSize metaRecord.length metaSeek
              let hw ← declined (headerWindowForEnd header placed.pos)
              .ok
                { originSize := fileSize
                  virtualSize := placed.pos
                  windows := [hw, { off := fm.keyslistSeek.toNat, bytes := klist }]
                  metaSeek := metaSeek
                  metaRecord := metaRecord
                  slotsBegin := slotsBegin
                  slots := placed.slots
                  relocated := relocated }

/-! ### A basket for its slot -/

/-- [SRC FillLayout.cc:353-355] The key header, a payload behind it, and the new length. -/
def rebuildIn (record : Bytes) (keylen : Nat) (payload : Bytes) : Except BuildFault Bytes :=
  if record.length < keylen then .error .outside
  else putIn (record.take keylen ++ payload) 0 4 (record.take keylen ++ payload).length

/-- [SRC FillLayout.cc:311-357] -/
def convertBasketIn (D : Decoders) (E : Encoder) (record : Bytes) (slotLen : Nat)
    (codecs : List String) : Except BuildFault ConvertedBasket :=
  match basketKey record with
  | none => refuse "not a basket record"
  | some k =>
      if slotLen < record.length then refuse "record longer than its slot"
      -- the length of the payload would be negative
      else if record.length < k.keylen then .error .outside
      else
        let pay := record.drop k.keylen
        let codec := frameCodec pay
        if k.storedRaw then .ok { kind := .original, record := record, codec := "" }
        else if !listed codecs codec || decide (k.objlen ≤ 0) then
          .ok { kind := .original, record := record, codec := codec }
        else
          let raw := decompressFrames D pay k.objlen.toNat
          let z := encodeZstdFrames E raw 1
          if raw = [] then .ok { kind := .original, record := record, codec := codec }
          else if z ≠ [] ∧ z.length < raw.length then
            if k.keylen + z.length ≤ slotLen then do
              let made ← rebuildIn record k.keylen z
              .ok { kind := .zstd, record := made, codec := codec }
            else .ok { kind := .original, record := record, codec := codec }
          else if k.keylen + raw.length ≤ slotLen then do
            let made ← rebuildIn record k.keylen raw
            .ok { kind := .raw, record := made, codec := codec }
          else .ok { kind := .original, record := record, codec := codec }

/-! ### The layout is inside -/

section Layout

variable {E : Encoder} {fm : FileMeta}

theorem putIn_eq {p : Bytes} {off n : Nat} {v : Int} (h : off + n ≤ p.length) :
    putIn p off n v = .ok (bePut p off n v) := if_neg (by omega)

theorem insideIn_eq {br : BranchInfo} {fend : Int} {is : List Nat}
    (h : ∀ i ∈ is, i < br.basketSeek.length ∧ i < br.basketBytes.length) :
    insideIn br fend is = .ok (is.all fun i =>
      decide (0 < br.basketSeek.getD i 0) && decide (0 < br.basketBytes.getD i 0) &&
        decide (br.basketSeek.getD i 0 + br.basketBytes.getD i 0 ≤ fend % 2 ^ 64)) := by
  induction is with
  | nil => rfl
  | cons i rest ih =>
      have hi := h i List.mem_cons_self
      unfold insideIn
      rw [if_neg (by omega), ih fun j hj => h j (List.mem_cons_of_mem _ hj), List.all_cons]
      split
      · rename_i hin
        rw [decide_eq_true hin.1, decide_eq_true hin.2.1, decide_eq_true hin.2.2, Bool.true_and,
          Bool.true_and, Bool.true_and]
      · rename_i hout
        have hfails : (decide (0 < br.basketSeek.getD i 0) && decide (0 < br.basketBytes.getD i 0) &&
            decide (br.basketSeek.getD i 0 + br.basketBytes.getD i 0 ≤ fend % 2 ^ 64)) = false := by
          rw [Bool.eq_false_iff]
          intro hall
          simp only [Bool.and_eq_true, decide_eq_true_eq] at hall
          exact hout ⟨hall.1.1, hall.1.2, hall.2⟩
        rw [hfails, Bool.false_and]

/-- A loop that keeps what passes a test is a filter. -/
theorem foldlM_filter {f : Nat → Except BuildFault Bool} {test : Nat → Bool} {l : List Nat}
    (h : ∀ b ∈ l, f b = .ok (test b)) (acc : List Nat) :
    (l.foldlM (fun kept b => do
      let moves ← f b
      (.ok (if moves then kept ++ [b] else kept) : Except BuildFault (List Nat))) acc) =
        .ok (acc ++ l.filter test) := by
  induction l generalizing acc with
  | nil => simp [pure, Except.pure]
  | cons b rest ih =>
      have hb := h b List.mem_cons_self
      rw [List.foldlM_cons]
      simp only [hb]
      show (rest.foldlM _ (if test b then acc ++ [b] else acc)) = _
      rw [ih fun x hx => h x (List.mem_cons_of_mem _ hx), List.filter_cons]
      split <;> simp

variable (hin : TreeInside fm.treeBlob.length fm)

include hin

theorem branch_inside {b : Nat} (hb : b < fm.branches.length) :
    BranchInside fm.treeBlob.length (fm.branches.getD b {}) := by
  rw [List.getD_eq_getElem _ _ hb]
  exact hin.branches _ (List.getElem_mem hb)

theorem relocatedIn_eq {H : Header} {codecs : List String} :
    relocatedIn fm H codecs = .ok (relocatedBranches fm H codecs) := by
  unfold relocatedIn relocatedBranches
  rw [@foldlM_filter _ (fun b =>
    let br := fm.branches.getD b {}
    decide (0 < br.writeBasket) && !br.externalFile && decide (br.zipBytesOff ≠ 0) &&
      listed codecs (codecOfSetting br.compress H.compress) && br.inside fm.fend)]
  · rfl
  · intro b hb
    have hbr := branch_inside hin (List.mem_range.1 hb)
    have hseeks := hbr.seeks
    have hbytes := hbr.bytes
    unfold movesIn
    simp only
    split
    · rename_i hmoves
      rw [insideIn_eq fun i hi => by have := List.mem_range.1 hi; omega, hmoves, Bool.true_and]
      rfl
    · rename_i hstays
      rw [Bool.not_eq_true] at hstays
      rw [hstays, Bool.false_and]

/-- A slot's place is written into the arrays of its branch. -/
theorem placeSlotIn_eq {k100 : Nat} {st : Placing} {bi : Nat × Nat}
    (hb : bi.1 < fm.branches.length) (hi : bi.2 < (fm.branches.getD bi.1 {}).writeBasket.toNat)
    (hst : st.blob.length = fm.treeBlob.length) :
    placeSlotIn fm k100 st bi = .ok (placeSlot fm k100 st bi) ∧
      (placeSlot fm k100 st bi).blob.length = fm.treeBlob.length := by
  have hbr := branch_inside hin hb
  have hseeks := hbr.seeks
  have hbytes := hbr.bytes
  have hcounted := hbr.counted
  have hseekArray := hbr.seekArray
  have hbytesArray := hbr.bytesArray
  unfold placeSlotIn placeSlot
  simp only
  generalize fm.branches.getD bi.1 {} = br at *
  have hlen : (bePut st.blob (br.seekArrayOff + 8 * bi.2) 8 st.pos).length = fm.treeBlob.length :=
    (length_bePut (by omega)).trans hst
  rw [if_neg (by omega), putIn_eq (by omega)]
  simp only [bind, Except.bind]
  rw [putIn_eq (by omega)]
  exact ⟨rfl, (length_bePut (by omega)).trans hlen⟩

theorem placeSlotsIn_eq {k100 : Nat} {moved : List (Nat × Nat)}
    (hmoved : ∀ bi ∈ moved, bi.1 < fm.branches.length ∧
      bi.2 < (fm.branches.getD bi.1 {}).writeBasket.toNat) {st : Placing}
    (hst : st.blob.length = fm.treeBlob.length) :
    moved.foldlM (placeSlotIn fm k100) st = .ok (moved.foldl (placeSlot fm k100) st) := by
  induction moved generalizing st with
  | nil => rfl
  | cons bi rest ih =>
      obtain ⟨hb, hi⟩ := hmoved bi List.mem_cons_self
      obtain ⟨hstep, hlen⟩ := @placeSlotIn_eq fm hin k100 st bi hb hi hst
      rw [List.foldlM_cons, hstep]
      exact ih (fun x hx => hmoved x (List.mem_cons_of_mem _ hx)) hlen

omit hin in
theorem movedBaskets_branch {H : Header} {codecs : List String} :
    ∀ bi ∈ movedBaskets fm (relocatedBranches fm H codecs), bi.1 < fm.branches.length ∧
      bi.2 < (fm.branches.getD bi.1 {}).writeBasket.toNat := by
  intro bi hbi
  simp only [movedBaskets, List.mem_flatMap, List.mem_map, List.mem_range] at hbi
  obtain ⟨b, hb, i, hi, rfl⟩ := hbi
  simp only [relocatedBranches, List.mem_filter, List.mem_range] at hb
  exact ⟨hb.1, hi⟩

omit hin

theorem putKeySeekIn_eq {why : String} {p : Bytes} {off ver : Nat} {seek : Int}
    (h : off + 26 ≤ p.length) :
    putKeySeekIn why p off ver seek =
      declined (match putKeySeek p off ver seek with
        | none => .error why
        | some p' => .ok p') := by
  unfold putKeySeekIn putKeySeek
  split
  · exact putIn_eq (by omega)
  · split
    · rfl
    · exact putIn_eq (by omega)

theorem metaRecordIn_eq {treeKeyHeader blob : Bytes} {reserve metaSeek : Nat}
    (h : 26 ≤ treeKeyHeader.length) :
    metaRecordIn E fm treeKeyHeader blob reserve metaSeek =
      declined (metaRecordFor E fm treeKeyHeader blob reserve metaSeek) := by
  unfold metaRecordIn metaRecordFor
  simp only
  split
  · rfl
  · have hlen : 26 ≤ (treeKeyHeader ++ metaPayload E blob).length := by
      rw [List.length_append]
      omega
    rw [putIn_eq (by omega)]
    simp only [bind, Except.bind]
    exact putKeySeekIn_eq (by rw [length_bePut (by omega)]; omega)

theorem patchEntriesIn_eq {metaLen metaSeek n : Nat} {klist : Bytes} {pos : Nat} {patched : Bool} :
    patchEntriesIn fm metaLen metaSeek n klist pos patched =
      declined (patchEntries fm metaLen metaSeek n klist pos patched) := by
  induction n generalizing klist pos patched with
  | zero => rfl
  | succ n ih =>
      unfold patchEntriesIn patchEntries
      cases he : parseKey klist pos with
      | none => rfl
      | some e =>
          have hlen := parseKey_length he
          simp only
          by_cases hlive : e.cls = ascii "TTree" ∧ e.name = fm.treeKey.name ∧
              e.seekkey = fm.treeKey.seekkey
          · rw [if_pos hlive, if_pos hlive, putIn_eq (by omega)]
            simp only [bind, Except.bind]
            rw [putKeySeekIn_eq (by rw [length_bePut (by omega)]; omega)]
            cases putKeySeek (bePut klist pos 4 metaLen) pos e.ver metaSeek with
            | none => rfl
            | some klist' => exact ih
          · rw [if_neg hlive, if_neg hlive]
            exact ih

theorem patchKeysListIn_eq {keysList : Bytes} {originSize metaLen metaSeek : Nat} :
    patchKeysListIn fm keysList originSize metaLen metaSeek =
      declined (patchKeysList fm keysList originSize metaLen metaSeek) := by
  unfold patchKeysListIn patchKeysList
  cases parseKey keysList 0 with
  | none => rfl
  | some kl =>
      simp only [patchEntriesIn_eq]
      by_cases hshape : kl.nbytes ≤ 0 ∨ kl.nbytes ≠ keysList.length ∨ keysList.length < kl.keylen + 4
      · rw [if_pos hshape, if_pos hshape]
        rfl
      rw [if_neg hshape, if_neg hshape]
      by_cases hplace : fm.keyslistSeek < 100 ∨ (originSize : Int) < fm.keyslistSeek + keysList.length
      · rw [if_pos hplace, if_pos hplace]
        rfl
      rw [if_neg hplace, if_neg hplace]
      cases patchEntries fm metaLen metaSeek (beGetInt keysList kl.keylen 4).toNat keysList
          (kl.keylen + 4) false with
      | error why => rfl
      | ok r =>
          obtain ⟨klist, patched⟩ := r
          cases patched <;> rfl

include hin

/-- For a file that parses, computing the layout makes no access outside of a buffer. -/
theorem layoutForFillIn_eq {fileSize : Nat} {header treeKeyHeader keysList : Bytes}
    {codecs : List String} {k100 : Nat} :
    layoutForFillIn E fm fileSize header treeKeyHeader keysList codecs k100 =
      declined (layoutForFill E fm fileSize header treeKeyHeader keysList codecs k100) := by
  unfold layoutForFillIn layoutForFill
  by_cases hfactor : k100 < 100
  · rw [if_pos hfactor, if_pos hfactor]
    rfl
  rw [if_neg hfactor, if_neg hfactor]
  cases parseHeader header with
  | none => rfl
  | some H =>
      simp only [relocatedIn_eq hin]
      by_cases hstop : H.stop ≠ fm.fend
      · rw [if_pos hstop, if_pos hstop]
        rfl
      rw [if_neg hstop, if_neg hstop]
      by_cases htreeKey : treeKeyHeader.length ≠ fm.treeKey.keylen ∨ fm.treeKey.keylen < 26
      · rw [if_pos htreeKey, if_pos htreeKey]
        rfl
      rw [if_neg htreeKey, if_neg htreeKey]
      by_cases hfields : fm.zipBytesOff = 0 ∨ fm.autoFlushOff = 0 ∨ fm.zipBytes ≤ 0
      · rw [if_pos hfields, if_pos hfields]
        rfl
      rw [if_neg hfields, if_neg hfields]
      show (if relocatedBranches fm H codecs = [] then _ else _) = _
      by_cases hnone : relocatedBranches fm H codecs = []
      · rw [if_pos hnone, if_pos hnone]
        rfl
      rw [if_neg hnone, if_neg hnone]
      by_cases hsize : (fileSize : Int) ≠ fm.fend % 2 ^ 64
      · rw [if_pos hsize, if_pos hsize]
        rfl
      rw [if_neg hsize, if_neg hsize, placeSlotsIn_eq hin movedBaskets_branch rfl]
      simp only [declined_bind, metaRecordIn_eq (show 26 ≤ treeKeyHeader.length by omega),
        patchKeysListIn_eq]
      rfl

end Layout

/-! ### Converting a basket -/

section Convert

variable {D : Decoders} {E : Encoder} {record : Bytes} {slotLen : Nat} {codecs : List String}
variable (D record slotLen codecs) in
/-- Where the record is rebuilt there are four bytes of it for its length. -/
def ConvertFits : Prop :=
  ∀ k, basketKey record = some k → record.length ≤ slotLen → k.storedRaw = false →
    listed codecs (frameCodec (record.drop k.keylen)) = true → 0 < k.objlen →
      decompressFrames D (record.drop k.keylen) k.objlen.toNat ≠ [] → 4 ≤ k.keylen + k.objlen

/-- A frame's header alone has nine bytes. -/
theorem encodeZstdFrames_length {raw : Bytes} {level : Nat} (h : encodeZstdFrames E raw level ≠ []) :
    9 ≤ (encodeZstdFrames E raw level).length := by
  unfold encodeZstdFrames at h ⊢
  cases hraw : raw with
  | nil =>
      rw [hraw] at h
      exact absurd rfl h
  | cons b rest =>
      rw [hraw] at h
      cases hz : zstdFrames E level (b :: rest).length (b :: rest) with
      | none =>
          rw [hz] at h
          exact absurd rfl h
      | some z =>
          obtain ⟨got, tail, -, -, rfl⟩ := zstdFrames_succ (by simp) hz
          simp only [length_zs, Option.getD_some, List.length_append, length_le]
          simp

theorem avoids_rebuildIn {keylen : Nat} {payload : Bytes} (h : keylen ≤ record.length) :
    Avoids .outside (rebuildIn record keylen payload) ↔ 4 ≤ keylen + payload.length := by
  unfold rebuildIn
  rw [if_neg (by omega), avoids_putIn, List.length_append, List.length_take]
  omega

theorem avoids_convertBasketIn :
    Avoids .outside (convertBasketIn D E record slotLen codecs) ↔
      ConvertFits D record slotLen codecs := by
  unfold convertBasketIn ConvertFits
  cases hkey : basketKey record with
  | none => simp [avoids_refuse]
  | some k =>
      obtain ⟨hparse, -, -, -, hkeylen⟩ := basketKey_inv hkey
      have hlong := parseKey_length hparse
      simp only [Option.some.injEq, forall_eq']
      by_cases hslot : slotLen < record.length
      · rw [if_pos hslot]
        exact ⟨fun _ h => absurd h (by omega), fun _ => avoids_refuse⟩
      rw [if_neg hslot, if_neg (by omega)]
      by_cases hstored : k.storedRaw = true
      · rw [if_pos hstored]
        exact ⟨fun _ _ h => absurd (hstored.symm.trans h) (by simp), fun _ => avoids_ok _⟩
      rw [if_neg hstored]
      generalize frameCodec (record.drop k.keylen) = codec
      by_cases hskip : (!listed codecs codec || decide (k.objlen ≤ 0)) = true
      · rw [if_pos hskip]
        simp only [Bool.or_eq_true, Bool.not_eq_true', decide_eq_true_eq] at hskip
        refine ⟨fun _ _ _ hlisted hpos => ?_, fun _ => avoids_ok _⟩
        rcases hskip with hskip | hskip
        · exact absurd (hskip.symm.trans hlisted) (by simp)
        · omega
      rw [if_neg hskip]
      simp only [Bool.or_eq_true, Bool.not_eq_true', decide_eq_true_eq, not_or, Bool.not_eq_false,
        Int.not_le] at hskip
      have hrawLen := @decompressFrames_length D (record.drop k.keylen) k.objlen.toNat
      generalize decompressFrames D (record.drop k.keylen) k.objlen.toNat = raw at hrawLen ⊢
      by_cases hraw : raw = []
      · rw [if_pos hraw]
        exact ⟨fun _ _ _ _ _ h => absurd hraw h, fun _ => avoids_ok _⟩
      have hrawLen := hrawLen hraw
      rw [if_neg hraw]
      have hz := @encodeZstdFrames_length E raw 1
      generalize encodeZstdFrames E raw 1 = z at hz ⊢
      have hrebuild (payload : Bytes) (kind : BasketKind) : Avoids .outside (do
          let made ← rebuildIn record k.keylen payload
          .ok ({ kind := kind, record := made, codec := codec } : ConvertedBasket)) ↔
            4 ≤ k.keylen + payload.length := by
        rw [avoids_bind, avoids_rebuildIn hkeylen]
        exact ⟨And.left, fun h => ⟨h, fun _ _ => avoids_ok _⟩⟩
      have hall : (record.length ≤ slotLen → k.storedRaw = false → listed codecs codec = true →
          0 < k.objlen → raw ≠ [] → 4 ≤ k.keylen + k.objlen) ↔ 4 ≤ k.keylen + raw.length :=
        ⟨fun h => by
          have := h (by omega) (by simpa using hstored) hskip.1 hskip.2 hraw
          omega, fun h _ _ _ _ _ => by omega⟩
      rw [hall]
      by_cases hshrinks : z ≠ [] ∧ z.length < raw.length
      · have hsmall := hz hshrinks.1
        rw [if_pos hshrinks]
        split
        · rw [hrebuild]
          omega
        · exact ⟨fun _ => by omega, fun _ => avoids_ok _⟩
      · rw [if_neg hshrinks]
        split
        · exact hrebuild raw .raw
        · exact ⟨fun _ => by omega, fun _ => avoids_ok _⟩

/-- Where the record fits, the access checks change nothing. -/
theorem convertBasketIn_eq (h : ConvertFits D record slotLen codecs) :
    convertBasketIn D E record slotLen codecs =
      declined (convertBasket D E record slotLen codecs) := by
  have havoids := (avoids_convertBasketIn (E := E)).2 h
  unfold convertBasketIn at havoids ⊢
  unfold convertBasket
  cases hkey : basketKey record with
  | none => rfl
  | some k =>
      obtain ⟨-, -, -, -, hkeylen⟩ := basketKey_inv hkey
      have hrebuild {payload : Bytes} {kind : BasketKind} {codec : String} (ha : Avoids .outside (do
          let made ← rebuildIn record k.keylen payload
          .ok ({ kind := kind, record := made, codec := codec } : ConvertedBasket))) :
          (do
            let made ← rebuildIn record k.keylen payload
            .ok ({ kind := kind, record := made, codec := codec } : ConvertedBasket)) =
          .ok { kind := kind, record := rebuildRecord record k.keylen payload, codec := codec } := by
        rw [avoids_bind, avoids_rebuildIn hkeylen] at ha
        rw [rebuildIn, if_neg (by omega), putIn_eq (by
          rw [List.length_append, List.length_take]
          omega)]
        rfl
      simp only [hkey] at havoids ⊢
      rw [if_neg (show ¬ record.length < k.keylen by omega)] at havoids ⊢
      by_cases hslot : slotLen < record.length
      · rw [if_pos hslot, if_pos hslot]
        rfl
      rw [if_neg hslot] at havoids ⊢
      rw [if_neg hslot]
      by_cases hstored : k.storedRaw = true
      · rw [if_pos hstored, if_pos hstored]
        rfl
      rw [if_neg hstored] at havoids ⊢
      rw [if_neg hstored]
      generalize frameCodec (record.drop k.keylen) = codec at havoids ⊢
      by_cases hskip : (!listed codecs codec || decide (k.objlen ≤ 0)) = true
      · rw [if_pos hskip, if_pos hskip]
        rfl
      rw [if_neg hskip] at havoids ⊢
      rw [if_neg hskip]
      generalize decompressFrames D (record.drop k.keylen) k.objlen.toNat = raw at havoids ⊢
      by_cases hraw : raw = []
      · rw [if_pos hraw, if_pos hraw]
        rfl
      rw [if_neg hraw] at havoids ⊢
      rw [if_neg hraw]
      generalize encodeZstdFrames E raw 1 = z at havoids ⊢
      by_cases hshrinks : z ≠ [] ∧ z.length < raw.length
      · rw [if_pos hshrinks] at havoids ⊢
        rw [if_pos hshrinks]
        by_cases hfits : k.keylen + z.length ≤ slotLen
        · rw [if_pos hfits] at havoids ⊢
          rw [if_pos hfits]
          exact hrebuild havoids
        · rw [if_neg hfits, if_neg hfits]
          rfl
      · rw [if_neg hshrinks] at havoids ⊢
        rw [if_neg hshrinks]
        by_cases hfits : k.keylen + raw.length ≤ slotLen
        · rw [if_pos hfits] at havoids ⊢
          rw [if_pos hfits]
          exact hrebuild havoids
        · rw [if_neg hfits, if_neg hfits]
          rfl

end Convert

end UCache
