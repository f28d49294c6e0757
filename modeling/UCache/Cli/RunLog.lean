/-
Module: UCache.Cli.RunLog
Purpose: The reader of a run's per-file records, against the records closing entries write.
Trusted boundary: none
Main exports: loadFiles, loadFiles_written, records_read_back_iff
-/
import UCache.Core.ObsRecord
import Mathlib.Data.Finset.Max
import Mathlib.Data.UInt
import Mathlib.Logic.Function.Basic

namespace UCache

namespace RunLog

open CText Lib

/-! ### The reader -/

/-- [SRC RunLog.cc:27-29] The digits at the head of a text, folded modulo 2^64. -/
def digitsU64 (t : Bytes) : UInt64 :=
  (t.takeWhile isDigit).foldl (fun v b => v * 10 + (b - 48).toUInt64) 0

/-- [SRC RunLog.cc:21-31] -/
def fieldU64 (line name : Bytes) : UInt64 :=
  match after (quotedName name) line with
  | none => 0
  | some t => digitsU64 t

/-- [SRC RunLog.cc:59-67] -/
def fieldStr (line name : Bytes) : Bytes :=
  match after (quotedName name ++ [34]) line with
  | none => []
  | some t => if 34 ∈ t then t.takeWhile (· ≠ 34) else []

/-- [SRC RunLog.h:74-85] -/
structure FileRec where
  ts : UInt64 := 0
  opens : UInt64 := 0
  servedBytes : UInt64 := 0
  ramBytes : UInt64 := 0
  replicaBytes : UInt64 := 0
  diskReads : UInt64 := 0
  diskSeq : UInt64 := 0
  diskBytes : UInt64 := 0
  firstTouchBytes : UInt64 := 0
  wireBytes : UInt64 := 0
  spanUs : UInt64 := 0
  originSize : UInt64 := 0
  readBuckets : UInt64 := 0
  readSig : Bytes := []
  mode : Bytes := []
deriving DecidableEq

/-- [SRC RunLog.cc:181-215] A record's line added to what its key has already. -/
def FileRec.addLine (f : FileRec) (line : Bytes) : FileRec :=
  let rb := fieldU64 line (ascii "read_buckets")
  let rs := fieldStr line (ascii "read_sig")
  let m := fieldStr line (ascii "mode")
  let keepSig := rs ≠ [] ∧ f.readBuckets ≤ rb
  { ts := max f.ts (fieldU64 line (ascii "ts"))
    opens := f.opens + fieldU64 line (ascii "opens")
    servedBytes := f.servedBytes + fieldU64 line (ascii "served_bytes")
    ramBytes := f.ramBytes + fieldU64 line (ascii "ram_bytes")
    replicaBytes := f.replicaBytes + fieldU64 line (ascii "replica_bytes")
    diskReads := f.diskReads + fieldU64 line (ascii "disk_reads")
    diskSeq := f.diskSeq + fieldU64 line (ascii "disk_seq")
    diskBytes := f.diskBytes + fieldU64 line (ascii "disk_bytes")
    firstTouchBytes := f.firstTouchBytes + fieldU64 line (ascii "first_touch_bytes")
    wireBytes := f.wireBytes + fieldU64 line (ascii "wire_bytes")
    spanUs := f.spanUs + fieldU64 line (ascii "span_us")
    originSize := max f.originSize (fieldU64 line (ascii "origin_size"))
    readBuckets := if keepSig then rb else f.readBuckets
    readSig := if keepSig then rs else f.readSig
    mode := if m ≠ [] ∧ (f.mode = [] ∨ m = ascii "relay") then m else f.mode }

/-- The map from keys to what a run says of them. -/
abbrev Files := Bytes → Option FileRec

/-- [SRC RunLog.cc:173-178] -/
def loadLine (files : Files) (line : Bytes) : Files :=
  if line.getLast? ≠ some 125 then files
  else
    let key := fieldStr line (ascii "key")
    if key = [] then files
    else Function.update files key (some (((files key).getD {}).addLine line))

/-- [SRC RunLog.cc:169-217] -/
def loadFiles (content : Bytes) : Files := (getlines 10 content).foldl loadLine fun _ => none

/-! ### A record's line in the reader -/

theorem digitsU64_decimal {n : UInt64} {t : Bytes} (ht : Closes t) :
    digitsU64 (decimal n.toNat ++ t) = n := by
  obtain ⟨c, t', rfl, hc⟩ := ht
  have hstop : (c :: t').takeWhile isDigit = [] :=
    List.takeWhile_cons_of_neg (by rcases hc with rfl | rfl <;> decide)
  have hfold : ∀ ds : Bytes, (∀ b ∈ ds, isDigit b = true) →
      ds.foldl (fun v b => v * 10 + (b - 48).toUInt64) 0 = UInt64.ofNat (decimalValue ds) := by
    intro ds
    induction ds using List.reverseRecOn with
    | nil => exact fun _ => rfl
    | append_singleton ds b ih =>
        intro hds
        have hb := isDigit_iff.1 (hds b (List.mem_append_right _ (List.mem_singleton_self b)))
        rw [List.foldl_append, List.foldl_cons, List.foldl_nil, decimalValue_append,
          ih fun b hb => hds b (List.mem_append_left _ hb)]
        apply UInt64.toNat_inj.1
        have hsub : (b - 48).toNat = b.toNat - 48 :=
          UInt8.toNat_sub_of_le b 48 (UInt8.le_iff_toNat_le.2 hb.1)
        simp only [UInt64.toNat_add, UInt64.toNat_mul, UInt64.toNat_ofNat', UInt8.toNat_toUInt64,
          hsub]
        show ((decimalValue ds % 2 ^ 64 * 10 % 2 ^ 64) + (b.toNat - 48)) % 2 ^ 64 = _
        omega
  rw [digitsU64, List.takeWhile_append_of_pos fun b hb => isDigit_decimal hb, hstop,
    List.append_nil, hfold _ fun b hb => isDigit_decimal hb, decimalValue_decimal, UInt64.ofNat_toNat]

def fieldNames : List Bytes :=
  ["ts", "key", "opens", "served_bytes", "ram_bytes", "replica_bytes", "disk_reads", "disk_seq",
    "disk_bytes", "first_touch_bytes", "wire_bytes", "direct_bytes", "prefetch_issued",
    "prefetch_served", "prefetch_dropped", "span_us", "origin_size", "read_sig", "read_buckets",
    "mode"].map ascii

theorem fieldNames_spec : (∀ n ∈ fieldNames, n ≠ [] ∧ ∀ b ∈ n, NameByte b) ∧ fieldNames.Nodup := by
  have hall : fieldNames.all (fun n => !n.isEmpty && n.all fun b => decide (NameByte b)) := by
    decide +kernel
  exact ⟨by simpa using hall, by decide +kernel⟩

section Line

variable (r : ObsRecord)

theorem fst_fields : r.fields.map Prod.fst = fieldNames := rfl

theorem isName_fields {g : Bytes × FieldValue} (hg : g ∈ r.fields) : IsName g.1 := by
  have hmem : g.1 ∈ fieldNames := by
    rw [← fst_fields r]
    exact List.mem_map_of_mem hg
  obtain ⟨hne, hletters⟩ := fieldNames_spec.1 _ hmem
  exact ⟨hne, hletters⟩

theorem plain_sigText (h : UInt64) : ∀ c ∈ sigText h, 48 ≤ c ∧ c ≤ 102 ∧ c ≠ 92 := by
  intro c hc
  obtain ⟨i, -, rfl⟩ := List.mem_map.1 hc
  have hlt : h.toNat / 16 ^ (11 - i) % 16 < 16 := Nat.mod_lt _ (by omega)
  generalize h.toNat / 16 ^ (11 - i) % 16 = d at hlt
  revert d
  decide

theorem plain_mode : ∀ c ∈ r.mode, 97 ≤ c ∧ c ≤ 122 := by
  have hall : ∀ m ∈ [ascii "relay", ascii "fill", ascii "cached"], ∀ c ∈ m, 97 ≤ c ∧ c ≤ 122 := by
    decide +kernel
  apply hall
  unfold ObsRecord.mode
  split
  · exact List.mem_cons_self ..
  · split
    · exact List.mem_cons_of_mem _ (List.mem_cons_self ..)
    · exact List.mem_cons_of_mem _ (List.mem_cons_of_mem _ (List.mem_cons_self ..))

theorem plain_readSig : ∀ c ∈ r.readSig, 48 ≤ c ∧ c ≤ 102 ∧ c ≠ 92 := by
  unfold ObsRecord.readSig
  cases r.footprint with
  | none => exact fun c hc => absurd hc List.not_mem_nil
  | some f => exact plain_sigText f.1

theorem quoted_fields : ∀ g ∈ r.fields, g.2.Quoted := by
  have hsig : Escaped r.readSig := escaped_of_plain fun c hc =>
    ⟨by rintro rfl; exact absurd (plain_readSig r _ hc).1 (by decide), (plain_readSig r c hc).2.2⟩
  have hmode : Escaped r.mode := escaped_of_plain fun c hc =>
    ⟨by rintro rfl; exact absurd (plain_mode r _ hc).1 (by decide),
      by rintro rfl; exact absurd (plain_mode r _ hc).1 (by decide)⟩
  simp [ObsRecord.fields, FieldValue.Quoted, escaped_jsonEscapeMin, hsig, hmode]

variable {r}

theorem after_line {name : Bytes} {v : FieldValue} (h : (name, v) ∈ r.fields) :
    ∃ t, Closes t ∧ after (quotedName name) r.line = some (v.written ++ t) :=
  after_fieldsText (isName_fields r h) (by decide) (fun _ => isName_fields r) (quoted_fields r)
    (by rw [fst_fields]; exact fieldNames_spec.2) h

theorem fieldU64_line {name : Bytes} {n : UInt64} (h : (name, .number n) ∈ r.fields) :
    fieldU64 r.line name = n := by
  obtain ⟨t, ht, hafter⟩ := after_line h
  rw [fieldU64, hafter]
  exact digitsU64_decimal ht

omit r in
theorem takeWhile_upTo_quote (s t : Bytes) :
    (s ++ 34 :: t).takeWhile (· ≠ 34) = s.takeWhile (· ≠ 34) := by
  induction s with
  | nil => rfl
  | cons c s ih => rw [List.cons_append, List.takeWhile_cons, List.takeWhile_cons, ih]

/-- A quoted value is read up to its first quote. -/
theorem fieldStr_line {name s : Bytes} (h : (name, .text s) ∈ r.fields) :
    fieldStr r.line name = s.takeWhile (· ≠ 34) := by
  obtain ⟨t, -, hafter⟩ := after_line h
  have hshape : (FieldValue.text s).written ++ t = [34] ++ (s ++ 34 :: t) := by
    simp [FieldValue.written]
  rw [hshape] at hafter
  rw [fieldStr, after_extend hafter]
  refine (if_pos (List.mem_append_right _ (List.mem_cons_self ..))).trans ?_
  exact takeWhile_upTo_quote s t

theorem getLast?_line : r.line.getLast? = some 125 := by
  have hlast : ∀ (fields : List (Bytes × FieldValue)) (lead : UInt8),
      (fieldsText lead fields).getLast? = some 125 := by
    intro fields
    induction fields with
    | nil => exact fun _ => rfl
    | cons f fields ih =>
        intro lead
        rw [fieldsText, List.getLast?_append, ih]
        rfl
  exact hlast _ _

end Line

/-! ### The whole file -/

variable {k : Bytes}

theorem no_newline (r : ObsRecord) : 10 ∉ r.line := by
  have hvalue : ∀ v : FieldValue, v ∈ r.fields.map Prod.snd → 10 ∉ v.written := by
    intro v hv hmem
    have hnumber : ∀ n, v ≠ .number n := by
      rintro n rfl
      exact absurd (isDigit_decimal hmem) (by decide)
    cases v with
    | number n => exact hnumber n rfl
    | text s =>
        have hs : s = jsonEscapeMin r.key ∨ s = r.readSig ∨ s = r.mode := by
          simpa [ObsRecord.fields] using hv
        have hin : 10 ∈ s := by
          simpa [FieldValue.written] using hmem
        rcases hs with rfl | rfl | rfl
        · exact absurd (mem_jsonEscapeMin hin) (by decide)
        · exact absurd (plain_readSig r _ hin).1 (by decide)
        · exact absurd (plain_mode r _ hin).1 (by decide)
  have hnames : ∀ n ∈ fieldNames, 10 ∉ quotedName n := by
    decide +kernel
  have hfields : ∀ (fields : List (Bytes × FieldValue)) (lead : UInt8), lead ≠ 10 →
      (∀ g ∈ fields, 10 ∉ quotedName g.1 ∧ 10 ∉ g.2.written) → 10 ∉ fieldsText lead fields := by
    intro fields
    induction fields with
    | nil => exact fun _ _ _ h => absurd (List.mem_singleton.1 h) (by decide)
    | cons g fields ih =>
        intro lead hlead hall hmem
        obtain ⟨⟨hname, hwritten⟩, hrest⟩ := List.forall_mem_cons.1 hall
        rw [fieldsText, List.cons_append, List.cons_append, List.mem_cons, List.mem_append,
          List.mem_append] at hmem
        rcases hmem with h | (h | h) | h
        · exact hlead h.symm
        · exact hname h
        · exact hwritten h
        · exact ih 44 (by decide) hrest h
  refine hfields _ _ (by decide) fun g hg => ⟨hnames _ ?_, hvalue _ (List.mem_map_of_mem hg)⟩
  rw [← fst_fields r]
  exact List.mem_map_of_mem hg

theorem getlines_written (rs : List ObsRecord) :
    getlines 10 (written rs) = rs.map ObsRecord.line := by
  have hsplit : (written rs).splitOn 10 = rs.map ObsRecord.line ++ [[]] := by
    induction rs with
    | nil => rfl
    | cons r rs ih =>
        have hcons : written (r :: rs) = r.line ++ 10 :: written rs := by
          simp [written, ObsRecord.emitObsRecord]
        rw [hcons, List.splitOn_append_cons_self_of_not_mem (no_newline r), ih]
        rfl
  unfold getlines
  rw [hsplit]
  simp

/-- The key a record is filed under. -/
def loadedKey (r : ObsRecord) : Bytes := (jsonEscapeMin r.key).takeWhile (· ≠ 34)

/-- A record added to what its key has already. -/
def FileRec.add (f : FileRec) (r : ObsRecord) : FileRec :=
  let keepSig := r.readSig ≠ [] ∧ f.readBuckets ≤ r.readBuckets
  { ts := max f.ts r.ts
    opens := f.opens + r.opens
    servedBytes := f.servedBytes + r.servedBytes
    ramBytes := f.ramBytes + r.ramBytes
    replicaBytes := f.replicaBytes + r.replicaBytes
    diskReads := f.diskReads + r.diskReads
    diskSeq := f.diskSeq + r.diskSeq
    diskBytes := f.diskBytes + r.diskBytes
    firstTouchBytes := f.firstTouchBytes + r.firstTouchBytes
    wireBytes := f.wireBytes + r.wireBytes
    spanUs := f.spanUs + r.spanUs
    originSize := max f.originSize r.originSize
    readBuckets := if keepSig then r.readBuckets else f.readBuckets
    readSig := if keepSig then r.readSig else f.readSig
    mode := if r.mode ≠ [] ∧ (f.mode = [] ∨ r.mode = ascii "relay") then r.mode else f.mode }

theorem addLine_line (f : FileRec) (r : ObsRecord) : f.addLine r.line = f.add r := by
  have hnum : ∀ {name : Bytes} {n : UInt64} (i : Nat), r.fields[i]? = some (name, .number n) →
      fieldU64 r.line name = n := fun _ h => fieldU64_line (List.mem_of_getElem? h)
  have hstr : ∀ {name s : Bytes} (i : Nat), r.fields[i]? = some (name, .text s) → 34 ∉ s →
      fieldStr r.line name = s := by
    intro name s i h hs
    rw [fieldStr_line (List.mem_of_getElem? h)]
    refine List.takeWhile_eq_self_iff.2 fun c hc => decide_eq_true ?_
    rintro rfl
    exact hs hc
  have hsig : fieldStr r.line (ascii "read_sig") = r.readSig :=
    hstr 17 rfl fun h => absurd (plain_readSig r _ h).1 (by decide)
  have hmode : fieldStr r.line (ascii "mode") = r.mode :=
    hstr 19 rfl fun h => absurd (plain_mode r _ h).1 (by decide)
  unfold FileRec.addLine FileRec.add
  rw [hsig, hmode, hnum 0 rfl, hnum 2 rfl, hnum 3 rfl, hnum 4 rfl, hnum 5 rfl, hnum 6 rfl,
    hnum 7 rfl, hnum 8 rfl, hnum 9 rfl, hnum 10 rfl, hnum 15 rfl, hnum 16 rfl, hnum 18 rfl]

/-- What loading a record's line does to the map. -/
def addRecord (files : Files) (r : ObsRecord) : Files :=
  if loadedKey r = [] then files
  else Function.update files (loadedKey r) (some (((files (loadedKey r)).getD {}).add r))

theorem loadLine_line (files : Files) (r : ObsRecord) :
    loadLine files r.line = addRecord files r := by
  have hkey : fieldStr r.line (ascii "key") = loadedKey r :=
    fieldStr_line (List.mem_of_getElem? (i := 1) rfl)
  unfold loadLine addRecord
  rw [if_neg (not_not.2 getLast?_line), hkey]
  simp only [addLine_line]

/-- The file is loaded record by record, each under the key it was cut to. -/
theorem loadFiles_written (rs : List ObsRecord) :
    loadFiles (written rs) = rs.foldl addRecord fun _ => none := by
  unfold loadFiles
  rw [getlines_written, List.foldl_map]
  congr
  funext files r
  exact loadLine_line files r

/-- The records loaded under a key, in their order. -/
def under (k : Bytes) (rs : List ObsRecord) : List ObsRecord := rs.filter fun r => loadedKey r = k

theorem foldl_addRecord (hk : k ≠ []) (rs : List ObsRecord) (files : Files) :
    rs.foldl addRecord files k =
      if under k rs = [] then files k
      else some ((under k rs).foldl FileRec.add ((files k).getD {})) := by
  induction rs generalizing files with
  | nil => rfl
  | cons r rs ih =>
      rw [List.foldl_cons, ih]
      by_cases hr : loadedKey r = k
      · have hnew : addRecord files r k = some (((files k).getD {}).add r) := by
          unfold addRecord
          rw [hr, if_neg hk, Function.update_self]
        have hcons : under k (r :: rs) = r :: under k rs :=
          List.filter_cons_of_pos (decide_eq_true hr)
        rw [hcons, if_neg (List.cons_ne_nil _ _), List.foldl_cons, hnew, Option.getD_some]
        split
        · rename_i hnil
          rw [hnil, List.foldl_nil]
        · rfl
      · have hold : addRecord files r k = files k := by
          unfold addRecord
          split
          · rfl
          · exact Function.update_of_ne (Ne.symm hr) _ _
        have hcons : under k (r :: rs) = under k rs :=
          List.filter_cons_of_neg (by rwa [decide_eq_true_eq])
        rw [hold, hcons]

theorem foldl_addRecord_nil (rs : List ObsRecord) (files : Files) :
    rs.foldl addRecord files [] = files [] := by
  induction rs generalizing files with
  | nil => rfl
  | cons r rs ih =>
      rw [List.foldl_cons, ih]
      unfold addRecord
      split
      · rfl
      · rename_i hne
        exact Function.update_of_ne (Ne.symm hne) _ _

/-! ### Reading back -/

/-- The counters of a key are those of its records together. -/
structure Totals (rs : List ObsRecord) (f : FileRec) : Prop where
  ts : f.ts = (rs.map (·.ts)).foldl max 0
  opens : f.opens = (rs.map (·.opens)).sum
  servedBytes : f.servedBytes = (rs.map (·.servedBytes)).sum
  ramBytes : f.ramBytes = (rs.map (·.ramBytes)).sum
  replicaBytes : f.replicaBytes = (rs.map (·.replicaBytes)).sum
  diskReads : f.diskReads = (rs.map (·.diskReads)).sum
  diskSeq : f.diskSeq = (rs.map (·.diskSeq)).sum
  diskBytes : f.diskBytes = (rs.map (·.diskBytes)).sum
  firstTouchBytes : f.firstTouchBytes = (rs.map (·.firstTouchBytes)).sum
  wireBytes : f.wireBytes = (rs.map (·.wireBytes)).sum
  spanUs : f.spanUs = (rs.map (·.spanUs)).sum
  originSize : f.originSize = (rs.map (·.originSize)).foldl max 0

/-- One record of the file for every key, under that key, with the totals of the key's records. -/
structure ReadsBack (rs : List ObsRecord) : Prop where
  keys : ∀ k, (loadFiles (written rs) k).isSome = true ↔ ∃ r ∈ rs, r.key = k
  totals : ∀ k f, loadFiles (written rs) k = some f → Totals (rs.filter fun r => r.key = k) f

theorem foldl_add_sum {counter : FileRec → UInt64} {count : ObsRecord → UInt64}
    (hstep : ∀ f r, counter (f.add r) = counter f + count r) (rs : List ObsRecord) (f : FileRec) :
    counter (rs.foldl FileRec.add f) = counter f + (rs.map count).sum := by
  induction rs generalizing f with
  | nil => exact (UInt64.add_zero _).symm
  | cons r rs ih => rw [List.foldl_cons, ih, hstep, List.map_cons, List.sum_cons, UInt64.add_assoc]

theorem foldl_add_max {counter : FileRec → UInt64} {count : ObsRecord → UInt64}
    (hstep : ∀ f r, counter (f.add r) = max (counter f) (count r)) (rs : List ObsRecord)
    (f : FileRec) :
    counter (rs.foldl FileRec.add f) = (rs.map count).foldl max (counter f) := by
  induction rs generalizing f with
  | nil => rfl
  | cons r rs ih => rw [List.foldl_cons, ih, hstep, List.map_cons, List.foldl_cons]

theorem totals_foldl (rs : List ObsRecord) : Totals rs (rs.foldl FileRec.add {}) := by
  have hsum : ∀ {counter : FileRec → UInt64} {count : ObsRecord → UInt64}, counter {} = 0 →
      (∀ f r, counter (f.add r) = counter f + count r) →
        counter (rs.foldl FileRec.add {}) = (rs.map count).sum := by
    intro counter count hzero hstep
    rw [foldl_add_sum hstep, hzero, UInt64.zero_add]
  refine ⟨foldl_add_max (fun _ _ => rfl) rs {}, ?_, ?_, ?_, ?_, ?_, ?_, ?_, ?_, ?_, ?_,
    foldl_add_max (fun _ _ => rfl) rs {}⟩
  all_goals exact hsum rfl fun _ _ => rfl

/-- A key the reader takes as it is. -/
def PlainKey (k : Bytes) : Prop := k ≠ [] ∧ ∀ b ∈ k, 32 ≤ b ∧ b ≠ 34 ∧ b ≠ 92

theorem jsonEscapeMin_plain (h : ∀ b ∈ k, 32 ≤ b ∧ b ≠ 34 ∧ b ≠ 92) : jsonEscapeMin k = k := by
  induction k with
  | nil => rfl
  | cons b k ih =>
      obtain ⟨⟨hb, h34, h92⟩, hk⟩ := List.forall_mem_cons.1 h
      rw [jsonEscapeMin_cons hb, if_neg (not_or.2 ⟨h34, h92⟩), ih hk]
      rfl

theorem loadedKey_plain {r : ObsRecord} (h : PlainKey r.key) : loadedKey r = r.key := by
  unfold loadedKey
  rw [jsonEscapeMin_plain h.2]
  exact List.takeWhile_eq_self_iff.2 fun b hb => decide_eq_true (h.2 b hb).2.1

theorem isSome_loadFiles {rs : List ObsRecord} :
    (loadFiles (written rs) k).isSome = true ↔ k ≠ [] ∧ ∃ r ∈ rs, loadedKey r = k := by
  rw [loadFiles_written]
  by_cases hk : k = []
  · subst hk
    rw [foldl_addRecord_nil]
    simp
  · rw [foldl_addRecord hk]
    have hunder : under k rs = [] ↔ ¬ ∃ r ∈ rs, loadedKey r = k := by
      simp [under, List.filter_eq_nil_iff]
    by_cases hex : ∃ r ∈ rs, loadedKey r = k
    · rw [if_neg fun h => hunder.1 h hex]
      simp [hk, hex]
    · rw [if_pos (hunder.2 hex)]
      simp [hex]

/-- Without quotes to cut it at, a key with a backslash becomes longer. -/
theorem length_jsonEscapeMin (h : ∀ b ∈ k, 32 ≤ b) :
    (jsonEscapeMin k).length = k.length + k.countP fun b => b = 34 ∨ b = 92 := by
  induction k with
  | nil => rfl
  | cons b k ih =>
      obtain ⟨hb, hk⟩ := List.forall_mem_cons.1 h
      rw [jsonEscapeMin_cons hb, List.length_append, ih hk, List.countP_cons, List.length_cons]
      by_cases hspecial : b = 34 ∨ b = 92
      · rw [if_pos hspecial, if_pos (decide_eq_true hspecial)]
        simp only [List.length_cons, List.length_nil]
        omega
      · rw [if_neg hspecial, if_neg (by rwa [decide_eq_true_eq])]
        simp only [List.length_cons, List.length_nil]
        omega

theorem mem_of_mem_jsonEscapeMin {b : UInt8} (h : b ∈ jsonEscapeMin k) : b ∈ k ∨ b = 92 := by
  induction k with
  | nil => cases h
  | cons c k ih =>
      rw [jsonEscapeMin, List.mem_append, List.mem_append] at h
      rcases h with (h | h) | h
      · split at h
        · exact .inr (List.mem_singleton.1 h)
        · cases h
      · split at h
        · exact .inl (List.mem_cons.2 (.inl (List.mem_singleton.1 h)))
        · cases h
      · exact (ih h).imp_left (List.mem_cons_of_mem c)

theorem backslash_jsonEscapeMin (h : 92 ∈ k) : 92 ∈ jsonEscapeMin k := by
  induction k with
  | nil => cases h
  | cons b k ih =>
      rw [jsonEscapeMin]
      rcases List.mem_cons.1 h with rfl | h
      · exact List.mem_append_left _ (List.mem_append_left _ (List.mem_singleton_self _))
      · exact List.mem_append_right _ (ih h)

/-- A key with a backslash and no quote is filed under a longer one with a backslash. -/
theorem loadedKey_grows {r : ObsRecord} (hctl : ∀ b ∈ r.key, 32 ≤ b) (h34 : 34 ∉ r.key)
    (h92 : 92 ∈ r.key) : r.key.length < (loadedKey r).length ∧ 92 ∈ loadedKey r := by
  have hkey : loadedKey r = jsonEscapeMin r.key := by
    refine List.takeWhile_eq_self_iff.2 fun b hb => decide_eq_true ?_
    rintro rfl
    rcases mem_of_mem_jsonEscapeMin hb with h | h
    · exact h34 h
    · exact absurd h (by decide)
  have hlong : r.key.length < (jsonEscapeMin r.key).length := by
    rw [length_jsonEscapeMin hctl]
    have hpos : 0 < r.key.countP fun b => b = 34 ∨ b = 92 :=
      List.countP_pos_iff.2 ⟨92, h92, rfl⟩
    omega
  rw [hkey]
  exact ⟨hlong, backslash_jsonEscapeMin h92⟩

/-- The records read back when their keys have no quotes, no backslashes and no control characters.
A key cut at a quote is nobody's; of the keys with backslashes the longest goes to a longer one. -/
theorem records_read_back_iff (rs : List ObsRecord) :
    ReadsBack rs ↔ ∀ r ∈ rs, PlainKey r.key := by
  constructor
  · intro h
    have hback : ∀ r ∈ rs, r.key ≠ [] ∧ ∃ r' ∈ rs, loadedKey r' = r.key := fun r hr =>
      isSome_loadFiles.1 ((h.keys r.key).2 ⟨r, hr, rfl⟩)
    have hctl : ∀ r ∈ rs, ∀ b ∈ r.key, 32 ≤ b ∧ b ≠ 34 := by
      intro r hr b hb
      obtain ⟨-, r', -, hkey⟩ := hback r hr
      rw [← hkey, loadedKey] at hb
      exact ⟨mem_jsonEscapeMin (List.takeWhile_subset _ hb), by
        simpa using List.mem_takeWhile_imp hb⟩
    have hslash : ∀ r ∈ rs, 92 ∉ r.key := by
      intro r hr h92
      obtain ⟨r₁, hr₁, hmax⟩ := (rs.toFinset.filter fun r => 92 ∈ r.key).exists_max_image
        (fun r => r.key.length) ⟨r, Finset.mem_filter.2 ⟨List.mem_toFinset.2 hr, h92⟩⟩
      obtain ⟨hmem, h92₁⟩ := Finset.mem_filter.1 hr₁
      have hmem := List.mem_toFinset.1 hmem
      obtain ⟨hlong, h92'⟩ := loadedKey_grows (fun b hb => (hctl r₁ hmem b hb).1)
        (fun h34 => (hctl r₁ hmem 34 h34).2 rfl) h92₁
      obtain ⟨r₂, hr₂, hkey⟩ := (h.keys (loadedKey r₁)).1
        (isSome_loadFiles.2 ⟨List.ne_nil_of_mem h92', r₁, hmem, rfl⟩)
      have hle := hmax r₂ (Finset.mem_filter.2 ⟨List.mem_toFinset.2 hr₂, hkey ▸ h92'⟩)
      rw [hkey] at hle
      omega
    intro r hr
    refine ⟨(hback r hr).1, fun b hb => ⟨(hctl r hr b hb).1, (hctl r hr b hb).2, ?_⟩⟩
    rintro rfl
    exact hslash r hr hb
  · intro h
    have hkey : ∀ r ∈ rs, loadedKey r = r.key := fun r hr => loadedKey_plain (h r hr)
    have hunder : ∀ k, under k rs = rs.filter fun r => r.key = k := fun k =>
      List.filter_congr fun r hr => by rw [hkey r hr]
    constructor
    · intro k
      rw [isSome_loadFiles]
      constructor
      · rintro ⟨-, r, hr, rfl⟩
        exact ⟨r, hr, (hkey r hr).symm⟩
      · rintro ⟨r, hr, rfl⟩
        exact ⟨(h r hr).1, r, hr, hkey r hr⟩
    · intro k f hf
      have hne : k ≠ [] := (isSome_loadFiles.1 (Option.isSome_of_eq_some hf)).1
      rw [loadFiles_written, foldl_addRecord hne] at hf
      split at hf
      · cases hf
      · obtain rfl := Option.some.inj hf
        rw [← hunder]
        exact totals_foldl _

/-- A record of a file whose path has a quote in it. -/
def quotedPath : ObsRecord where
  key := ascii "root://h:1094//a" ++ 34 :: ascii "b"
  ts := 1700000000
  opens := 1
  servedBytes := 4096
  ramBytes := 0
  replicaBytes := 0
  diskReads := 1
  diskSeq := 0
  diskBytes := 4096
  firstTouchBytes := 4096
  wireBytes := 0
  directBytes := 0
  prefetchIssued := 0
  prefetchServed := 0
  prefetchDropped := 0
  spanUs := 10
  originSize := 8192
  footprint := some (77, 1)
  opened := by decide

/-- Its key comes back cut at the quote, with a backslash at the end. -/
theorem quotedPath_lost : ¬ ReadsBack [quotedPath] := by
  intro h
  have hkey := (h.keys quotedPath.key).2 ⟨quotedPath, List.mem_singleton_self _, rfl⟩
  have hno : (loadFiles (written [quotedPath]) quotedPath.key).isSome = false := by
    decide +kernel
  rw [hno] at hkey
  cases hkey

end RunLog

end UCache
