/-
Module: UCache.Core.ObsRecord
Purpose: The record an entry leaves behind when it closes: one line of fields with a quoted key.
Trusted boundary: none
Main exports: ObsRecord, emitObsRecord, written
-/
import UCache.Core.SizeTexts
import UCache.Lib.Needle

namespace UCache

open CText Lib

/-! ### Texts -/

/-- A number as a stream prints it. -/
def decimal (n : Nat) : Bytes :=
  if n = 0 then [48] else (Nat.digits 10 n).reverse.map fun d => UInt8.ofNat (48 + d)

def hexDigitText (d : Nat) : UInt8 := UInt8.ofNat (if d < 10 then 48 + d else 87 + d)

/-- [SRC FileEntry.cc:29-39] -/
def jsonEscapeMin : Bytes → Bytes
  | [] => []
  | c :: s =>
      (if c = 34 ∨ c = 92 then [92] else []) ++ (if 32 ≤ c then [c] else []) ++ jsonEscapeMin s

/-- [SRC ReadFootprint.cc:135-138] `"%012llx"` of the low 48 bits. -/
def sigText (h : UInt64) : Bytes :=
  (List.range 12).map fun i => hexDigitText (h.toNat / 16 ^ (11 - i) % 16)

/-! ### The record -/

/-- [SRC FileEntry.cc:193-241] What an entry has counted when its record is written.  An entry never
opened writes none. -/
structure ObsRecord where
  key : Bytes
  ts : UInt64
  opens : UInt64
  servedBytes : UInt64
  ramBytes : UInt64
  replicaBytes : UInt64
  diskReads : UInt64
  diskSeq : UInt64
  diskBytes : UInt64
  firstTouchBytes : UInt64
  wireBytes : UInt64
  directBytes : UInt64
  prefetchIssued : UInt64
  prefetchServed : UInt64
  prefetchDropped : UInt64
  spanUs : UInt64
  originSize : UInt64
  /-- The hash and the count of a footprint that is not poisoned and not empty. -/
  footprint : Option (UInt64 × UInt64)
  opened : opens ≠ 0
deriving DecidableEq

/-- What stands behind a field's colon. -/
inductive FieldValue where
  | number (n : UInt64)
  | text (s : Bytes)

/-- A value as the record writes it. -/
def FieldValue.written : FieldValue → Bytes
  | number n => decimal n.toNat
  | text s => 34 :: s ++ [34]

/-- A field's name with its quotes and its colon. -/
def quotedName (name : Bytes) : Bytes := 34 :: name ++ [34, 58]

/-- The fields up to the closing brace; `lead` opens the object or parts the fields. -/
def fieldsText : UInt8 → List (Bytes × FieldValue) → Bytes
  | _, [] => [125]
  | lead, (name, v) :: fields => lead :: quotedName name ++ v.written ++ fieldsText 44 fields

namespace ObsRecord

variable (r : ObsRecord)

/-- [SRC FileEntry.cc:205-210] -/
def readSig : Bytes := (r.footprint.map fun f => sigText f.1).getD []

def readBuckets : UInt64 := (r.footprint.map Prod.snd).getD 0

/-- [SRC FileEntry.cc:235-238] -/
def mode : Bytes :=
  if r.servedBytes + r.replicaBytes < r.directBytes then ascii "relay"
  else if r.servedBytes < r.wireBytes then ascii "fill" else ascii "cached"

/-- [SRC FileEntry.cc:212-238] -/
def fields : List (Bytes × FieldValue) :=
  [(ascii "ts", .number r.ts), (ascii "key", .text (jsonEscapeMin r.key)),
    (ascii "opens", .number r.opens), (ascii "served_bytes", .number r.servedBytes),
    (ascii "ram_bytes", .number r.ramBytes), (ascii "replica_bytes", .number r.replicaBytes),
    (ascii "disk_reads", .number r.diskReads), (ascii "disk_seq", .number r.diskSeq),
    (ascii "disk_bytes", .number r.diskBytes),
    (ascii "first_touch_bytes", .number r.firstTouchBytes),
    (ascii "wire_bytes", .number r.wireBytes), (ascii "direct_bytes", .number r.directBytes),
    (ascii "prefetch_issued", .number r.prefetchIssued),
    (ascii "prefetch_served", .number r.prefetchServed),
    (ascii "prefetch_dropped", .number r.prefetchDropped), (ascii "span_us", .number r.spanUs),
    (ascii "origin_size", .number r.originSize), (ascii "read_sig", .text r.readSig),
    (ascii "read_buckets", .number r.readBuckets), (ascii "mode", .text r.mode)]

/-- The record's line without its end. -/
def line : Bytes := fieldsText 123 r.fields

/-- [SRC FileEntry.cc:193-241] -/
def emitObsRecord : Bytes := r.line ++ [10]

end ObsRecord

/-- The file the records of closing entries are appended to. -/
def written (rs : List ObsRecord) : Bytes := rs.flatMap ObsRecord.emitObsRecord

/-! ### What the texts keep out -/

/-- A text in which every quote and every backslash is behind a backslash. -/
inductive Escaped : Bytes → Prop
  | nil : Escaped []
  | plain {c : UInt8} {s : Bytes} : c ≠ 34 → c ≠ 92 → Escaped s → Escaped (c :: s)
  | pair {c : UInt8} {s : Bytes} : Escaped s → Escaped (92 :: c :: s)

theorem escaped_of_plain {s : Bytes} (h : ∀ c ∈ s, c ≠ 34 ∧ c ≠ 92) : Escaped s := by
  induction s with
  | nil => exact .nil
  | cons c s ih =>
      obtain ⟨hc, hs⟩ := List.forall_mem_cons.1 h
      exact .plain hc.1 hc.2 (ih hs)

theorem escaped_jsonEscapeMin (s : Bytes) : Escaped (jsonEscapeMin s) := by
  induction s with
  | nil => exact .nil
  | cons c s ih =>
      rw [jsonEscapeMin]
      by_cases hc : c = 34 ∨ c = 92
      · rw [if_pos hc, if_pos (by rcases hc with rfl | rfl <;> decide)]
        exact .pair ih
      · rw [if_neg hc]
        obtain ⟨h34, h92⟩ := not_or.1 hc
        split
        · exact .plain h34 h92 ih
        · exact ih

/-- Escaping only adds backslashes when there are no control characters. -/
theorem jsonEscapeMin_cons {c : UInt8} {s : Bytes} (hc : 32 ≤ c) :
    jsonEscapeMin (c :: s) = (if c = 34 ∨ c = 92 then [92, c] else [c]) ++ jsonEscapeMin s := by
  rw [jsonEscapeMin, if_pos hc]
  split <;> rfl

theorem mem_jsonEscapeMin {s : Bytes} {b : UInt8} (h : b ∈ jsonEscapeMin s) : 32 ≤ b := by
  induction s with
  | nil => cases h
  | cons c s ih =>
      rw [jsonEscapeMin, List.mem_append, List.mem_append] at h
      rcases h with (h | h) | h
      · split at h
        · obtain rfl := List.mem_singleton.1 h
          decide
        · cases h
      · split at h
        · rename_i hc
          obtain rfl := List.mem_singleton.1 h
          exact hc
        · cases h
      · exact ih h

theorem isDigit_decimal {n : Nat} {b : UInt8} (h : b ∈ decimal n) : isDigit b = true := by
  unfold decimal at h
  split at h
  · obtain rfl := List.mem_singleton.1 h
    rfl
  · obtain ⟨d, hd, rfl⟩ := List.mem_map.1 h
    have hlt : d < 10 := Nat.digits_lt_base (by omega) (List.mem_reverse.1 hd)
    rw [isDigit_iff, UInt8.toNat_ofNat']
    omega

theorem decimalValue_decimal (n : Nat) : decimalValue (decimal n) = n := by
  unfold decimal
  split
  · rename_i h
    rw [h]
    rfl
  · rw [decimalValue, ← List.map_reverse, List.reverse_reverse, List.map_map]
    have hdigits : (Nat.digits 10 n).map
        ((fun b : UInt8 => b.toNat - 48) ∘ fun d => UInt8.ofNat (48 + d)) = Nat.digits 10 n := by
      refine (List.map_congr_left fun d hd => ?_).trans (List.map_id _)
      have hlt : d < 10 := Nat.digits_lt_base (by omega) hd
      rw [Function.comp_apply, UInt8.toNat_ofNat']
      show _ = d
      omega
    rw [hdigits, Nat.ofDigits_digits]

/-- A quoted value is an escaped text. -/
def FieldValue.Quoted : FieldValue → Prop
  | number _ => True
  | text s => Escaped s

/-! ### Where a field's name is found -/

def NameByte (b : UInt8) : Prop := b = 95 ∨ 97 ≤ b ∧ b ≤ 122

instance : DecidablePred NameByte := fun b =>
  inferInstanceAs (Decidable (b = 95 ∨ 97 ≤ b ∧ b ≤ 122))

structure IsName (name : Bytes) : Prop where
  nonempty : name ≠ []
  letters : ∀ b ∈ name, NameByte b

theorem IsName.no_quote {name : Bytes} (h : IsName name) : 34 ∉ name ∧ 92 ∉ name :=
  ⟨fun hm => absurd (h.letters _ hm) (by decide), fun hm => absurd (h.letters _ hm) (by decide)⟩

/-- What follows a field's value. -/
def Closes (t : Bytes) : Prop := ∃ c t', t = c :: t' ∧ (c = 44 ∨ c = 125)

theorem closes_fieldsText (fields : List (Bytes × FieldValue)) : Closes (fieldsText 44 fields) := by
  cases fields with
  | nil => exact ⟨125, [], rfl, .inr rfl⟩
  | cons f fields => exact ⟨44, _, rfl, .inl rfl⟩

section Scan

variable {f : Bytes} (hf : IsName f)
include hf

/-- Behind a quote in an escaped text, and behind the one that ends it, no name is closed by a quote
and a colon. -/
theorem no_name_in_escaped {s t : Bytes} (hs : Escaped s) (ht : Closes t) :
    ¬ quotedName f <+: 34 :: (s ++ [34] ++ t) := by
  obtain ⟨c₀, t', rfl, hc₀⟩ := ht
  intro hpre
  rw [List.append_assoc] at hpre
  replace hpre : f ++ [34, 58] <+: s ++ 34 :: c₀ :: t' := (List.cons_prefix_cons.1 hpre).2
  obtain ⟨h34, h92⟩ := hf.no_quote
  clear hf
  induction f generalizing s with
  | nil =>
      cases hs with
      | nil =>
          have h58 := (List.cons_prefix_cons.1 (List.cons_prefix_cons.1 hpre).2).1
          rcases hc₀ with rfl | rfl <;> exact absurd h58 (by decide)
      | plain h _ _ => exact h (List.cons_prefix_cons.1 hpre).1.symm
      | pair _ => exact absurd (List.cons_prefix_cons.1 hpre).1 (by decide)
  | cons a f ih =>
      obtain ⟨ha34, hf34⟩ := List.ne_and_not_mem_of_not_mem_cons h34
      obtain ⟨ha92, hf92⟩ := List.ne_and_not_mem_of_not_mem_cons h92
      cases hs with
      | nil => exact ha34 (List.cons_prefix_cons.1 hpre).1.symm
      | plain _ _ hs => exact ih hs (List.cons_prefix_cons.1 hpre).2 hf34 hf92
      | pair _ => exact ha92 (List.cons_prefix_cons.1 hpre).1.symm

theorem neverStarts_escaped {s t : Bytes} (hs : Escaped s) (ht : Closes t) :
    NeverStarts (quotedName f) (s ++ [34]) t := by
  induction hs with
  | nil =>
      obtain ⟨c, t', rfl, hc⟩ := ht
      refine ⟨fun hpre => ?_, trivial⟩
      obtain ⟨b, f', rfl⟩ := List.exists_cons_of_ne_nil hf.nonempty
      have hb : b = c := (List.cons_prefix_cons.1 (List.cons_prefix_cons.1 hpre).2).1
      have hname := hf.letters b (List.mem_cons_self ..)
      rw [hb] at hname
      rcases hc with rfl | rfl <;> exact absurd hname (by decide)
  | plain h _ _ ih => exact ⟨fun hpre => h (List.cons_prefix_cons.1 hpre).1.symm, ih⟩
  | @pair c s hs ih =>
      refine ⟨fun hpre => absurd (List.cons_prefix_cons.1 hpre).1 (by decide), fun hpre => ?_, ih⟩
      obtain rfl : 34 = c := (List.cons_prefix_cons.1 hpre).1
      exact no_name_in_escaped hf hs ht hpre

theorem neverStarts_value {v : FieldValue} {t : Bytes} (hv : v.Quoted) (ht : Closes t) :
    NeverStarts (quotedName f) v.written t := by
  cases v with
  | number n => exact neverStarts_of_notMem fun h => absurd (isDigit_decimal h) (by decide)
  | text s =>
      exact ⟨no_name_in_escaped hf hv ht, neverStarts_escaped hf hv ht⟩

/-- The quote, the name and the colon of another field. -/
theorem neverStarts_name {name t : Bytes} (hname : IsName name) (hne : name ≠ f) :
    NeverStarts (quotedName f) (quotedName name) t := by
  have hquotes : NeverStarts (quotedName f) [34, 58] t := by
    refine ⟨fun hpre => ?_, fun hpre => absurd (List.cons_prefix_cons.1 hpre).1 (by decide),
      trivial⟩
    obtain ⟨b, f', rfl⟩ := List.exists_cons_of_ne_nil hf.nonempty
    have hb : b = 58 := (List.cons_prefix_cons.1 (List.cons_prefix_cons.1 hpre).2).1
    exact absurd (hf.letters b (List.mem_cons_self ..)) (by rw [hb]; decide)
  refine ⟨fun hpre => hne ?_, (neverStarts_of_notMem hname.no_quote.1).append hquotes⟩
  replace hpre : f ++ [34, 58] <+: name ++ 34 :: 58 :: t := by
    simpa using (List.cons_prefix_cons.1 hpre).2
  clear hquotes hne
  have h34 := hf.no_quote.1
  have h34' := hname.no_quote.1
  clear hf hname
  induction f generalizing name with
  | nil =>
      cases name with
      | nil => rfl
      | cons b name =>
          have hb := (List.ne_and_not_mem_of_not_mem_cons h34').1
          exact absurd (List.cons_prefix_cons.1 hpre).1 hb
  | cons a f ih =>
      obtain ⟨ha, hf⟩ := List.ne_and_not_mem_of_not_mem_cons h34
      cases name with
      | nil => exact absurd (List.cons_prefix_cons.1 hpre).1.symm ha
      | cons b name =>
          obtain ⟨hab, hrest⟩ := List.cons_prefix_cons.1 hpre
          rw [hab, ih hrest hf (List.ne_and_not_mem_of_not_mem_cons h34').2]

/-- A field's name is found at the field, not in the fields before it. -/
theorem after_fieldsText {lead : UInt8} {fields : List (Bytes × FieldValue)} {v : FieldValue}
    (hlead : lead ≠ 34) (hnames : ∀ g ∈ fields, IsName g.1)
    (htexts : ∀ g ∈ fields, g.2.Quoted) (hnodup : (fields.map Prod.fst).Nodup)
    (hmem : (f, v) ∈ fields) :
    ∃ t, Closes t ∧ after (quotedName f) (fieldsText lead fields) = some (v.written ++ t) := by
  induction fields generalizing lead with
  | nil => cases hmem
  | cons g fields ih =>
      obtain ⟨name, w⟩ := g
      obtain ⟨hname, hnames⟩ := List.forall_mem_cons.1 hnames
      obtain ⟨htext, htexts⟩ := List.forall_mem_cons.1 htexts
      obtain ⟨hnew, hnodup⟩ := List.nodup_cons.1 hnodup
      have hclose := closes_fieldsText fields
      have hskip : after (quotedName f) (fieldsText lead ((name, w) :: fields)) =
          after (quotedName f) (quotedName name ++ (w.written ++ fieldsText 44 fields)) := by
        rw [fieldsText, List.append_assoc, List.cons_append]
        have hopen : NeverStarts (quotedName f) [lead]
            (quotedName name ++ (w.written ++ fieldsText 44 fields)) :=
          neverStarts_of_notMem fun h => hlead (List.mem_singleton.1 h).symm
        exact after_of_neverStarts hopen
      rw [hskip]
      rcases List.mem_cons.1 hmem with heq | hmem
      · cases heq
        exact ⟨_, hclose, after_hit _ _⟩
      · have hne : name ≠ f := fun h => hnew (List.mem_map.2 ⟨_, hmem, h.symm⟩)
        obtain ⟨t, ht, hafter⟩ := @ih 44 (by decide) hnames htexts hnodup hmem
        refine ⟨t, ht, ?_⟩
        rw [after_of_neverStarts (neverStarts_name hf hname hne),
          after_of_neverStarts (neverStarts_value hf htext hclose), hafter]

end Scan

end UCache
