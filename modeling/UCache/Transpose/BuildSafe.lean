/-
Module: UCache.Transpose.BuildSafe
Purpose: When building the overlay of a tree file that parses stays inside of its buffers: what the key
  header of each basket has to say, and the tree's own.
Trusted boundary: none
Main exports: SeekFits, rebuiltPayload, RecordFits
-/
import UCache.Lib.Faults
import UCache.Transpose.OriginMap
import UCache.Transpose.TreeFile

namespace UCache

open Lib

/-! ### Writing into a buffer -/

variable {n : Nat}

theorem avoids_putIn {p : Bytes} {off : Nat} {v : Int} :
    Avoids .outside (putIn p off n v) ↔ off + n ≤ p.length := by
  unfold putIn
  split
  · rw [avoids_error]
    simpa
  · simpa using by omega

/-- The seek of the key header at `off` ends inside of `len` bytes; a seek that a narrow key cannot
hold is not written. -/
def SeekFits (off len ver : Nat) (seek : Int) : Prop :=
  if keyWide ver then off + 26 ≤ len else seek < 2 ^ 31 → off + 22 ≤ len

theorem avoids_refuse {α : Type} {why : String} : Avoids .outside (refuse why : Except BuildFault α) := by
  simp [refuse, Avoids]

theorem avoids_unavailable {α : Type} {why : String} :
    Avoids .outside (unavailable why : Except BuildFault α) := by
  simp [unavailable, Avoids]

theorem avoids_patchSeek {p : Bytes} {off ver : Nat} {seek : Int} :
    Avoids .outside (patchSeek p off ver seek) ↔ SeekFits off p.length ver seek := by
  unfold patchSeek SeekFits
  by_cases hwide : keyWide ver = true
  · rw [if_pos hwide, if_pos hwide, avoids_putIn]
  · rw [if_neg hwide, if_neg hwide]
    by_cases hseek : seek < 2 ^ 31
    · rw [if_pos hseek, avoids_putIn]
      exact ⟨fun h _ => by omega, fun h => by have := h hseek; omega⟩
    · rw [if_neg hseek]
      exact ⟨fun _ h => absurd h hseek, fun _ => avoids_refuse⟩

theorem SeekFits.of_le {off len ver : Nat} {seek : Int} (h : off + 26 ≤ len) :
    SeekFits off len ver seek := by
  unfold SeekFits
  split
  · exact h
  · exact fun _ => by omega

/-! ### A basket's record -/

section Records

variable (D : Decoders) (E : Encoder)

/-- What a record that is stored compressed is rebuilt with; nothing where decoding or encoding
fails. -/
def rebuiltPayload (record : Bytes) (k : KeyInfo) : Option Bytes :=
  let raw := decompressFrames D (record.drop k.keylen) (u64 k.objlen)
  let pay := encodeZstdFrames E raw 1
  if raw = [] ∨ pay = [] then none else some (if raw.length ≤ pay.length then raw else pay)

/-- The key header of a compressed record ends inside of it; and in the rebuilt record there is room
for the fields that are patched. -/
def RecordFits (record : Bytes) (k : KeyInfo) (seek : Int) : Prop :=
  k.storedRaw = false →
    k.keylen ≤ record.length ∧ ∀ use, rebuiltPayload D E record k = some use →
      4 ≤ k.keylen + use.length ∧ SeekFits 0 (k.keylen + use.length) k.ver seek

/-- The record of a basket, where the source has it and it is one, fits. -/
def BasketFits (src : BasketSource) (name : Bytes) (br : BranchInfo) (i : Nat) (seek : Int) : Prop :=
  let off := u64 (br.basketSeek.getD i 0)
  let nb := u64 (br.basketBytes.getD i 0)
  src.has off nb = true →
    nb ≤ kMaxBuffer ∧ ∀ record k, src.read off nb = some record → parseKey record 0 = some k →
      k.cls = ascii "TBasket" → k.name = name → RecordFits D E record k seek

end Records

section Build

variable {D : Decoders} {E : Encoder} {fm : FileMeta} {src : BasketSource}
variable {br : BranchInfo} {st : Building} {name : Bytes} {k : KeyInfo} {i : Nat}

theorem avoids_recode {record : Bytes} :
    Avoids .outside (recode D E name record k) ↔
      (k.storedRaw = false → k.keylen ≤ record.length ∧
        ∀ use, rebuiltPayload D E record k = some use → 4 ≤ k.keylen + use.length) := by
  unfold recode rebuiltPayload
  extract_lets raw pay
  by_cases hstored : k.storedRaw = true
  · simp [hstored]
  rw [if_neg hstored]
  by_cases hlen : record.length < k.keylen
  · rw [if_pos hlen, avoids_error]
    simp [hstored]
    omega
  rw [if_neg hlen]
  have hrebuilt (use : Bytes) (how : Recoded) : Avoids .outside (do
      let rec₁ ← putIn (record.take k.keylen ++ use) 0 4
        ((record.take k.keylen ++ use).length : Nat)
      .ok (rec₁, how, raw.length)) ↔ 4 ≤ k.keylen + use.length := by
    rw [avoids_bind, avoids_putIn, List.length_append, List.length_take]
    simp only [avoids_ok, implies_true, and_true]
    omega
  have hfits : k.keylen ≤ record.length := by omega
  simp only [hstored, hfits, true_and, forall_const]
  by_cases hraw : raw = []
  · simp [hraw, avoids_refuse]
  by_cases hpay : pay = []
  · simp [hraw, hpay, avoids_unavailable]
  have hmade : ¬ (raw = [] ∨ pay = []) := not_or.2 ⟨hraw, hpay⟩
  rw [if_neg hraw, if_neg hpay]
  simp only [if_neg hmade, Option.some.injEq, forall_eq']
  by_cases hshrinks : raw.length ≤ pay.length
  · simp only [if_pos hshrinks]
    exact hrebuilt raw _
  · simp only [if_neg hshrinks]
    exact hrebuilt pay _

/-- How long the record in the extension is. -/
theorem recode_length {record : Bytes} {made : Bytes × Recoded × Nat}
    (h : recode D E name record k = .ok made) :
    (k.storedRaw = true ∧ made.1 = record) ∨
      k.storedRaw = false ∧ ∃ use, rebuiltPayload D E record k = some use ∧
        made.1.length = k.keylen + use.length := by
  unfold recode at h
  extract_lets raw pay at h
  have hwith : rebuiltPayload D E record k =
      if raw = [] ∨ pay = [] then none else some (if raw.length ≤ pay.length then raw else pay) := rfl
  by_cases hstored : k.storedRaw = true
  · rw [if_pos hstored] at h
    cases h
    exact .inl ⟨hstored, rfl⟩
  rw [if_neg hstored] at h
  refine .inr ⟨by simpa using hstored, ?_⟩
  by_cases hlen : record.length < k.keylen
  · rw [if_pos hlen] at h
    cases h
  rw [if_neg hlen] at h
  by_cases hraw : raw = []
  · rw [if_pos hraw] at h
    cases h
  by_cases hpay : pay = []
  · rw [if_neg hraw, if_pos hpay] at h
    cases h
  rw [if_neg hraw, if_neg hpay] at h
  rw [if_neg (not_or.2 ⟨hraw, hpay⟩)] at hwith
  by_cases hshrinks : raw.length ≤ pay.length
  · simp only [if_pos hshrinks] at h hwith
    obtain ⟨rec₁, hput, h⟩ := bind_eq_ok h
    cases h
    refine ⟨raw, hwith, ?_⟩
    rw [(putIn_length hput).2, List.length_append, List.length_take]
    omega
  · simp only [if_neg hshrinks] at h hwith
    obtain ⟨rec₁, hput, h⟩ := bind_eq_ok h
    cases h
    refine ⟨pay, hwith, ?_⟩
    rw [(putIn_length hput).2, List.length_append, List.length_take]
    omega

/-- A record that there is room in is rebuilt. -/
theorem recode_made {name record use : Bytes} {k : KeyInfo} (hstored : k.storedRaw = false)
    (hlen : k.keylen ≤ record.length) (huse : rebuiltPayload D E record k = some use)
    (hroom : 4 ≤ k.keylen + use.length) : ∃ made, recode D E name record k = .ok made := by
  have hput (use' : Bytes) (huse' : use' = use) : putIn (record.take k.keylen ++ use') 0 4
      ((record.take k.keylen ++ use').length : Nat) =
        .ok (bePut (record.take k.keylen ++ use') 0 4 ((record.take k.keylen ++ use').length : Nat)) := by
    refine if_neg ?_
    rw [huse', List.length_append, List.length_take]
    omega
  unfold rebuiltPayload at huse
  unfold recode
  simp only at huse ⊢
  split at huse
  · cases huse
  · rename_i hmade
    rw [not_or] at hmade
    rw [if_neg (by simp [hstored]), if_neg (by omega), if_neg hmade.1, if_neg hmade.2]
    rw [Option.some.injEq] at huse
    split at huse
    · rename_i hshrinks
      simp only [if_pos hshrinks, hput _ huse]
      exact ⟨_, rfl⟩
    · rename_i hshrinks
      simp only [if_neg hshrinks, hput _ huse]
      exact ⟨_, rfl⟩

theorem readBasket_ok {record : Bytes} (h : readBasket src name br i = .ok (record, k)) :
    src.has (u64 (br.basketSeek.getD i 0)) (u64 (br.basketBytes.getD i 0)) = true ∧
      src.read (u64 (br.basketSeek.getD i 0)) (u64 (br.basketBytes.getD i 0)) = some record ∧
      parseKey record 0 = some k ∧ k.cls = ascii "TBasket" ∧ k.name = name := by
  unfold readBasket at h
  extract_lets off nb at h
  split at h
  · cases h
  split at h
  · cases h
  rename_i hhas
  split at h
  · cases h
  split at h
  · cases h
  rename_i hread
  split at h
  · cases h
  rename_i hkey
  split at h
  · cases h
  rename_i hbasket
  cases h
  have hhas : src.has off nb = true := by simpa using hhas
  rw [not_or, not_not, not_not] at hbasket
  exact ⟨hhas, hread, hkey, hbasket⟩

theorem readBasket_of {record : Bytes} (hi : i < br.basketSeek.length ∧ i < br.basketBytes.length)
    (hhas : src.has (u64 (br.basketSeek.getD i 0)) (u64 (br.basketBytes.getD i 0)) = true)
    (hlong : u64 (br.basketBytes.getD i 0) ≤ kMaxBuffer)
    (hread : src.read (u64 (br.basketSeek.getD i 0)) (u64 (br.basketBytes.getD i 0)) = some record)
    (hkey : parseKey record 0 = some k) (hcls : k.cls = ascii "TBasket") (hname : k.name = name) :
    readBasket src name br i = .ok (record, k) := by
  unfold readBasket
  simp only
  rw [if_neg (by omega), if_neg (by rw [hhas]; simp), if_neg (by omega), hread]
  simp only [hkey]
  rw [if_neg (by simp [hcls, hname])]

/-- Of the baskets that the source has, none is longer than a buffer may be. -/
theorem avoids_readBasket (hi : i < br.basketSeek.length ∧ i < br.basketBytes.length) :
    Avoids .outside (readBasket src name br i) ↔
      (src.has (u64 (br.basketSeek.getD i 0)) (u64 (br.basketBytes.getD i 0)) = true →
        u64 (br.basketBytes.getD i 0) ≤ kMaxBuffer) := by
  unfold readBasket
  extract_lets off nb
  show _ ↔ (src.has off nb = true → nb ≤ kMaxBuffer)
  rw [if_neg (by omega)]
  by_cases hhas : src.has off nb = true
  · rw [if_neg (by simp [hhas])]
    by_cases hlong : kMaxBuffer < nb
    · rw [if_pos hlong, avoids_error]
      exact ⟨fun h => absurd rfl h, fun h => absurd (h hhas) (by omega)⟩
    · rw [if_neg hlong]
      refine ⟨fun _ _ => by omega, fun _ => ?_⟩
      split
      · exact avoids_unavailable
      split
      · exact avoids_refuse
      split
      · exact avoids_refuse
      · exact avoids_ok _
  · rw [if_pos (by simp [hhas])]
    exact ⟨fun _ h => absurd h hhas, fun _ => avoids_unavailable⟩

/-- A branch's arrays are as long as it has baskets, and lie in a tree record of `n` bytes. -/
theorem avoids_placeRecord {made : Bytes × Recoded × Nat} (hbr : BranchInside n br)
    (hi : i < br.writeBasket.toNat) (hblob : st.blob.length = n) :
    Avoids .outside (placeRecord fm br i k st made) ↔
      SeekFits 0 made.1.length k.ver (fm.fend + st.ext.length) := by
  have hcounted := hbr.counted
  have hseeks := hbr.seekArray
  have hbytes := hbr.bytesArray
  unfold placeRecord
  simp only
  rw [avoids_bind, avoids_patchSeek]
  refine ⟨And.left, fun h => ⟨h, fun record hrecord => ?_⟩⟩
  rw [avoids_bind, avoids_putIn]
  refine ⟨by omega, fun blob₁ hput => ?_⟩
  rw [avoids_bind, avoids_putIn, (putIn_length hput).2]
  exact ⟨by omega, fun blob₂ _ => avoids_ok _⟩

theorem avoids_buildBasket (hbr : BranchInside n br) (hi : i < br.writeBasket.toNat)
    (hblob : st.blob.length = n) :
    Avoids .outside (buildBasket D E fm src name br st i) ↔
      BasketFits D E src name br i (fm.fend + st.ext.length) := by
  have hseeks := hbr.seeks
  have hbytes := hbr.bytes
  unfold buildBasket BasketFits
  extract_lets off nb
  rw [avoids_bind, avoids_readBasket (by omega)]
  constructor
  · rintro ⟨hlong, hmake⟩ hhas
    refine ⟨hlong hhas, fun record k hread hkey hcls hname hstored => ?_⟩
    have hbasket := hmake _ (readBasket_of (by omega) hhas (hlong hhas) hread hkey hcls hname)
    simp only at hbasket
    rw [avoids_bind, avoids_recode] at hbasket
    obtain ⟨hrecode, hplace⟩ := hbasket
    obtain ⟨hlen, hroom⟩ := hrecode hstored
    refine ⟨hlen, fun use huse => ⟨hroom use huse, ?_⟩⟩
    obtain ⟨made, hmade⟩ := @recode_made D E name record use k hstored hlen huse (hroom use huse)
    have hfits := (avoids_placeRecord hbr hi hblob).1 (hplace made hmade)
    rcases recode_length hmade with ⟨hraw, -⟩ | ⟨-, use', huse', hlength⟩
    · exact absurd (hraw.symm.trans hstored) (by simp)
    · rw [hlength, Option.some.inj (huse'.symm.trans huse)] at hfits
      exact hfits
  · intro h
    refine ⟨fun hhas => (h hhas).1, ?_⟩
    rintro ⟨record, k⟩ hbasket
    obtain ⟨hhas, hread, hkey, hcls, hname⟩ := readBasket_ok hbasket
    have hfits := (h hhas).2 record k hread hkey hcls hname
    simp only
    rw [avoids_bind, avoids_recode]
    refine ⟨fun hstored => ⟨(hfits hstored).1, fun use huse => ((hfits hstored).2 use huse).1⟩, ?_⟩
    intro made hmade
    rw [avoids_placeRecord hbr hi hblob]
    rcases recode_length hmade with ⟨-, hsame⟩ | ⟨hstored, use, huse, hlen⟩
    · have hlen := (parseKeyAt_inv hkey).length
      rw [List.drop_zero] at hlen
      exact SeekFits.of_le (by rw [hsame]; omega)
    · rw [hlen]
      exact ((hfits hstored).2 use huse).2

/-! ### The keys list -/

/-- An entry that can be read is one that can be patched. -/
theorem avoids_repointEntries {metaLen : Nat} {newSeek : Int} {klist : Bytes} {pos : Nat}
    {patched : Bool} : Avoids .outside (repointEntries fm metaLen newSeek n klist pos patched) := by
  induction n generalizing klist pos patched with
  | zero => exact avoids_ok _
  | succ n ih =>
      unfold repointEntries
      split
      · exact avoids_refuse
      · rename_i e he
        have hlen := parseKey_length he
        split
        · rw [avoids_bind, avoids_putIn]
          refine ⟨by omega, fun k₁ h1 => ?_⟩
          rw [avoids_bind, avoids_patchSeek, (putIn_length h1).2]
          exact ⟨SeekFits.of_le (by omega), fun k₂ _ => ih⟩
        · exact ih

theorem avoids_repointKeysList {klist : Bytes} {metaLen : Nat} {newSeek : Int} :
    Avoids .outside (repointKeysList fm klist metaLen newSeek) := by
  unfold repointKeysList
  split
  · exact avoids_refuse
  split
  · exact avoids_refuse
  rw [avoids_bind]
  refine ⟨avoids_repointEntries, ?_⟩
  rintro ⟨klist', patched⟩ -
  simp only
  split
  · exact avoids_ok _
  · exact avoids_refuse

theorem avoids_readKeysRecord : Avoids .outside (readKeysRecord fm src) := by
  unfold readKeysRecord
  extract_lets probe
  split
  · exact avoids_refuse
  split
  · exact avoids_unavailable
  split
  · exact avoids_refuse
  split
  · exact avoids_refuse
  split
  · exact avoids_unavailable
  split
  · exact avoids_unavailable
  · exact avoids_ok _

/-! ### The tree's key -/

theorem avoids_readTreeKey : Avoids .outside (readTreeKey fm src) := by
  unfold readTreeKey
  split
  · exact avoids_unavailable
  split
  · exact avoids_unavailable
  · exact avoids_ok _

theorem readTreeKey_length {mkey : Bytes} (h : readTreeKey fm src = .ok mkey) :
    mkey.length = fm.treeKey.keylen := by
  unfold readTreeKey at h
  split at h
  · cases h
  split at h
  · cases h
  · rename_i hread
    cases h
    exact src.read_length _ _ _ hread

theorem avoids_finishOverlay {v : Nat} {mkey klist : Bytes} :
    Avoids .outside (finishOverlay E fm v st mkey klist) ↔
      4 ≤ mkey.length ∧ SeekFits 0 mkey.length fm.treeKey.ver (fm.fend + st.ext.length) := by
  unfold finishOverlay relocatedKey
  simp only
  rw [avoids_bind, avoids_bind, avoids_putIn, Nat.zero_add]
  constructor
  · rintro ⟨⟨hroom, hseek⟩, -⟩
    have hput : putIn mkey 0 4 ((fm.treeKey.keylen + (storedTree E st.blob).length : Nat) : Int) =
        .ok (bePut mkey 0 4 _) := if_neg (by omega)
    have hfits := avoids_patchSeek.1 (hseek _ hput)
    rw [length_bePut (by omega)] at hfits
    exact ⟨hroom, hfits⟩
  · rintro ⟨hroom, hseek⟩
    refine ⟨⟨hroom, fun k₁ hput => ?_⟩, fun mkey' _ => ?_⟩
    · rw [avoids_patchSeek, (putIn_length hput).2]
      exact hseek
    · rw [avoids_bind]
      refine ⟨avoids_repointKeysList, fun klist' _ => ?_⟩
      split
      · exact avoids_refuse
      split
      · exact avoids_refuse
      · exact avoids_ok _

/-! ### The whole build -/

variable (D E fm src) in
/-- The build comes to basket `i` of a hot branch, and with what. -/
def ComesTo (hot : List Bytes) (name : Bytes) (br : BranchInfo) (i : Nat) (st : Building) : Prop :=
  ∃ pre post st₀, hot = pre ++ name :: post ∧
    pre.foldlM (buildBranch D E fm src) { blob := fm.treeBlob } = .ok st₀ ∧
      (fm.branches.find? fun br => decide (br.name = name)) = some br ∧ i < br.writeBasket.toNat ∧
        (List.range i).foldlM (buildBasket D E fm src name br) st₀ = .ok st

variable (D E fm src) in
/-- Every basket that the build comes to fits; and when it comes to its end, so does the tree's key. -/
structure BuildFits (hot : List Bytes) : Prop where
  baskets : ∀ name br i st, ComesTo D E fm src hot name br i st →
    BasketFits D E src name br i (fm.fend + st.ext.length)
  treeKey : ∀ st mkey klist,
    hot.foldlM (buildBranch D E fm src) { blob := fm.treeBlob } = .ok st →
      readTreeKey fm src = .ok mkey → readKeysRecord fm src = .ok klist →
        4 ≤ fm.treeKey.keylen ∧
          SeekFits 0 fm.treeKey.keylen fm.treeKey.ver (fm.fend + st.ext.length)

theorem placeRecord_blob {st' : Building} {made : Bytes × Recoded × Nat}
    (h : placeRecord fm br i k st made = .ok st') : st'.blob.length = st.blob.length := by
  unfold placeRecord at h
  simp only at h
  obtain ⟨record, -, h⟩ := bind_eq_ok h
  obtain ⟨blob₁, h1, h⟩ := bind_eq_ok h
  obtain ⟨blob₂, h2, h⟩ := bind_eq_ok h
  cases h
  exact (putIn_length h2).2.trans (putIn_length h1).2

theorem buildBasket_blob {st' : Building} (h : buildBasket D E fm src name br st i = .ok st') :
    st'.blob.length = st.blob.length := by
  unfold buildBasket at h
  obtain ⟨⟨record, k⟩, -, h⟩ := bind_eq_ok h
  obtain ⟨made, -, h⟩ := bind_eq_ok h
  exact placeRecord_blob h

theorem buildBranch_blob {st' : Building} (hst : st.blob.length = n)
    (h : buildBranch D E fm src st name = .ok st') : st'.blob.length = n := by
  unfold buildBranch at h
  split at h
  · cases h
  · exact foldlM_keeps (P := fun st => st.blob.length = n)
      (fun s i s' _ hs hstep => (buildBasket_blob hstep).trans hs) hst h

theorem range_split {x : Nat} {pre post : List Nat} (h : List.range n = pre ++ x :: post) :
    pre = List.range x ∧ x < n := by
  have hx : (List.range n)[pre.length]? = some x := by rw [h]; simp
  have hlt : pre.length < n := by
    have := (List.getElem?_eq_some_iff.1 hx).1
    rwa [List.length_range] at this
  rw [List.getElem?_range hlt, Option.some.injEq] at hx
  have hpre : pre = (List.range n).take pre.length := by rw [h]; simp
  rw [List.take_range, Nat.min_eq_left (by omega), hx] at hpre
  exact ⟨hpre, by omega⟩

theorem range_around {x : Nat} (h : x < n) : ∃ post, List.range n = List.range x ++ x :: post := by
  refine ⟨(List.range n).drop (x + 1), ?_⟩
  have hdrop := List.drop_eq_getElem_cons (l := List.range n) (i := x) (by simpa using h)
  rw [List.getElem_range] at hdrop
  have htake : (List.range n).take x = List.range x := by
    rw [List.take_range, Nat.min_eq_left (Nat.le_of_lt h)]
  rw [← hdrop, ← htake, List.take_append_drop]

/-- The builder stays inside of its buffers exactly when every basket it comes to fits, and the tree's
key when it comes to that. -/
theorem avoids_buildOverlay {v : Nat} {hot : List Bytes} (hin : TreeInside fm.treeBlob.length fm) :
    Avoids .outside (buildOverlay D E fm src v hot) ↔ BuildFits D E fm src hot := by
  have hbasket {name br i st} (h : ComesTo D E fm src hot name br i st) :
      Avoids .outside (buildBasket D E fm src name br st i) ↔
        BasketFits D E src name br i (fm.fend + st.ext.length) := by
    obtain ⟨pre, post, st₀, -, hpre, hbr, hi, hloop⟩ := h
    refine avoids_buildBasket (hin.branches br (List.mem_of_find?_eq_some hbr)) hi ?_
    exact foldlM_keeps (P := fun st => st.blob.length = fm.treeBlob.length)
      (fun s i s' _ hs hstep => (buildBasket_blob hstep).trans hs)
      (foldlM_keeps (fun s name s' _ hs hstep => buildBranch_blob hs hstep) rfl hpre) hloop
  unfold buildOverlay
  rw [avoids_bind, avoids_foldlM]
  constructor
  · rintro ⟨hloop, hend⟩
    refine ⟨fun name br i st h => (hbasket h).1 ?_, fun st mkey klist hst hkey hlist => ?_⟩
    · obtain ⟨pre, post, st₀, hhot, hpre, hbr, hi, hinner⟩ := h
      have hbranch := hloop pre name post st₀ hhot hpre
      unfold buildBranch at hbranch
      simp only [hbr] at hbranch
      obtain ⟨rest, hrest⟩ := range_around hi
      exact avoids_foldlM.1 hbranch _ i rest st hrest hinner
    · have hfinish := hend st hst
      rw [avoids_bind] at hfinish
      have hfinish := hfinish.2 mkey hkey
      rw [avoids_bind] at hfinish
      have hroom := avoids_finishOverlay.1 (hfinish.2 klist hlist)
      rwa [readTreeKey_length hkey] at hroom
  · intro h
    refine ⟨fun pre name post st₀ hhot hpre => ?_, fun st hst => ?_⟩
    · unfold buildBranch
      split
      · exact avoids_refuse
      · rename_i br hbr
        rw [avoids_foldlM]
        intro done i rest st hrange hinner
        obtain ⟨rfl, hi⟩ := range_split hrange
        have hcomes : ComesTo D E fm src hot name br i st :=
          ⟨pre, post, st₀, hhot, hpre, hbr, hi, hinner⟩
        exact (hbasket hcomes).2 (h.baskets name br i st hcomes)
    · rw [avoids_bind]
      refine ⟨avoids_readTreeKey, fun mkey hkey => ?_⟩
      rw [avoids_bind]
      refine ⟨avoids_readKeysRecord, fun klist hlist => avoids_finishOverlay.2 ?_⟩
      rw [readTreeKey_length hkey]
      exact h.treeKey st mkey klist hst hkey hlist

end Build

end UCache
