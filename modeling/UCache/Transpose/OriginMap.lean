/-
Module: UCache.Transpose.OriginMap
Purpose: The map from a stitched file to the origin that both builders make is in order and apart,
  so a read of the stitched file is named exactly in the origin's coordinates.
Trusted boundary: none
Main exports: PieceBefore, order_sorted, built_origin_ranges
-/
import UCache.Core.OriginRanges
import UCache.Lib.Loop
import UCache.Transpose.FrameTrip
import UCache.Transpose.Superseded
import UCache.Transpose.TreeOverlay

namespace UCache

open Lib

/-! ### Sorting pieces that are apart -/

/-- `a` ends before `b` starts, and is not at the same place. -/
def PieceBefore (a b : OrigRange) : Prop := a.stop ≤ b.virtOff ∧ a.virtOff < b.virtOff

/-- Pieces that are apart are in order once sorted. -/
theorem order_sorted {l : List OrigRange}
    (h : l.Pairwise fun a b => PieceBefore a b ∨ PieceBefore b a) :
    (l.insertionSort fun a b => a.virtOff ≤ b.virtOff).Pairwise fun a b => a.stop ≤ b.virtOff := by
  have hperm := List.perm_insertionSort (fun a b : OrigRange => a.virtOff ≤ b.virtOff) l
  have hsorted : (l.insertionSort fun a b => a.virtOff ≤ b.virtOff).Pairwise
      fun a b => a.virtOff ≤ b.virtOff := by
    have : Std.Total fun a b : OrigRange => a.virtOff ≤ b.virtOff := ⟨fun a b => Nat.le_total _ _⟩
    have : IsTrans OrigRange fun a b => a.virtOff ≤ b.virtOff := ⟨fun a b c => Nat.le_trans⟩
    exact List.pairwise_insertionSort _ l
  have hapart := (hperm.pairwise_iff (fun {a b} => Or.symm)).2 h
  apply (hsorted.and hapart).imp
  rintro a b ⟨hle, hab | hba⟩
  · exact hab.1
  · have := hba.2
    omega

/-! ### The tree builder -/

variable {pieces : List OrigRange}

/-- A record of the file lies inside of it. -/
def InsideFile (stop seek bytes : Int) : Prop := 0 ≤ seek ∧ 0 ≤ bytes ∧ seek + bytes ≤ stop

instance (stop seek bytes : Int) : Decidable (InsideFile stop seek bytes) :=
  inferInstanceAs (Decidable (0 ≤ seek ∧ 0 ≤ bytes ∧ seek + bytes ≤ stop))

/-- The records of the file that the build moves lie inside of it.  Offsets are signed 64-bit
integers, and the header is as wide as one of the two layouts has it. -/
structure InsideTree (fm : FileMeta) : Prop where
  fend : fm.fend < 2 ^ 63
  keyslistSeek : fm.keyslistSeek < 2 ^ 63
  width : fm.headerSeekWidth = 4 ∨ fm.headerSeekWidth = 8
  baskets : ∀ br ∈ fm.branches, ∀ i < br.writeBasket.toNat,
    InsideFile fm.fend (br.basketSeek.getD i 0) (br.basketBytes.getD i 0)
  treeKey : InsideFile fm.fend fm.treeKey.seekkey fm.treeKey.nbytes

theorem u64_of_nonneg {v : Int} (h0 : 0 ≤ v) (h : v < 2 ^ 64) : u64 v = v.toNat := by
  rw [u64, Int.emod_eq_of_lt h0 h]

theorem InsideFile.u64_le {stop seek bytes : Int} (h : InsideFile stop seek bytes)
    (hstop : stop < 2 ^ 63) : u64 seek + u64 bytes ≤ stop.toNat := by
  obtain ⟨hseek, hbytes, hsum⟩ := h
  rw [u64_of_nonneg hseek (by omega), u64_of_nonneg hbytes (by omega)]
  omega

/-- What the pieces placed so far are, as long as the extension ends at a file offset. -/
structure PlacedPieces (start : Nat) (origSize : Nat) (pieces : List OrigRange) (stop : Nat) :
    Prop where
  order : pieces.Pairwise PieceBefore
  virt : ∀ r ∈ pieces, start ≤ r.virtOff ∧ r.virtOff < stop ∧ r.stop ≤ stop
  orig : ∀ r ∈ pieces, r.origOff + r.origLen ≤ origSize

theorem placedPieces_nil (start origSize stop : Nat) : PlacedPieces start origSize [] stop :=
  ⟨List.Pairwise.nil, by simp, by simp⟩

/-- A piece behind the others. -/
theorem PlacedPieces.snoc {start origSize stop stop' : Nat} {pieces : List OrigRange}
    (h : PlacedPieces start origSize pieces stop) {r : OrigRange} (hstart : start ≤ r.virtOff)
    (hvirt : stop ≤ r.virtOff) (hlt : r.virtOff < stop') (hstop : r.stop ≤ stop')
    (horig : r.origOff + r.origLen ≤ origSize) :
    PlacedPieces start origSize (pieces ++ [r]) stop' := by
  constructor
  · rw [List.pairwise_append]
    refine ⟨h.order, List.pairwise_singleton _ _, ?_⟩
    intro a ha b hb
    rw [List.mem_singleton.1 hb]
    have := h.virt a ha
    constructor <;> omega
  · intro a ha
    rcases List.mem_append.1 ha with ha | ha
    · have := h.virt a ha
      omega
    · rw [List.mem_singleton.1 ha]
      exact ⟨hstart, hlt, hstop⟩
  · intro a ha
    rcases List.mem_append.1 ha with ha | ha
    · exact h.orig a ha
    · rw [List.mem_singleton.1 ha]
      exact horig

theorem PlacedPieces.mono {start origSize stop stop' : Nat}
    (h : PlacedPieces start origSize pieces stop) (hle : stop ≤ stop') :
    PlacedPieces start origSize pieces stop' := by
  refine ⟨h.order, ?_, h.orig⟩
  intro r hr
  have := h.virt r hr
  omega

/-- The pieces of the extension and the windows in front of it, sorted together. -/
theorem origMapOk_of {m : ReplicaMeta} {pieces windows : List OrigRange} {stop : Nat}
    (hpieces : PlacedPieces m.originSize m.originSize pieces stop)
    (hwindows : windows.Pairwise fun a b => PieceBefore a b ∨ PieceBefore b a)
    (hbelow : ∀ w ∈ windows, w.virtOff < m.originSize ∧ w.stop ≤ m.originSize ∧
      w.origOff + w.origLen ≤ m.originSize)
    (hne : windows ≠ [])
    (hmap : m.origMap = (pieces ++ windows).insertionSort fun a b => a.virtOff ≤ b.virtOff)
    (hstop : ∀ r ∈ pieces, r.stop ≤ m.virtualSize) (hsize : m.originSize ≤ m.virtualSize)
    (hfits : m.virtualSize < 2 ^ 64) : OrigMapOk m := by
  have hmem : ∀ r, r ∈ m.origMap ↔ r ∈ pieces ∨ r ∈ windows := by
    intro r
    rw [hmap, List.mem_insertionSort, List.mem_append]
  refine ⟨?_, ?_, ?_, ?_, hsize, hfits⟩
  · intro hnil
    obtain ⟨w, hw⟩ := List.exists_mem_of_ne_nil _ hne
    have hin := (hmem w).2 (Or.inr hw)
    rw [hnil] at hin
    exact List.not_mem_nil hin
  · rw [hmap]
    apply order_sorted
    rw [List.pairwise_append]
    refine ⟨hpieces.order.imp Or.inl, hwindows, ?_⟩
    intro a ha b hb
    have hstart := hpieces.virt a ha
    have hend := hbelow b hb
    right
    constructor <;> omega
  · intro r hr
    rcases (hmem r).1 hr with hr | hr
    · exact hstop r hr
    · have := hbelow r hr
      omega
  · intro r hr
    rcases (hmem r).1 hr with hr | hr
    · exact hpieces.orig r hr
    · exact (hbelow r hr).2.2

/-! ### What one step of the tree builder does -/

theorem putIn_ok {p p' : Bytes} {off n : Nat} {v : Int} (h : putIn p off n v = .ok p') :
    off + n ≤ p.length ∧ p' = bePut p off n v := by
  unfold putIn at h
  split at h
  · cases h
  · cases h
    exact ⟨by omega, rfl⟩

theorem putIn_length {p p' : Bytes} {off n : Nat} {v : Int} (h : putIn p off n v = .ok p') :
    off + n ≤ p.length ∧ p'.length = p.length := by
  obtain ⟨hlen, rfl⟩ := putIn_ok h
  exact ⟨hlen, length_bePut hlen⟩

theorem patchSeek_length {p p' : Bytes} {off ver : Nat} {seek : Int}
    (h : patchSeek p off ver seek = .ok p') : off + 22 ≤ p.length ∧ p'.length = p.length := by
  unfold patchSeek at h
  split at h
  · obtain ⟨hlen, hsame⟩ := putIn_length h
    exact ⟨by omega, hsame⟩
  · split at h
    · obtain ⟨hlen, hsame⟩ := putIn_length h
      exact ⟨by omega, hsame⟩
    · cases h

section Tree

variable {D : Decoders} {E : Encoder} {fm : FileMeta} {src : BasketSource} {st : Building}

/-- What placing a record adds. -/
theorem placeRecord_ok {br : BranchInfo} {i : Nat} {k : KeyInfo} {st' : Building}
    {made : Bytes × Recoded × Nat} (h : placeRecord fm br i k st made = .ok st') :
    ∃ record : Bytes, 0 < record.length ∧ st'.ext = st.ext ++ record ∧
      st'.origMap = st.origMap ++ [⟨u64 (fm.fend + st.ext.length), record.length,
        u64 (br.basketSeek.getD i 0), u64 (br.basketBytes.getD i 0)⟩] := by
  unfold placeRecord at h
  simp only at h
  obtain ⟨record, hrecord, h⟩ := bind_eq_ok h
  obtain ⟨blob₁, -, h⟩ := bind_eq_ok h
  obtain ⟨blob₂, -, h⟩ := bind_eq_ok h
  cases h
  have hlen := patchSeek_length hrecord
  exact ⟨record, by omega, rfl, rfl⟩

theorem buildBasket_ok {name : Bytes} {br : BranchInfo} {st' : Building} {i : Nat}
    (h : buildBasket D E fm src name br st i = .ok st') :
    ∃ record : Bytes, 0 < record.length ∧ st'.ext = st.ext ++ record ∧
      st'.origMap = st.origMap ++ [⟨u64 (fm.fend + st.ext.length), record.length,
        u64 (br.basketSeek.getD i 0), u64 (br.basketBytes.getD i 0)⟩] := by
  unfold buildBasket at h
  obtain ⟨⟨record, k⟩, -, h⟩ := bind_eq_ok h
  obtain ⟨made, -, h⟩ := bind_eq_ok h
  exact placeRecord_ok h

/-- The pieces of the extension so far. -/
def TreePieces (fm : FileMeta) (st : Building) : Prop :=
  fm.fend.toNat + st.ext.length < 2 ^ 63 →
    PlacedPieces fm.fend.toNat fm.fend.toNat st.origMap (fm.fend.toNat + st.ext.length)

theorem treePieces_basket {name : Bytes} {br : BranchInfo} {st' : Building} {i : Nat}
    (hend : 0 ≤ fm.fend) (hfits : fm.fend < 2 ^ 63)
    (hin : InsideFile fm.fend (br.basketSeek.getD i 0) (br.basketBytes.getD i 0))
    (hst : TreePieces fm st) (h : buildBasket D E fm src name br st i = .ok st') :
    TreePieces fm st' := by
  obtain ⟨record, hpos, hext, hmap⟩ := buildBasket_ok h
  intro hroom
  rw [hext, List.length_append] at hroom ⊢
  have hseek : u64 (fm.fend + st.ext.length) = fm.fend.toNat + st.ext.length := by
    rw [u64_of_nonneg (by omega) (by omega)]
    omega
  rw [hmap, hseek]
  apply (hst (by omega)).snoc
  · exact Nat.le_add_right _ _
  · exact Nat.le_refl _
  · show fm.fend.toNat + st.ext.length < fm.fend.toNat + (st.ext.length + record.length)
    omega
  · show fm.fend.toNat + st.ext.length + record.length ≤
      fm.fend.toNat + (st.ext.length + record.length)
    omega
  · exact hin.u64_le hfits

theorem treePieces_branch {st' : Building} {name : Bytes} (hend : 0 ≤ fm.fend)
    (hfits : fm.fend < 2 ^ 63) (hin : InsideTree fm) (hst : TreePieces fm st)
    (h : buildBranch D E fm src st name = .ok st') : TreePieces fm st' := by
  unfold buildBranch at h
  split at h
  · cases h
  · rename_i br hbr
    have hmem := List.mem_of_find?_eq_some hbr
    apply foldlM_keeps _ hst h
    intro s i s' hi hs hstep
    exact treePieces_basket hend hfits (hin.baskets br hmem i (List.mem_range.1 hi)) hs hstep

theorem repointEntries_length {metaLen : Nat} {newSeek : Int} {n : Nat} {klist klist' : Bytes}
    {pos : Nat} {patched patched' : Bool}
    (h : repointEntries fm metaLen newSeek n klist pos patched = .ok (klist', patched')) :
    klist'.length = klist.length := by
  induction n generalizing klist pos patched with
  | zero =>
      cases h
      rfl
  | succ n ih =>
      unfold repointEntries at h
      split at h
      · cases h
      · split at h
        · obtain ⟨k₁, h1, h⟩ := bind_eq_ok h
          obtain ⟨k₂, h2, h⟩ := bind_eq_ok h
          rw [ih h, (patchSeek_length h2).2, (putIn_length h1).2]
        · exact ih h

theorem repointKeysList_length {klist klist' : Bytes} {metaLen : Nat} {newSeek : Int}
    (h : repointKeysList fm klist metaLen newSeek = .ok klist') :
    klist'.length = klist.length ∧ 4 ≤ klist.length := by
  unfold repointKeysList at h
  split at h
  · cases h
  split at h
  · cases h
  obtain ⟨⟨k, patched⟩, hloop, h⟩ := bind_eq_ok h
  simp only at h
  split at h
  · cases h
    exact ⟨repointEntries_length hloop, by omega⟩
  · cases h

/-- What a finished overlay consists of. -/
theorem finishOverlay_ok {v : Nat} {mkey klist : Bytes} {ov : TreeOverlay}
    (h : finishOverlay E fm v st mkey klist = .ok ov) :
    ∃ mkey' klist' payload : Bytes, 0 < mkey'.length ∧ 0 < klist'.length ∧
      100 ≤ fm.keyslistSeek ∧ u64 fm.keyslistSeek + klist'.length ≤ u64 fm.fend ∧
      ov.sidecar.extents = [⟨12, fm.headerSeekWidth, 0⟩,
        ⟨u64 fm.keyslistSeek, klist'.length, fm.headerSeekWidth⟩,
        ⟨u64 fm.fend, (st.ext ++ mkey' ++ payload).length,
          fm.headerSeekWidth + klist'.length⟩] ∧
      ov.sidecar.origMap = (st.origMap ++ lastPieces fm (fm.fend + st.ext.length)
        (mkey'.length + payload.length) klist'.length).insertionSort
          (fun a b => a.virtOff ≤ b.virtOff) ∧
      ov.sidecar.virtualSize = u64 (fm.fend + (st.ext ++ mkey' ++ payload).length) ∧
      ov.sidecar.originSize = u64 fm.fend := by
  unfold finishOverlay at h
  simp only at h
  obtain ⟨mkey', hkey, h⟩ := bind_eq_ok h
  obtain ⟨klist', hlist, h⟩ := bind_eq_ok h
  split at h
  · cases h
  rename_i hplace
  split at h
  · cases h
  cases h
  refine ⟨mkey', klist', storedTree E st.blob, ?_, ?_, by omega, by omega, rfl, rfl, rfl, rfl⟩
  · unfold relocatedKey at hkey
    obtain ⟨k₁, -, hkey⟩ := bind_eq_ok hkey
    have := patchSeek_length hkey
    omega
  · have := repointKeysList_length hlist
    omega

/-- The map of a tree's overlay. -/
theorem tree_origMapOk {v : Nat} {hot : List Bytes} {ov : TreeOverlay} (hin : InsideTree fm)
    (h : buildOverlay D E fm src v hot = .ok ov)
    (hfits : ∀ e ∈ ov.sidecar.extents, e.virtOff + e.len < 2 ^ 63) : OrigMapOk ov.sidecar := by
  unfold buildOverlay at h
  obtain ⟨st, hst, h⟩ := bind_eq_ok h
  obtain ⟨mkey, -, h⟩ := bind_eq_ok h
  obtain ⟨klist, -, h⟩ := bind_eq_ok h
  obtain ⟨mkey', klist', payload, hmkey, hklist, hks, hkeys, hext, hmap, hvirt, horig⟩ :=
    finishOverlay_ok h
  have hend : 0 ≤ fm.fend := by
    obtain ⟨h1, h2, h3⟩ := hin.treeKey
    omega
  have hfend := hin.fend
  have hwidth := hin.width
  have hbase : u64 fm.fend = fm.fend.toNat := u64_of_nonneg hend (by omega)
  have hlast := hfits ⟨u64 fm.fend, (st.ext ++ mkey' ++ payload).length,
    fm.headerSeekWidth + klist'.length⟩ (by rw [hext]; simp)
  simp only [hbase, List.length_append] at hlast
  have hkseek : u64 fm.keyslistSeek = fm.keyslistSeek.toNat :=
    u64_of_nonneg (by omega) (by have := hin.keyslistSeek; omega)
  have hpieces : PlacedPieces fm.fend.toNat fm.fend.toNat st.origMap
      (fm.fend.toNat + st.ext.length) := by
    have hwalk : TreePieces fm st := by
      apply foldlM_keeps _ _ hst
      · intro s name s' _ hs hstep
        exact treePieces_branch hend hfend hin hs hstep
      · intro _
        exact placedPieces_nil _ _ _
    exact hwalk (by omega)
  have hseek : u64 (fm.fend + st.ext.length) = fm.fend.toNat + st.ext.length := by
    rw [u64_of_nonneg (by omega) (by omega)]
    omega
  have hvirtual : u64 (fm.fend + (st.ext ++ mkey' ++ payload).length) =
      fm.fend.toNat + (st.ext.length + mkey'.length + payload.length) := by
    rw [u64_of_nonneg (by omega) (by simp only [List.length_append]; omega)]
    simp only [List.length_append]
    omega
  rw [hkseek, hbase] at hkeys
  -- the tree record is one more piece, the header's end and the keys list are windows
  have hmeta := @PlacedPieces.snoc _ _ _
    (fm.fend.toNat + (st.ext.length + mkey'.length + payload.length)) _ hpieces
    ⟨fm.fend.toNat + st.ext.length, mkey'.length + payload.length, u64 fm.treeKey.seekkey,
      u64 fm.treeKey.nbytes⟩ (Nat.le_add_right _ _) (Nat.le_refl _) (by simp only; omega)
    (by simp only [OrigRange.stop]; omega) (hin.treeKey.u64_le hfend)
  rw [← hbase, ← horig] at hmeta
  apply @origMapOk_of ov.sidecar _ [⟨12, fm.headerSeekWidth, 12, fm.headerSeekWidth⟩,
    ⟨fm.keyslistSeek.toNat, klist'.length, fm.keyslistSeek.toNat, klist'.length⟩] _ hmeta
  · simp only [List.pairwise_cons, List.mem_singleton, forall_eq, List.not_mem_nil, false_implies,
      implies_true, List.Pairwise.nil, and_true]
    left
    constructor
    · simp only [OrigRange.stop]
      omega
    · simp only
      omega
  · intro w hw
    rw [horig, hbase]
    simp only [List.mem_cons, List.not_mem_nil, or_false] at hw
    obtain rfl | rfl := hw
    · simp only [OrigRange.stop]
      omega
    · simp only [OrigRange.stop]
      omega
  · simp
  · rw [hmap, lastPieces, hseek, hkseek, List.append_assoc, horig, hbase]
    rfl
  · intro r hr
    have hlast := (hmeta.virt r hr).2.2
    rw [horig, hbase] at hlast
    rwa [hvirt, hvirtual]
  · rw [hvirt, hvirtual, horig, hbase]
    omega
  · rw [hvirt, hvirtual]
    omega

end Tree

/-! ### The column-store builder -/

/-- The pages, envelopes and the anchor of the file lie inside of it. -/
structure InsideRNTuple (m : RNTupleMeta) : Prop where
  pages : ∀ r ∈ m.ranges, ∀ pg ∈ r.pages, pg.offset + pg.onDisk ≤ m.fileSize
  pageList : m.pageListOffset + m.pageListNbytes ≤ m.fileSize
  footer : m.anchor.seekFooter + m.anchor.nbytesFooter ≤ m.fileSize
  anchor : m.anchor.payloadOffset + 78 ≤ m.fileSize
  header : 12 + m.headerSeekWidth ≤ m.fileSize
  width : m.headerSeekWidth = 4 ∨ m.headerSeekWidth = 8

/-- The pieces of an extension of keys and payloads. -/
structure BlobPieces (size : Nat) (ext : Bytes) (pieces : List OrigRange) : Prop where
  placed : PlacedPieces size size pieces (size + ext.length + 1)
  ends : ∀ r ∈ pieces, r.stop ≤ size + ext.length

theorem blobPieces_nil (size : Nat) : BlobPieces size [] [] :=
  ⟨placedPieces_nil _ _ _, by simp⟩

theorem length_appendBlob (ext : Bytes) (size : Nat) (payload : Bytes) (objlen : Nat) :
    (appendBlob ext size payload objlen).1.length =
      ext.length + kRBlobKeyLen + payload.length := by
  rw [appendBlob, List.length_append, List.length_append, length_rBlobKey]

/-- Another payload, and a piece for it. -/
theorem BlobPieces.append {size : Nat} {ext : Bytes} (h : BlobPieces size ext pieces)
    (payload : Bytes) (objlen : Nat) {off len : Nat} (horig : off + len ≤ size) :
    BlobPieces size (appendBlob ext size payload objlen).1
      (pieces ++ [⟨(appendBlob ext size payload objlen).2, payload.length, off, len⟩]) := by
  have hlen := length_appendBlob ext size payload objlen
  have hpos : 0 < kRBlobKeyLen := by decide
  constructor
  · rw [hlen]
    apply h.placed.snoc
    · show size ≤ size + ext.length + kRBlobKeyLen
      omega
    · show size + ext.length + 1 ≤ size + ext.length + kRBlobKeyLen
      omega
    · show size + ext.length + kRBlobKeyLen < _
      omega
    · show size + ext.length + kRBlobKeyLen + payload.length ≤ _
      omega
    · exact horig
  · intro r hr
    rw [hlen]
    rcases List.mem_append.1 hr with hr | hr
    · have := h.ends r hr
      omega
    · rw [List.mem_singleton.1 hr]
      show size + ext.length + kRBlobKeyLen + payload.length ≤ _
      omega

/-- Another payload without a piece. -/
theorem BlobPieces.pad {size : Nat} {ext : Bytes} (h : BlobPieces size ext pieces) (payload : Bytes)
    (objlen : Nat) : BlobPieces size (appendBlob ext size payload objlen).1 pieces := by
  have hlen := length_appendBlob ext size payload objlen
  refine ⟨h.placed.mono (by omega), ?_⟩
  intro r hr
  have := h.ends r hr
  omega

/-- A payload that has a piece only when there was an original. -/
theorem BlobPieces.appendIf {size : Nat} {ext : Bytes} (h : BlobPieces size ext pieces)
    (payload : Bytes) (objlen : Nat) {off len : Nat} (horig : off + len ≤ size) :
    BlobPieces size (appendBlob ext size payload objlen).1
      (pieces ++ if len = 0 then [] else
        [⟨(appendBlob ext size payload objlen).2, payload.length, off, len⟩]) := by
  split
  · rw [List.append_nil]
    exact h.pad payload objlen
  · exact h.append payload objlen horig

section RNTuple

variable {E : Encoder} {hash : Bytes → UInt64} {m : RNTupleMeta} {level : Nat}
  {eligible : Nat → ColumnRange → Eligible}
  {block : Nat → Nat → PageInfo → Except BlockFault PageBlock}

/-- Where the walk stands: it appends at the end of the file. -/
structure RewritePieces (m : RNTupleMeta) (st : Rewriting) : Prop where
  base : st.out.extBase = m.fileSize
  pieces : BlobPieces m.fileSize st.out.extension st.out.origMap

theorem rewritePieces_page {ri : Nat} {p : Nat × PageInfo} {st st' : Rewriting}
    (hin : p.2.offset + p.2.onDisk ≤ m.fileSize) (hst : RewritePieces m st)
    (h : rewritePage hash block ri st p = .ok st') : RewritePieces m st' := by
  unfold rewritePage at h
  simp only at h
  split at h
  · cases h
    exact ⟨hst.base, hst.pieces⟩
  · split at h
    · cases h
    · rename_i b _
      cases h
      refine ⟨hst.base, ?_⟩
      have happend := hst.pieces.append
        (if p.2.hasChecksum then b.enc ++ le 8 (hash b.enc).toNat else b.enc)
        p.2.uncompressedBytes hin
      rw [← hst.base] at happend ⊢
      exact happend

theorem rewritePieces_range {r : Nat × ColumnRange} {st st' : Rewriting}
    (hin : ∀ pg ∈ r.2.pages, pg.offset + pg.onDisk ≤ m.fileSize) (hst : RewritePieces m st)
    (h : rewriteRange hash level eligible block st r = .ok st') : RewritePieces m st' := by
  unfold rewriteRange at h
  split at h
  · cases h
    exact ⟨hst.base, hst.pieces⟩
  · cases h
    exact ⟨hst.base, hst.pieces⟩
  · obtain ⟨mid, hmid, h⟩ := bind_eq_ok h
    cases h
    have hwalk : RewritePieces m mid := by
      apply foldlM_keeps _ _ hmid
      · intro s p s' hp hs hstep
        exact rewritePieces_page (hin p.2 (List.of_mem_zip hp).2) hs hstep
      · exact ⟨hst.base, hst.pieces⟩
    exact ⟨hwalk.base, hwalk.pieces⟩

/-- What a rewrite that is finished hands to the overlay. -/
theorem finishRewrite_pieces {st : Rewriting} (hin : InsideRNTuple m) (hst : RewritePieces m st)
    (h : (finishRewrite E hash m level st).error = "") :
    (finishRewrite E hash m level st).extBase = m.fileSize ∧
      BlobPieces m.fileSize (finishRewrite E hash m level st).extension
        (finishRewrite E hash m level st).origMap ∧
      ∃ ap newEnd, (finishRewrite E hash m level st).patches =
        [ap, { off := 12, bytes := be m.headerSeekWidth newEnd }] ∧
          ap.off = m.anchor.payloadOffset + 38 ∧ ap.bytes.length = 40 := by
  unfold finishRewrite at h ⊢
  simp only at h ⊢
  split at h
  · simp [RNTupleRewrite.fail] at h
  rename_i ftr₀ _
  split at h
  · simp [RNTupleRewrite.fail] at h
  split at h
  · simp [RNTupleRewrite.fail] at h
  split at h
  · simp [RNTupleRewrite.fail] at h
  rename_i hoff hlen hnarrow
  rw [if_neg hoff, if_neg hlen, if_neg hnarrow]
  refine ⟨hst.base, ?_, _, _, rfl, rfl, ?_⟩
  · have hlist := hst.pieces.appendIf (storeEnvelope E (sealEnvelope hash st.pl) level)
      (sealEnvelope hash st.pl).length hin.pageList
    have hfoot := hlist.appendIf (storeEnvelope E (sealEnvelope hash ftr₀) level)
      (sealEnvelope hash ftr₀).length hin.footer
    rw [← hst.base] at hfoot ⊢
    exact hfoot
  · simp [anchorPatch]

/-- A rewrite without error. -/
theorem buildImpl_pieces (hin : InsideRNTuple m)
    (h : (buildImpl E hash m m.fileSize level eligible block).error = "") :
    (buildImpl E hash m m.fileSize level eligible block).extBase = m.fileSize ∧
      BlobPieces m.fileSize (buildImpl E hash m m.fileSize level eligible block).extension
        (buildImpl E hash m m.fileSize level eligible block).origMap ∧
      ∃ ap newEnd, (buildImpl E hash m m.fileSize level eligible block).patches =
        [ap, { off := 12, bytes := be m.headerSeekWidth newEnd }] ∧
          ap.off = m.anchor.payloadOffset + 38 ∧ ap.bytes.length = 40 := by
  unfold buildImpl at h ⊢
  simp only at h ⊢
  split at h
  · simp [RNTupleRewrite.fail] at h
  rename_i hsome
  rw [if_neg hsome]
  split at h
  · rename_i out hout
    exact absurd h (foldlM_error (fun _ _ _ => rewriteRange_error) hout)
  rename_i st hst
  split at h
  · simp [RNTupleRewrite.fail] at h
  rename_i hmoved
  rw [if_neg hmoved]
  apply finishRewrite_pieces hin _ h
  apply foldlM_keeps _ _ hst
  · intro s r s' hr hs hstep
    have hmem : r.2 ∈ m.ranges := (List.of_mem_zip hr).2
    exact rewritePieces_range (hin.pages r.2 hmem) hs hstep
  · exact ⟨rfl, blobPieces_nil _⟩

/-- The map of a column store's overlay. -/
theorem rnTuple_origMapOk (hin : InsideRNTuple m)
    (h : (rnTupleOverlay m (buildImpl E hash m m.fileSize level eligible block)).error = "")
    (hfits : ∀ e ∈ (rnTupleOverlay m
      (buildImpl E hash m m.fileSize level eligible block)).sidecar.extents,
        e.virtOff + e.len < 2 ^ 63) :
    OrigMapOk (rnTupleOverlay m (buildImpl E hash m m.fileSize level eligible block)).sidecar := by
  generalize hout : buildImpl E hash m m.fileSize level eligible block = out at h hfits ⊢
  unfold rnTupleOverlay at h hfits ⊢
  split at h
  · rename_i herr
    exact absurd h herr
  rename_i herr
  simp only [ne_eq, not_not] at herr
  simp only at h hfits ⊢
  rw [if_neg (by simp [herr])] at hfits ⊢
  split at h
  · exact absurd h (by decide)
  rename_i hgap
  rw [if_neg hgap] at hfits ⊢
  rw [← hout] at herr
  obtain ⟨hbase, hpieces, ap, newEnd, hpatches, hap, haplen⟩ := buildImpl_pieces hin herr
  rw [hout] at hbase hpieces hpatches
  -- the header's end comes first, then the anchor
  have hsorted : out.patches.insertionSort (fun a b => a.off ≤ b.off) =
      [{ off := 12, bytes := be m.headerSeekWidth newEnd }, ap] := by
    rw [hpatches]
    simp [List.orderedInsert, hap]
  have hwidth := hin.width
  have hanchor := hin.anchor
  have hheader := hin.header
  have hlast := hfits ⟨out.extBase, out.extension.length, m.headerSeekWidth + ap.bytes.length⟩ (by
    simp only [hsorted]
    simp [placeExtents])
  simp only at hlast
  rw [hbase] at hlast
  apply @origMapOk_of _ out.origMap [⟨12, m.headerSeekWidth, 12, m.headerSeekWidth⟩,
    ⟨ap.off, ap.bytes.length, ap.off, ap.bytes.length⟩] _ hpieces.placed
  · simp only [List.pairwise_cons, List.mem_singleton, forall_eq, List.not_mem_nil, false_implies,
      implies_true, List.Pairwise.nil, and_true]
    left
    constructor
    · simp only [OrigRange.stop]
      omega
    · simp only
      omega
  · intro w hw
    simp only [List.mem_cons, List.not_mem_nil, or_false] at hw
    obtain rfl | rfl := hw
    · simp only [OrigRange.stop]
      omega
    · simp only [OrigRange.stop]
      omega
  · simp
  · simp only [hsorted]
    simp
  · intro r hr
    have hend := hpieces.ends r hr
    simp only [hbase]
    exact hend
  · simp only [hbase]
    omega
  · simp only [hbase]
    omega

end RNTuple

/-! ### Both builders -/

/-- An overlay that a builder made without error, over a file whose records lie inside of it. -/
inductive BuiltOverlay : Overlay → Prop
  | tree {D : Decoders} {E : Encoder} {fm : FileMeta} {src : BasketSource} {zstdVersion : Nat}
      {hot : List Bytes} {ov : TreeOverlay} (inside : InsideTree fm)
      (built : buildOverlay D E fm src zstdVersion hot = .ok ov) : BuiltOverlay ov.toOverlay
  | rnTuple {E : Encoder} {hash : Bytes → UInt64} {m : RNTupleMeta} {level : Nat}
      {eligible : Nat → ColumnRange → Eligible}
      {block : Nat → Nat → PageInfo → Except BlockFault PageBlock} (inside : InsideRNTuple m)
      (built : (rnTupleOverlay m (buildImpl E hash m m.fileSize level eligible block)).error = "") :
      BuiltOverlay (rnTupleOverlay m (buildImpl E hash m m.fileSize level eligible block))

/-- [SRC ReplicaStore.cc:55-96, Transposer.cc:93-185, RNTupleRewrite.cc:564-581] The map of a built
overlay is sorted and its pieces are apart, and a read is named exactly in the coordinates of the
origin. -/
theorem built_origin_ranges {ov : Overlay} (h : BuiltOverlay ov)
    (hfits : ∀ e ∈ ov.sidecar.extents, e.virtOff + e.len < 2 ^ 63) :
    ov.sidecar.origMap.Pairwise (fun a b => a.stop ≤ b.virtOff) ∧
      ∀ off len, off + len < 2 ^ 64 → OriginAnswer ov.sidecar off (off + len)
        (ReplicaView.originRanges ov.sidecar off len) := by
  have hok : OrigMapOk ov.sidecar := by
    cases h with
    | tree inside built => exact tree_origMapOk inside built hfits
    | rnTuple inside built => exact rnTuple_origMapOk inside built hfits
  exact ⟨hok.order, fun off len hwrap => ReplicaView.originRanges_spec hok hwrap⟩

/-! ### A small file -/

/-- A key of 32-bit seeks. -/
def narrowKey (nbytes objlen seek : Int) (cls name : String) : Bytes :=
  beInt 4 nbytes ++ beInt 2 4 ++ beInt 4 objlen ++ beInt 4 0 ++
    beInt 2 (29 + cls.length + name.length) ++ beInt 2 1 ++ beInt 4 seek ++ beInt 4 100 ++
      [UInt8.ofNat cls.length] ++ ascii cls ++ [UInt8.ofNat name.length] ++ ascii name ++ [0]

/-- A file of 500 bytes: a basket at 200, a tree record at 300 and the keys list at 400. -/
def smallFile : Bytes :=
  let basket := narrowKey 61 3 200 "TBasket" "b" ++ encodeZstdFrames storedEncoder [7, 7, 9] 1
  let tree := narrowKey 56 16 300 "TTree" "Events" ++ List.replicate 16 0
  let keys := narrowKey 73 0 400 "" "" ++ beInt 4 1 ++ narrowKey 56 16 300 "TTree" "Events"
  patch (patch (patch (List.replicate 500 0) 200 basket) 300 tree) 400 keys

def smallSource : BasketSource where
  has := fun off n => decide (off + n ≤ 500)
  read := fun off n => if off + n ≤ 500 then some (slice smallFile off n) else none
  read_length := by
    intro off n b h
    split at h
    · cases h
      have hlen : smallFile.length = 500 := by decide +kernel
      rw [length_slice, hlen]
      omega
    · cases h

def narrowTree : FileMeta where
  fend := 500
  keyslistSeek := 400
  headerSeekWidth := 4
  treeKey :=
    { nbytes := 56
      ver := 4
      objlen := 16
      keylen := 40
      cycle := 1
      seekkey := 300
      cls := ascii "TTree"
      name := ascii "Events" }
  treeBlob := List.replicate 16 0
  branches :=
    [{ name := ascii "b"
       writeBasket := 1
       maxBaskets := 1
       basketSeek := [200]
       basketBytes := [61]
       seekArrayOff := 0
       bytesArrayOff := 8 }]

def smallBuild : Except BuildFault TreeOverlay :=
  buildOverlay storedDecoders storedEncoder narrowTree smallSource 10505 [ascii "b"]

/-- The basket's copy, read where the overlay has it, is the basket where the origin has it. -/
example : (smallBuild.map fun ov => ReplicaView.originRanges ov.sidecar 510 8) =
    .ok [⟨200, 61⟩] := by
  decide +kernel

/-- The ranges of a small build, through `built_origin_ranges`. -/
theorem small_origin_ranges : ∃ ov, smallBuild = .ok ov ∧
    OriginAnswer ov.sidecar 190 590 (ReplicaView.originRanges ov.sidecar 190 400) := by
  have hcheck : (match smallBuild with
      | .ok ov => ov.sidecar.extents.all fun e => decide (e.virtOff + e.len < 2 ^ 63)
      | .error _ => false) = true := by decide +kernel
  have hinside : InsideTree narrowTree := by
    refine ⟨by decide, by decide, by decide, ?_, by decide⟩
    intro br hbr i hi
    simp only [narrowTree, List.mem_singleton] at hbr
    subst hbr
    have hzero : i = 0 := by
      simp only [Int.toNat_one] at hi
      omega
    subst hzero
    decide
  cases hbuild : smallBuild with
  | error e =>
      rw [hbuild] at hcheck
      cases hcheck
  | ok ov =>
      rw [hbuild] at hcheck
      refine ⟨ov, rfl, ?_⟩
      have hfits : ∀ e ∈ ov.sidecar.extents, e.virtOff + e.len < 2 ^ 63 := by
        intro e he
        exact of_decide_eq_true (List.all_eq_true.1 hcheck e he)
      exact (built_origin_ranges (BuiltOverlay.tree hinside hbuild) hfits).2 190 400 (by decide)

end UCache
