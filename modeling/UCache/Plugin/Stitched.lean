/-
Module: UCache.Plugin.Stitched
Purpose: Serving a replica's stitched view: overlay pieces from `.tdata`, origin pieces from the
  byte cache, and one wire fetch for what is left.
Trusted boundary: none
Main exports: Residual, WireAnswer, stitched_replica_reads
-/
import Mathlib.Data.List.Sort
import UCache.Core.ReplicaView
import UCache.Lib.Spans
import UCache.Plugin.ColdRequest

namespace UCache

open Lib

/-! ### The request -/

/-- A residual piece of the origin: `len` bytes at `off`, for position `pos` of chunk `chunk`'s
buffer. -/
structure Residual where
  chunk : Nat
  pos : Nat
  off : Nat
  len : Nat
deriving DecidableEq, Repr

/-- How a vector read on the wire ends: not issued; failed, and what the pass-through of the
residual pieces then gave; or one buffer for each element. -/
inductive WireAnswer where
  | refused
  | failed (relay : Option (List Bytes))
  | ok (bufs : List Bytes)

/-- The byte cache's geometry, and every answer that a request gets: for chunk `c` what the file of
the overlay and the byte cache say, and what the wire says. -/
structure StitchCx where
  pageSize : Nat
  fileSize : Nat
  pread : Nat → Nat → Nat → Nat → Bytes
  cached : Nat → Nat → Nat → Option Bytes
  wire : List WireElem → List Residual → WireAnswer

/-- [SRC UCacheFile.cc:1239-1257] One piece of chunk `c`, into its buffer. -/
def stitchSeg (cx : StitchCx) (m : ReplicaMeta) (c : Nat) (ch : Chunk)
    (st : Bytes × List Residual) (seg : ReplicaView.Seg) : Option (Bytes × List Residual) :=
  let d := seg.off - ch.off
  if seg.overlay then
    match ReplicaView.read m (cx.pread c seg.off) seg.tdataOff seg.len (slice st.1 d seg.len) with
    | none => none
    | some b => some (patch st.1 d b, st.2)
  else if cx.fileSize < add64 seg.off seg.len then none
  else
    match cx.cached c seg.off seg.len with
    | some b => some (patch st.1 d b, st.2)
    | none => some (st.1, st.2 ++ [{ chunk := c, pos := d, off := seg.off, len := seg.len }])

/-- [SRC UCacheFile.cc:1234-1260] -/
def stitchChunk (cx : StitchCx) (m : ReplicaMeta) (c : Nat) (ch : Chunk)
    (st : Bytes × List Residual) : Option (Bytes × List Residual) :=
  (ReplicaView.map m ch.off ch.len).foldlM (stitchSeg cx m c ch) st

/-- [SRC UCacheFile.cc:1268-1273] The chunks from number `c` on. -/
def stitchChunks (cx : StitchCx) (m : ReplicaMeta) :
    Nat → List Chunk → (Nat → Bytes) × List Residual → Option ((Nat → Bytes) × List Residual)
  | _, [], st => some st
  | c, ch :: rest, st =>
      match stitchChunk cx m c ch (st.1 c, st.2) with
      | none => none
      | some (buf, resid) => stitchChunks cx m (c + 1) rest (Function.update st.1 c buf, resid)

/-! ### The wire -/

/-- [SRC UCacheFile.cc:1113-1141] The elements of the wire read: the pieces rounded to pages, in
order, coalesced, and cut to legal lengths. -/
def missWire (pageSize fileSize : Nat) (resid : List Residual) : List WireElem :=
  let ivals := resid.map fun r => roundSpan pageSize fileSize r.off r.len
  let sorted := ivals.insertionSort fun a b => a.1 < b.1 ∨ a.1 = b.1 ∧ a.2 ≤ b.2
  (sorted.foldl addSpan []).flatMap fun r => cutRun pageSize (r.2 - r.1) r.1 r.2

/-- [SRC UCacheFile.cc:1076-1085] The elements from the last one on that starts at or before
`pos`. -/
def findWire (pos : Nat) : List (WireElem × Bytes) → List (WireElem × Bytes)
  | [] => []
  | [w] => [w]
  | w :: w' :: rest =>
      if w.1.off ≤ pos ∧ w'.1.off ≤ pos then findWire pos (w' :: rest) else w :: w' :: rest

/-- [SRC UCacheFile.cc:979-995] The bytes of a piece, out of the elements one after the other; nothing
when they leave a gap. -/
def scatterFrom : List (WireElem × Bytes) → Nat → Nat → Option Bytes
  | [], _, left => if left = 0 then some [] else none
  | (w, buf) :: rest, pos, left =>
      if left = 0 then some []
      else if pos < w.off ∨ w.off + w.len ≤ pos then none
      else
        let n := min left (w.off + w.len - pos)
        (scatterFrom rest (pos + n) (left - n)).map fun b => slice buf (pos - w.off) n ++ b

/-- The bytes of a piece go to its place. -/
def placeResidual (bufs : Nat → Bytes) (rb : Residual × Bytes) : Nat → Bytes :=
  Function.update bufs rb.1.chunk (patch (bufs rb.1.chunk) rb.1.pos rb.2)

/-- [SRC UCacheFile.cc:937-1035, 1106-1169] What is left is fetched from the origin. -/
def fetchResiduals (cx : StitchCx) (bufs : Nat → Bytes) (resid : List Residual) :
    Option (Nat → Bytes) :=
  let elems := missWire cx.pageSize cx.fileSize resid
  match cx.wire elems resid with
  | .refused => none
  | .failed relay => relay.map fun bytes => (resid.zip bytes).foldl placeResidual bufs
  | .ok wbufs =>
      let wire := elems.zip wbufs
      (resid.mapM fun r => scatterFrom (findWire r.off wire) r.off r.len).map fun bytes =>
        (resid.zip bytes).foldl placeResidual bufs

/-- [SRC UCacheFile.cc:1262-1307] The chunks' buffers when the request succeeds. -/
def stitchedServe (cx : StitchCx) (m : ReplicaMeta) (chunks : List Chunk) (bufs : Nat → Bytes) :
    Option (Nat → Bytes) :=
  match stitchChunks cx m 0 chunks (bufs, []) with
  | none => none
  | some (bufs, resid) => if resid = [] then some bufs else fetchResiduals cx bufs resid

/-! ### The answers -/

/-- The bytes of `O` from `off` on. -/
def BytesOf (O : Bytes) (off len : Nat) (b : Bytes) : Prop :=
  b.length = len ∧ ∀ k < len, b[k]? = O[off + k]?

/-- The overlay's file is `tdata`, and what the byte cache and the wire answer with is the
origin's. -/
structure StitchCx.Honest (cx : StitchCx) (tdata origin : Bytes) : Prop where
  pread : ∀ c v off n, cx.pread c v off n <+: slice tdata off n
  cached : ∀ c off len b, cx.cached c off len = some b → BytesOf origin off len b
  wire : ∀ elems resid bufs, cx.wire elems resid = .ok bufs → ∀ wb ∈ elems.zip bufs,
    BytesOf origin wb.1.off wb.1.len wb.2
  relay : ∀ elems resid bufs, cx.wire elems resid = .failed (some bufs) →
    bufs.length = resid.length ∧ ∀ rb ∈ resid.zip bufs, BytesOf origin rb.1.off rb.1.len rb.2

/-! ### What a piece reads as -/

section Reads

variable {m : ReplicaMeta} {tdata origin : Bytes}

theorem stitchedByte_overlay (hok : m.Ok) {s : ReplicaView.Seg} (h : SegOk m.extents s)
    (hover : s.overlay = true) {k : Nat} (hk : k < s.len) :
    stitchedByte m tdata origin (s.off + k) = tdata[s.tdataOff + k]? := by
  rw [SegOk, if_pos hover] at h
  obtain ⟨e, he, hlo, hhi, htdata⟩ := h
  have hcov : e.covers (s.off + k) = true := by
    simp only [Extent.covers, Bool.and_eq_true, decide_eq_true_eq]
    omega
  have hindex : e.tdataOff + (s.off + k - e.virtOff) = e.tdataOff + (s.off - e.virtOff) + k := by
    omega
  simp only [stitchedByte, find_extent hok.ordered.pairwise he hcov, htdata, hindex]

theorem stitchedByte_origin {s : ReplicaView.Seg} (h : SegOk m.extents s)
    (hover : s.overlay = false) {k : Nat} (hk : k < s.len) :
    stitchedByte m tdata origin (s.off + k) = origin[s.off + k]? := by
  rw [SegOk, if_neg (by simp [hover])] at h
  have hnone : m.extents.find? (fun e => e.covers (s.off + k)) = none := by
    rw [List.find?_eq_none]
    intro e he
    have := h e he
    simp only [Extent.covers, Bool.and_eq_true, decide_eq_true_eq]
    omega
  rw [stitchedByte, hnone]

/-! ### One chunk -/

variable {resid : List Residual} {c : Nat} {cx : StitchCx}

/-- Byte `k` of chunk `c` is in place, or is left to a residual piece. -/
def Served (spec : Nat → Option UInt8) (c off : Nat) (buf : Bytes) (resid : List Residual)
    (k : Nat) : Prop :=
  buf[k]? = spec (off + k) ∨ ∃ r ∈ resid, r.chunk = c ∧ r.pos ≤ k ∧ k < r.pos + r.len

/-- A residual piece belongs to its place in its chunk, and reads as the origin there. -/
structure Residual.Ok (spec : Nat → Option UInt8) (origin : Bytes) (ch : Chunk)
    (r : Residual) : Prop where
  place : r.off = ch.off + r.pos
  inside : r.pos + r.len ≤ ch.len
  origin : ∀ k < r.len, spec (r.off + k) = origin[r.off + k]?

/-- Bytes that are right leave what is in place in place. -/
theorem patch_right {spec : Nat → Option UInt8} {off pos : Nat} {buf b : Bytes}
    (hfit : pos + b.length ≤ buf.length) (hb : ∀ j < b.length, b[j]? = spec (off + pos + j))
    {k : Nat} (h : buf[k]? = spec (off + k) ∨ pos ≤ k ∧ k < pos + b.length) :
    (patch buf pos b)[k]? = spec (off + k) := by
  rw [getElem?_patch hfit]
  split
  · rename_i hin
    rw [hb _ (by omega)]
    congr 1
    omega
  · rename_i hout
    exact h.resolve_right hout

/-- What serving one piece of a chunk does. -/
structure SegServed (spec : Nat → Option UInt8) (origin : Bytes) (c : Nat) (ch : Chunk)
    (st st' : Bytes × List Residual) (a b : Nat) : Prop where
  length : st'.1.length = ch.len
  extra : ∃ extra, st'.2 = st.2 ++ extra ∧ ∀ r ∈ extra, r.chunk = c ∧ r.Ok spec origin ch
  kept : ∀ k, Served spec c ch.off st.1 st.2 k → Served spec c ch.off st'.1 st'.2 k
  served : ∀ k, a ≤ ch.off + k → ch.off + k < b → Served spec c ch.off st'.1 st'.2 k

theorem stitchSeg_patch {spec : Nat → Option UInt8} {ch : Chunk} {buf b : Bytes} {off len : Nat}
    (hbuf : buf.length = ch.len) (hlo : ch.off ≤ off) (hhi : off + len ≤ ch.off + ch.len)
    (hlen : b.length = len) (hb : ∀ j < len, b[j]? = spec (off + j)) :
    SegServed spec origin c ch (buf, resid) (patch buf (off - ch.off) b, resid) off (off + len) := by
  have hfit : off - ch.off + b.length ≤ buf.length := by omega
  have hright : ∀ j < b.length, b[j]? = spec (ch.off + (off - ch.off) + j) := by
    intro j hj
    rw [hb j (by omega), Nat.add_sub_cancel' hlo]
  constructor
  · rw [length_patch hfit, hbuf]
  · exact ⟨[], by simp, by simp⟩
  · rintro k (hk | hk)
    · exact Or.inl (patch_right hfit hright (Or.inl hk))
    · exact Or.inr hk
  · intro k hk hk'
    exact Or.inl (patch_right hfit hright (Or.inr ⟨by omega, by omega⟩))

theorem stitchSeg_spec (hok : m.Ok) (hcx : cx.Honest tdata origin) {ch : Chunk}
    {st st' : Bytes × List Residual} {seg : ReplicaView.Seg} (hseg : SegOk m.extents seg)
    (hlo : ch.off ≤ seg.off) (hhi : seg.off + seg.len ≤ ch.off + ch.len)
    (hbuf : st.1.length = ch.len) (h : stitchSeg cx m c ch st seg = some st') :
    SegServed (stitchedByte m tdata origin) origin c ch st st' seg.off (seg.off + seg.len) := by
  unfold stitchSeg at h
  simp only at h
  split at h
  · rename_i hover
    split at h
    · cases h
    · rename_i b hread
      cases h
      have hslice : (slice st.1 (seg.off - ch.off) seg.len).length = seg.len := by
        rw [length_slice]
        omega
      obtain ⟨hlen, hbytes⟩ :=
        ReplicaView.read_spec (ReplicaView.delivers_file (hcx.pread c seg.off)) hslice hread
      refine stitchSeg_patch hbuf hlo hhi hlen ?_
      intro j hj
      rw [hbytes j hj, stitchedByte_overlay hok hseg hover hj]
  · rename_i hover
    have horigin : seg.overlay = false := by simpa using hover
    split at h
    · cases h
    split at h
    · rename_i b hcached
      cases h
      obtain ⟨hlen, hbytes⟩ := hcx.cached c seg.off seg.len b hcached
      refine stitchSeg_patch hbuf hlo hhi hlen ?_
      intro j hj
      rw [hbytes j hj, stitchedByte_origin hseg horigin hj]
    · cases h
      constructor
      · exact hbuf
      · refine ⟨_, rfl, ?_⟩
        intro r hr
        rw [List.mem_singleton] at hr
        subst hr
        refine ⟨rfl, ?_, ?_, fun k hk => stitchedByte_origin hseg horigin hk⟩ <;> simp only <;>
          omega
      · rintro k (hk | ⟨r, hr, hcov⟩)
        · exact Or.inl hk
        · exact Or.inr ⟨r, by simp [hr], hcov⟩
      · intro k hk hk'
        refine Or.inr ⟨_, List.mem_append_right _ (List.mem_singleton_self _), rfl, ?_, ?_⟩ <;>
          simp only <;> omega

theorem segsFrom_le {a b : Nat} {segs : List ReplicaView.Seg} (h : SegsFrom a segs b) : a ≤ b := by
  induction segs generalizing a with
  | nil => exact Nat.le_of_eq h
  | cons s rest ih =>
      have := ih h.2.2
      omega

/-! ### All chunks -/

theorem Served.more {spec : Nat → Option UInt8} {c off : Nat} {buf : Bytes}
    {resid extra : List Residual} {k : Nat} (h : Served spec c off buf resid k) :
    Served spec c off buf (resid ++ extra) k := by
  rcases h with h | ⟨r, hr, hcov⟩
  · exact Or.inl h
  · exact Or.inr ⟨r, by simp [hr], hcov⟩

theorem SegServed.trans {spec : Nat → Option UInt8} {ch : Chunk}
    {st₁ st₂ st₃ : Bytes × List Residual} {a b d : Nat}
    (h1 : SegServed spec origin c ch st₁ st₂ a b) (h2 : SegServed spec origin c ch st₂ st₃ b d) :
    SegServed spec origin c ch st₁ st₃ a d := by
  obtain ⟨x₁, hx₁, hok₁⟩ := h1.extra
  obtain ⟨x₂, hx₂, hok₂⟩ := h2.extra
  constructor
  · exact h2.length
  · refine ⟨x₁ ++ x₂, by rw [hx₂, hx₁, List.append_assoc], ?_⟩
    intro r hr
    rcases List.mem_append.1 hr with hr | hr
    · exact hok₁ r hr
    · exact hok₂ r hr
  · exact fun k hk => h2.kept k (h1.kept k hk)
  · intro k hk hk'
    by_cases hb : ch.off + k < b
    · exact h2.kept k (h1.served k hk hb)
    · exact h2.served k (by omega) hk'

/-- The pieces of a chunk, one after the other. -/
theorem stitchSegs_spec (hok : m.Ok) (hcx : cx.Honest tdata origin) {ch : Chunk}
    {segs : List ReplicaView.Seg} (hsegs : ∀ s ∈ segs, SegOk m.extents s) {a b : Nat}
    (hfrom : SegsFrom a segs b) (hlo : ch.off ≤ a) (hhi : b ≤ ch.off + ch.len)
    {st st' : Bytes × List Residual} (hbuf : st.1.length = ch.len)
    (h : segs.foldlM (stitchSeg cx m c ch) st = some st') :
    SegServed (stitchedByte m tdata origin) origin c ch st st' a b := by
  induction segs generalizing a st with
  | nil =>
      cases h
      cases hfrom
      exact ⟨hbuf, ⟨[], by simp, by simp⟩, fun _ hk => hk, fun k hk hk' => absurd hk' (by omega)⟩
  | cons s rest ih =>
      obtain ⟨hoff, hlen, hrest⟩ := hfrom
      rw [List.foldlM_cons] at h
      obtain ⟨mid, hmid, hnext⟩ := Option.bind_eq_some_iff.1 h
      have hle : a + s.len ≤ b := segsFrom_le hrest
      have hone := stitchSeg_spec hok hcx (hsegs s (by simp)) (by omega) (by omega) hbuf hmid
      rw [hoff] at hone
      exact hone.trans (ih (fun x hx => hsegs x (by simp [hx])) hrest (by omega) hone.length hnext)

theorem stitchChunk_spec (hok : m.Ok) (hcx : cx.Honest tdata origin) {ch : Chunk}
    (hch : ch.off + ch.len < 2 ^ 64) {st st' : Bytes × List Residual} (hbuf : st.1.length = ch.len)
    (h : stitchChunk cx m c ch st = some st') :
    SegServed (stitchedByte m tdata origin) origin c ch st st' ch.off
      (max ch.off (min (ch.off + ch.len) m.virtualSize)) := by
  obtain ⟨hfrom, hsegs⟩ := ReplicaView.map_spec hok hch
  exact stitchSegs_spec hok hcx hsegs hfrom (Nat.le_refl _) (by omega) hbuf h

/-- Where a request stands: the chunks before number `c` are served, up to what is left to the
residual pieces. -/
structure Stitching (m : ReplicaMeta) (tdata origin : Bytes) (chunks : List Chunk)
    (bufs : Nat → Bytes) (resid : List Residual) (c : Nat) : Prop where
  lengths : ∀ i ch, chunks[i]? = some ch → (bufs i).length = ch.len
  left : ∀ r ∈ resid, ∃ ch, chunks[r.chunk]? = some ch ∧
    r.Ok (stitchedByte m tdata origin) origin ch
  served : ∀ i ch, chunks[i]? = some ch → i < c → ∀ k < ch.len, ch.off + k < m.virtualSize →
    Served (stitchedByte m tdata origin) i ch.off (bufs i) resid k

theorem stitchChunks_spec (hok : m.Ok) (hcx : cx.Honest tdata origin) {chunks : List Chunk}
    (hch : ∀ ch ∈ chunks, ch.off + ch.len < 2 ^ 64) {rest : List Chunk}
    (hrest : chunks.drop c = rest) {st st' : (Nat → Bytes) × List Residual}
    (hst : Stitching m tdata origin chunks st.1 st.2 c)
    (h : stitchChunks cx m c rest st = some st') :
    Stitching m tdata origin chunks st'.1 st'.2 chunks.length := by
  induction rest generalizing c st with
  | nil =>
      cases h
      have hlen : chunks.length ≤ c := List.drop_eq_nil_iff.1 hrest
      refine ⟨hst.lengths, hst.left, fun i ch hi hlt => hst.served i ch hi (by omega)⟩
  | cons ch rest ih =>
      rw [stitchChunks] at h
      have hget : chunks[c]? = some ch := by
        have := congrArg (fun l => l[0]?) hrest
        simpa using this
      have hdrop : chunks.drop (c + 1) = rest := by
        rw [← List.drop_drop, hrest]
        rfl
      split at h
      · cases h
      · rename_i buf resid hchunk
        have hserved := stitchChunk_spec hok hcx (hch ch (List.mem_of_getElem? hget))
          (hst.lengths c ch hget) hchunk
        obtain ⟨extra, hextra, hextraOk⟩ := hserved.extra
        have hextra' : resid = st.2 ++ extra := hextra
        refine ih hdrop ?_ h
        constructor
        · intro i ch' hi
          by_cases hic : i = c
          · subst hic
            rw [hget] at hi
            cases hi
            simpa using hserved.length
          · simpa [Function.update_of_ne hic] using hst.lengths i ch' hi
        · intro r hr
          simp only [hextra'] at hr
          rcases List.mem_append.1 hr with hr | hr
          · exact hst.left r hr
          · exact ⟨ch, by rw [(hextraOk r hr).1]; exact hget, (hextraOk r hr).2⟩
        · intro i ch' hi hlt k hk hkv
          by_cases hic : i = c
          · subst hic
            rw [hget] at hi
            cases hi
            simpa using hserved.served k (by omega) (by omega)
          · have hbefore := hst.served i ch' hi (by omega) k hk hkv
            simp only [Function.update_of_ne hic, hextra']
            exact hbefore.more

/-! ### What is left -/

variable {bufs : Nat → Bytes}

theorem findWire_subset (pos : Nat) (wire : List (WireElem × Bytes)) :
    ∀ x ∈ findWire pos wire, x ∈ wire := by
  intro x hx
  fun_induction findWire pos wire with
  | case1 => exact hx
  | case2 w => exact hx
  | case3 w w' rest hle ih => exact List.mem_cons_of_mem _ (ih hx)
  | case4 w w' rest hle => exact hx

/-- What is put together from the elements is the origin's. -/
theorem scatterFrom_spec {wire : List (WireElem × Bytes)}
    (hwire : ∀ wb ∈ wire, BytesOf origin wb.1.off wb.1.len wb.2) {pos left : Nat} {b : Bytes}
    (h : scatterFrom wire pos left = some b) : BytesOf origin pos left b := by
  induction wire generalizing pos left b with
  | nil =>
      rw [scatterFrom] at h
      split at h
      · cases h
        exact ⟨by simp; omega, fun k hk => absurd hk (by omega)⟩
      · cases h
  | cons wb rest ih =>
      obtain ⟨w, buf⟩ := wb
      rw [scatterFrom] at h
      split at h
      · cases h
        exact ⟨by simp; omega, fun k hk => absurd hk (by omega)⟩
      split at h
      · cases h
      · rename_i hleft hin
        obtain ⟨b', hb', rfl⟩ := Option.map_eq_some_iff.1 h
        obtain ⟨hlen', hbytes'⟩ := ih (fun x hx => hwire x (by simp [hx])) hb'
        obtain ⟨hlen, hbytes⟩ := hwire (w, buf) (by simp)
        simp only at hlen hbytes
        have hn : (slice buf (pos - w.off) (min left (w.off + w.len - pos))).length =
            min left (w.off + w.len - pos) := by
          rw [length_slice]
          omega
        refine ⟨by rw [List.length_append, hn, hlen']; omega, ?_⟩
        intro k hk
        by_cases hfirst : k < min left (w.off + w.len - pos)
        · rw [List.getElem?_append_left (by omega), getElem?_slice, if_pos hfirst,
            hbytes _ (by omega)]
          congr 1
          omega
        · rw [List.getElem?_append_right (by omega), hn, hbytes' _ (by omega)]
          congr 1
          omega

theorem mapM_zip {α β : Type} {f : α → Option β} {l : List α} {bs : List β}
    (h : l.mapM f = some bs) : bs.length = l.length ∧ ∀ x ∈ l.zip bs, f x.1 = some x.2 := by
  induction l generalizing bs with
  | nil =>
      cases h
      simp
  | cons a l ih =>
      rw [List.mapM_cons] at h
      obtain ⟨b, hb, hrest⟩ := Option.bind_eq_some_iff.1 h
      obtain ⟨bs', hbs', hpure⟩ := Option.bind_eq_some_iff.1 hrest
      cases hpure
      obtain ⟨hlen, heach⟩ := ih hbs'
      refine ⟨by simp [hlen], ?_⟩
      intro x hx
      rw [List.zip_cons_cons] at hx
      rcases List.mem_cons.1 hx with rfl | hmem
      · exact hb
      · exact heach x hmem

/-- A residual piece in place: what was left to it is served. -/
theorem placeResidual_spec {chunks : List Chunk} {r : Residual} {b : Bytes}
    (hst : Stitching m tdata origin chunks bufs (r :: resid) c) (hb : BytesOf origin r.off r.len b) :
    Stitching m tdata origin chunks (placeResidual bufs (r, b)) resid c := by
  obtain ⟨ch, hget, hr⟩ := hst.left r (by simp)
  obtain ⟨hlen, hbytes⟩ := hb
  have hbuf := hst.lengths r.chunk ch hget
  have hinside := hr.inside
  have hfit : r.pos + b.length ≤ (bufs r.chunk).length := by omega
  have hright : ∀ j < b.length,
      b[j]? = stitchedByte m tdata origin (ch.off + r.pos + j) := by
    intro j hj
    rw [← hr.place, hr.origin j (by omega)]
    exact hbytes j (by omega)
  have hother : ∀ i, i ≠ r.chunk → placeResidual bufs (r, b) i = bufs i := fun i hi =>
    Function.update_of_ne hi _ _
  have hsame : placeResidual bufs (r, b) r.chunk = patch (bufs r.chunk) r.pos b :=
    Function.update_self _ _ _
  constructor
  · intro i ch' hi
    by_cases hic : i = r.chunk
    · subst hic
      rw [hsame, length_patch hfit]
      exact hst.lengths _ ch' hi
    · rw [hother i hic]
      exact hst.lengths i ch' hi
  · exact fun x hx => hst.left x (by simp [hx])
  · intro i ch' hi hlt k hk hkv
    have hbefore := hst.served i ch' hi hlt k hk hkv
    by_cases hic : i = r.chunk
    · subst hic
      rw [hget] at hi
      cases hi
      unfold Served
      rw [hsame]
      rcases hbefore with hdone | ⟨x, hx, hxc, hcov⟩
      · exact Or.inl (patch_right hfit hright (Or.inl hdone))
      · rcases List.mem_cons.1 hx with rfl | hx
        · exact Or.inl (patch_right hfit hright (Or.inr ⟨hcov.1, by omega⟩))
        · exact Or.inr ⟨x, hx, hxc, hcov⟩
    · unfold Served
      rw [hother i hic]
      rcases hbefore with hdone | ⟨x, hx, hxc, hcov⟩
      · exact Or.inl hdone
      · rcases List.mem_cons.1 hx with rfl | hx
        · exact absurd hxc.symm hic
        · exact Or.inr ⟨x, hx, hxc, hcov⟩

theorem placeResiduals_spec {chunks : List Chunk} {bytes : List Bytes}
    (hlen : bytes.length = resid.length)
    (hbytes : ∀ rb ∈ resid.zip bytes, BytesOf origin rb.1.off rb.1.len rb.2)
    (hst : Stitching m tdata origin chunks bufs resid c) :
    Stitching m tdata origin chunks ((resid.zip bytes).foldl placeResidual bufs) [] c := by
  induction resid generalizing bufs bytes with
  | nil => exact hst
  | cons r resid ih =>
      cases bytes with
      | nil => cases hlen
      | cons b bytes =>
          rw [List.zip_cons_cons] at hbytes ⊢
          exact ih (by simpa using hlen) (fun rb hrb => hbytes rb (by simp [hrb]))
            (placeResidual_spec hst (hbytes (r, b) (by simp)))

theorem fetchResiduals_spec (hcx : cx.Honest tdata origin) {chunks : List Chunk} {out : Nat → Bytes}
    (hst : Stitching m tdata origin chunks bufs resid c)
    (h : fetchResiduals cx bufs resid = some out) : Stitching m tdata origin chunks out [] c := by
  unfold fetchResiduals at h
  simp only at h
  split at h
  · cases h
  · rename_i relay hwire
    obtain ⟨bytes, rfl, rfl⟩ := Option.map_eq_some_iff.1 h
    obtain ⟨hlen, hbytes⟩ := hcx.relay _ _ _ hwire
    exact placeResiduals_spec hlen hbytes hst
  · rename_i wbufs hwire
    obtain ⟨bytes, hscatter, rfl⟩ := Option.map_eq_some_iff.1 h
    obtain ⟨hlen, heach⟩ := mapM_zip hscatter
    refine placeResiduals_spec hlen ?_ hst
    intro rb hrb
    apply scatterFrom_spec _ (heach rb hrb)
    intro wb hwb
    exact hcx.wire _ _ _ hwire wb (findWire_subset _ _ wb hwb)

/-- A request that succeeds: every buffer holds the stitched file's bytes. -/
theorem stitchedServe_spec (hok : m.Ok) (hcx : cx.Honest tdata origin) {chunks : List Chunk}
    (hch : ∀ ch ∈ chunks, ch.off + ch.len < 2 ^ 64) {out : Nat → Bytes}
    (hbufs : ∀ i ch, chunks[i]? = some ch → (bufs i).length = ch.len)
    (h : stitchedServe cx m chunks bufs = some out) :
    Stitching m tdata origin chunks out [] chunks.length := by
  unfold stitchedServe at h
  split at h
  · cases h
  · rename_i bufs' resid hchunks
    have hst := stitchChunks_spec hok hcx hch (c := 0) rfl
      ⟨hbufs, by simp, fun _ _ _ hlt => absurd hlt (by omega)⟩ hchunks
    split at h
    · rename_i hnone
      cases h
      subst hnone
      exact hst
    · exact fetchResiduals_spec hcx hst h

end Reads

/-- Stitched replica reads.  A sidecar that was accepted splits every range into consecutive pieces,
each of one extent or of the origin alone; and a request that succeeds has in every position the
byte that the extents assign to it, or the origin's. -/
theorem stitched_replica_reads {image : Bytes} {m : ReplicaMeta}
    (hm : ReplicaFile.deserialize image = some m) :
    (∀ off len, off + len < 2 ^ 64 →
      SegsFrom off (ReplicaView.map m off len) (max off (min (off + len) m.virtualSize)) ∧
        ∀ s ∈ ReplicaView.map m off len, SegOk m.extents s) ∧
    ∀ (cx : StitchCx) (tdata origin : Bytes) (chunks : List Chunk) (bufs out : Nat → Bytes),
      cx.Honest tdata origin → (∀ ch ∈ chunks, ch.off + ch.len < 2 ^ 64) →
      (∀ i ch, chunks[i]? = some ch → (bufs i).length = ch.len) →
      stitchedServe cx m chunks bufs = some out →
        ∀ i ch, chunks[i]? = some ch → (out i).length = ch.len ∧
          ∀ k < ch.len, ch.off + k < m.virtualSize →
            (out i)[k]? = stitchedByte m tdata origin (ch.off + k) := by
  have hok := ReplicaFile.deserialize_ok hm
  refine ⟨fun off len hlen => ReplicaView.map_spec hok hlen, ?_⟩
  intro cx tdata origin chunks bufs out hcx hch hbufs h i ch hi
  have hst := stitchedServe_spec hok hcx hch hbufs h
  have hlt : i < chunks.length := (List.getElem?_eq_some_iff.1 hi).1
  refine ⟨hst.lengths i ch hi, ?_⟩
  intro k hk hkv
  rcases hst.served i ch hi hlt k hk hkv with hdone | ⟨r, hr, -⟩
  · exact hdone
  · cases hr

/-- An origin of ten bytes, of which two are patched, and two more after its end. -/
def smallReplica : ReplicaMeta where
  originSize := 10
  virtualSize := 12
  tdataBytes := 4
  extents :=
    [{ virtOff := 2
       len := 2
       tdataOff := 0 },
     { virtOff := 10
       len := 2
       tdataOff := 2 }]
  pageCrcs := [crc32c [101, 102, 103, 104]]

def smallOrigin : Bytes := [0, 1, 2, 3, 4, 5, 6, 7, 8, 9]

def smallOverlay : Bytes := [101, 102, 103, 104]

/-- The first two bytes are in the byte cache; the wire gives the others. -/
def smallCx : StitchCx where
  pageSize := 4
  fileSize := 10
  pread := fun _ _ off n => slice smallOverlay off n
  cached := fun _ off len =>
    if off = 0 ∧ len = 2 then some (slice smallOrigin off len) else none
  wire := fun elems _ =>
    if elems.all fun w => decide (w.off + w.len ≤ 10) then
      .ok (elems.map fun w => slice smallOrigin w.off w.len)
    else .refused

theorem bytesOf_slice {O : Bytes} {off len : Nat} (h : off + len ≤ O.length) :
    BytesOf O off len (slice O off len) := by
  constructor
  · rw [length_slice]
    omega
  · intro k hk
    rw [getElem?_slice, if_pos hk]

theorem zip_map_self {α β : Type} (f : α → β) (l : List α) :
    l.zip (l.map f) = l.map fun a => (a, f a) := by
  induction l with
  | nil => rfl
  | cons a l ih => rw [List.map_cons, List.zip_cons_cons, ih, List.map_cons]

theorem smallCx_honest : smallCx.Honest smallOverlay smallOrigin := by
  constructor
  · intro c v off n
    exact List.prefix_rfl
  · intro c off len b h
    simp only [smallCx] at h
    split at h
    · rename_i hcached
      cases h
      exact bytesOf_slice (by rw [hcached.1, hcached.2]; decide)
    · cases h
  · intro elems resid bufs h wb hwb
    simp only [smallCx] at h
    split at h
    · rename_i hall
      cases h
      obtain ⟨w, hw, rfl⟩ : ∃ w ∈ elems, wb = (w, slice smallOrigin w.off w.len) := by
        rw [zip_map_self, List.mem_map] at hwb
        obtain ⟨w, hw, hwb⟩ := hwb
        exact ⟨w, hw, hwb.symm⟩
      have hin := List.all_eq_true.1 hall w hw
      simp only [decide_eq_true_eq] at hin
      exact bytesOf_slice hin
    · cases h
  · intro elems resid bufs h
    simp only [smallCx] at h
    split at h <;> cases h

set_option maxRecDepth 20000 in
/-- Twelve bytes, of which the replica holds four. -/
theorem stitched_replica_reads_small :
    ∃ out, stitchedServe smallCx smallReplica [{ off := 0, len := 12 }]
        (fun _ => List.replicate 12 0) = some out ∧
      out 0 = [0, 1, 101, 102, 4, 5, 6, 7, 8, 9, 103, 104] ∧
        ∀ k < 12, (out 0)[k]? = stitchedByte smallReplica smallOverlay smallOrigin (0 + k) := by
  have himage : ReplicaFile.deserialize (ReplicaFile.serialize smallReplica) =
      some smallReplica := by
    decide +kernel
  have hserve : ((stitchedServe smallCx smallReplica [{ off := 0, len := 12 }]
      fun _ => List.replicate 12 0).map fun out => out 0) =
        some [0, 1, 101, 102, 4, 5, 6, 7, 8, 9, 103, 104] := by
    decide +kernel
  obtain ⟨out, hout, hbytes⟩ := Option.map_eq_some_iff.1 hserve
  have hbufs : ∀ (i : Nat) (ch : Chunk), ([{ off := 0, len := 12 }] : List Chunk)[i]? = some ch →
      (List.replicate 12 (0 : UInt8)).length = ch.len := by
    intro i ch hi
    rw [List.mem_singleton.1 (List.mem_of_getElem? hi)]
    rfl
  refine ⟨out, hout, hbytes, ?_⟩
  intro k hk
  exact ((stitched_replica_reads himage).2 smallCx smallOverlay smallOrigin _ _ out smallCx_honest
    (by simp) hbufs hout 0 { off := 0, len := 12 } rfl).2 k hk (by simp [smallReplica]; omega)

end UCache
