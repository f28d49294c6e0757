/-
Module: UCache.Transpose.TreeFile
Purpose: Parsing a tree file: from the container to the live key of the tree, and over its record.
  What is accepted has its arrays and the places of its fields inside the record.
Trusted boundary: none
Main exports: liveTreeKey, parseTreeFrom, parseKey_objlen
-/
import UCache.Transpose.RNTupleParse
import UCache.Transpose.TreeSafe

namespace UCache

open Lib

/-- [SRC TreeMeta.cc:608-611] The key of the tree with the highest cycle, of these the last. -/
def liveTreeKey (tree : Bytes) (keys : List KeyInfo) : KeyInfo :=
  keys.foldl (fun best e =>
    if e.cls = ascii "TTree" ∧ e.name = tree ∧ best.cycle ≤ e.cycle then e else best) {}

section Parse

variable (D : Decoders) (src : ByteSource)

/-- [SRC TreeMeta.cc:587-632] Why a file is refused, or what it holds.  No result when the walk over the
tree's record reads outside of it. -/
def parseTreeFrom (fsz : Int) (tree : Bytes) : Option (Except String FileMeta) :=
  match parseContainer src fsz with
  | .error why => some (.error why)
  | .ok cm =>
      let k := liveTreeKey tree cm.keys
      if k.nbytes = 0 then some (.error ("tree '" ++ text tree ++ "' not found in keys list"))
      else if k.nbytes < 0 ∨ k.nbytes < k.keylen ∨ k.objlen < 0 ∨ k.seekkey < 0 ∨
          fsz - k.seekkey < k.nbytes then
        some (.error "tree key geometry implausible")
      else if src.get k.seekkey.toNat k.nbytes.toNat = none then
        some (.error "tree record not readable")
      else
        let blob := readKeyPayload D src k
        if blob.length ≠ k.objlen.toNat then some (.error "tree metadata decompression failed")
        else
          parseTreeBlob blob k.keylen
            { large := cm.large
              fend := cm.fend
              keyslistSeek := cm.keyslistSeek
              dirSeekKeysOff := cm.dirSeekKeysOff
              headerSeekWidth := cm.headerSeekWidth
              dirSeekWidth := cm.dirSeekWidth
              treeKey := k
              treeBlob := blob }

end Parse

/-! ### What is accepted -/

/-- The length of an object is a 32-bit signed integer. -/
theorem parseKey_objlen {p : Bytes} {off : Nat} {k : KeyInfo} (h : parseKey p off = some k) :
    k.objlen < 2 ^ 31 := by
  have hk := parseKeyAt_inv h
  have hlt : beGet (p.drop off) 6 4 < 256 ^ 4 := by
    have := ofLe_lt (slice (p.drop off) 6 4).reverse
    rwa [List.length_reverse, length_slice, Nat.min_eq_left (by have := hk.length; omega)] at this
  rw [hk.objlen, beGetInt, signed]
  split <;> omega

theorem readKeys_objlen {buf : Bytes} {n pos : Nat} : ∀ k ∈ readKeys buf n pos, k.objlen < 2 ^ 31 := by
  induction n generalizing pos with
  | zero => simp [readKeys]
  | succ n ih =>
      intro k hk
      unfold readKeys at hk
      split at hk
      · simp at hk
      · rename_i e he
        split at hk
        · rw [List.mem_singleton.1 hk]
          exact parseKey_objlen he
        · rcases List.mem_cons.1 hk with rfl | hk
          · exact parseKey_objlen he
          · exact ih k hk

theorem parseContainer_objlen {src : ByteSource} {fsz : Int} {cm : ContainerMeta}
    (h : parseContainer src fsz = .ok cm) : ∀ k ∈ cm.keys, k.objlen < 2 ^ 31 := by
  unfold parseContainer at h
  simp only [bind, Except.bind] at h
  split at h
  · cases h
  split at h
  · cases h
  split at h
  · cases h
  split at h
  · cases h
  split at h
  · cases h
  rename_i keys hkeys
  cases h
  unfold readKeysList at hkeys
  simp only at hkeys
  split at hkeys
  · cases hkeys
  split at hkeys
  · cases hkeys
  split at hkeys
  · cases hkeys
  cases hkeys
  exact readKeys_objlen

theorem liveTreeKey_objlen {tree : Bytes} {keys : List KeyInfo} (h : ∀ k ∈ keys, k.objlen < 2 ^ 31) :
    (liveTreeKey tree keys).objlen < 2 ^ 31 := by
  unfold liveTreeKey
  have hfold : ∀ best : KeyInfo, best.objlen < 2 ^ 31 → (keys.foldl (fun best e =>
      if e.cls = ascii "TTree" ∧ e.name = tree ∧ best.cycle ≤ e.cycle then e else best)
        best).objlen < 2 ^ 31 := by
    induction keys with
    | nil => exact fun best hbest => hbest
    | cons k rest ih =>
        intro best hbest
        apply ih fun x hx => h x (List.mem_cons_of_mem _ hx)
        beta_reduce
        split
        · exact h k List.mem_cons_self
        · exact hbest
  exact hfold {} (by decide)

/-- A file that parses has its arrays and the places noted for patches inside its tree's record. -/
theorem parseTreeFrom_inside {D : Decoders} {src : ByteSource} {fsz : Int} {tree : Bytes}
    {fm : FileMeta} (h : parseTreeFrom D src fsz tree = some (.ok fm)) :
    TreeInside fm.treeBlob.length fm := by
  unfold parseTreeFrom at h
  split at h
  · cases h
  rename_i cm hcm
  extract_lets k blob at h
  split at h
  · cases h
  split at h
  · cases h
  split at h
  · cases h
  split at h
  · cases h
  rename_i hlen
  have hsize : blob.length ≤ kMaxBuffer := by
    have hobj : k.objlen < 2 ^ 31 := liveTreeKey_objlen (parseContainer_objlen hcm)
    unfold kMaxBuffer
    omega
  obtain ⟨hinside, hsame⟩ := parseTreeBlob_ok hsize k.keylen h
  rw [hsame]
  exact hinside

end UCache
