/-
Module: UCache.Transpose.EnvelopeTrip
Purpose: Envelopes that were patched, sealed again and stored read back: the page list with its moved
  ranges, and the footer with its new link.
Trusted boundary: none
Main exports: verify_sealed, readEnvelope_stored, LaidFrom.apart
-/
import UCache.Transpose.PageListTrip

namespace UCache

open Lib

/-! ### Sealing and storing -/

variable {hash : Bytes → UInt64} {p : Bytes}

theorem sealEnvelope_length (p : Bytes) : (sealEnvelope hash p).length = p.length := by
  unfold sealEnvelope
  split
  · rfl
  · exact length_patch (by rw [length_le]; omega)

/-- Everything in front of the checksum stays. -/
theorem getElem?_sealEnvelope {i : Nat} (hi : i + 8 < p.length) :
    (sealEnvelope hash p)[i]? = p[i]? := by
  unfold sealEnvelope
  split
  · rfl
  · rw [putLE, getElem?_patch (by rw [length_le]; omega), if_neg]
    omega

theorem slice_sealEnvelope {pos n : Nat} (h : pos + n + 8 ≤ p.length) :
    slice (sealEnvelope hash p) pos n = slice p pos n := by
  apply List.ext_getElem?
  intro i
  rw [getElem?_slice, getElem?_slice]
  by_cases hi : i < n
  · rw [if_pos hi, if_pos hi, getElem?_sealEnvelope (by omega)]
  · rw [if_neg hi, if_neg hi]

/-- A patched envelope that is sealed again passes its check. -/
theorem verify_sealed {p' : Bytes} {expectType : Nat} (h : EnvelopeOk hash p expectType)
    (hlen : p'.length = p.length) (hword : slice p' 0 8 = slice p 0 8) :
    EnvelopeOk hash (sealEnvelope hash p') expectType := by
  have hroom := h.length
  have hfirst : slice (sealEnvelope hash p') 0 8 = slice p 0 8 := by
    rw [slice_sealEnvelope (by omega), hword]
  refine ⟨?_, ?_, ?_, ?_⟩
  · rw [sealEnvelope_length, hlen]
    exact hroom
  · rw [hfirst]
    exact h.type
  · rw [hfirst, sealEnvelope_length, hlen]
    exact h.size
  · have hbody : (sealEnvelope hash p').take (p'.length - 8) = p'.take (p'.length - 8) := by
      apply List.ext_getElem?
      intro i
      rw [List.getElem?_take, List.getElem?_take]
      split
      · exact getElem?_sealEnvelope (by omega)
      · rfl
    have htail : slice (sealEnvelope hash p') (p'.length - 8) 8 =
        le 8 (hash (p'.take (p'.length - 8))).toNat := by
      rw [sealEnvelope, if_neg (by omega), putLE]
      have hsame := @slice_patch_same _ p' (p'.length - 8)
        (le 8 (hash (p'.take (p'.length - 8))).toNat) (by rw [length_le]; omega)
      rwa [length_le] at hsame
    rw [sealEnvelope_length, hbody, htail, ofLe_le, Nat.mod_eq_of_lt]
    exact (hash _).toNat_lt

/-- A stored envelope reads back at its own length. -/
theorem readEnvelope_stored {D : Decoders} {E : Encoder} {env : Bytes} {src : ByteSource}
    {off fileSize level : Nat} (hne : env ≠ []) (hundo : Undoes D E level env)
    (hread : preadRange src off (storeEnvelope E env level).length fileSize =
      storeEnvelope E env level) :
    readEnvelope D src off (storeEnvelope E env level).length env.length fileSize = env := by
  unfold readEnvelope
  rw [hread]
  rcases shrink_cases E env level with hraw | ⟨henc, hsome, hlt⟩
  · have hstored : storeEnvelope E env level = env := hraw
    rw [hstored]
    simp [hne]
  · have hstored : storeEnvelope E env level = encodeZstdFrames E env level := henc
    rw [hstored]
    simp only [hsome, if_false, if_neg (Nat.ne_of_lt hlt)]
    exact hundo hsome

/-! ### The page list with its slots -/

section Written

variable {slots : List FillSlot} {a b : Nat} {rs : List ColumnRange}

/-- What is written for a page is inside its record. -/
theorem pageWrites_within {pg : PageInfo} {w : Nat × Bytes} (hw : w ∈ pageWrites slots pg) :
    pg.recordOffset ≤ w.1 ∧ w.1 + w.2.length ≤ pg.recordOffset + 16 := by
  simp only [pageWrites, List.mem_cons, List.not_mem_nil, or_false] at hw
  rcases hw with rfl | rfl | rfl <;> simp only [length_le] <;> omega

/-- What is written for a range is inside its records and its setting. -/
theorem rangeWrites_within {r : ColumnRange} (h : RangeLaid a b r) {w : Nat × Bytes}
    (hw : w ∈ rangeWrites slots r) :
    a ≤ w.1 ∧ w.1 + w.2.length ≤ b ∧ ∀ i, w.1 ≤ i → i < w.1 + w.2.length → r.Owns i := by
  have h1 := h.start
  have h2 := h.stop
  rcases List.mem_append.1 hw with hw | hw
  · obtain ⟨pg, hpg, hw⟩ := List.mem_flatMap.1 hw
    have hin := pageWrites_within hw
    have hpages := h.pages pg hpg
    exact ⟨by omega, by omega, fun i hi₁ hi₂ => Or.inl ⟨pg, hpg, by omega, by omega⟩⟩
  · obtain rfl := List.mem_singleton.1 hw
    simp only [length_le]
    exact ⟨h1, h2, fun i hi₁ hi₂ => Or.inr ⟨hi₁, hi₂⟩⟩

theorem rangeWrites_apart {r : ColumnRange} (h : RangeLaid a b r) :
    StretchesApart (rangeWrites slots r) := by
  refine List.pairwise_append.2 ⟨?_, List.pairwise_singleton _ _, ?_⟩
  · refine List.pairwise_flatMap.2 ⟨fun pg _ => ?_, h.sorted.imp fun {x y} hxy v hv w hw => ?_⟩
    · simp only [pageWrites, List.pairwise_cons, List.mem_cons, List.not_mem_nil, or_false,
        forall_eq_or_imp, forall_eq, length_le, false_implies, implies_true, List.Pairwise.nil,
        and_true]
      omega
    · have := pageWrites_within hv
      have := pageWrites_within hw
      omega
  · intro v hv w hw
    obtain ⟨pg, hpg, hv⟩ := List.mem_flatMap.1 hv
    obtain rfl := List.mem_singleton.1 hw
    have := pageWrites_within hv
    have := (h.pages pg hpg).2
    exact Or.inl (by show v.1 + v.2.length ≤ r.compressionOffset; omega)

theorem LaidFrom.filter (h : LaidFrom a rs b) (q : ColumnRange → Bool) :
    LaidFrom a (rs.filter q) b := by
  induction rs generalizing a with
  | nil => exact h
  | cons r rest ih =>
      obtain ⟨mid, hr, hrest⟩ := h
      have h1 := hr.start
      have h2 := hr.stop
      rw [List.filter_cons]
      split
      · exact ⟨mid, hr, ih hrest⟩
      · exact (ih hrest).mono (by omega)

/-- The ranges' writes are inside what the ranges lie in. -/
theorem LaidFrom.writes (h : LaidFrom a rs b) {w : Nat × Bytes}
    (hw : w ∈ rs.flatMap (rangeWrites slots)) :
    a ≤ w.1 ∧ w.1 + w.2.length ≤ b ∧ ∀ i, w.1 ≤ i → i < w.1 + w.2.length → ∃ r ∈ rs, r.Owns i := by
  induction rs generalizing a with
  | nil => cases hw
  | cons r rest ih =>
      obtain ⟨mid, hr, hrest⟩ := h
      have hend := hrest.le
      have h1 := hr.start
      have h2 := hr.stop
      rw [List.flatMap_cons] at hw
      rcases List.mem_append.1 hw with hw | hw
      · obtain ⟨hlo, hhi, hown⟩ := rangeWrites_within hr hw
        exact ⟨hlo, by omega, fun i hi₁ hi₂ => ⟨r, by simp, hown i hi₁ hi₂⟩⟩
      · obtain ⟨hlo, hhi, hown⟩ := ih hrest hw
        refine ⟨by omega, hhi, fun i hi₁ hi₂ => ?_⟩
        obtain ⟨q, hq, hqi⟩ := hown i hi₁ hi₂
        exact ⟨q, by simp [hq], hqi⟩

/-- No two writes of ranges that lie one after the other share a byte. -/
theorem LaidFrom.apart (h : LaidFrom a rs b) : StretchesApart (rs.flatMap (rangeWrites slots)) := by
  induction rs generalizing a with
  | nil => exact .nil
  | cons r rest ih =>
      obtain ⟨mid, hr, hrest⟩ := h
      rw [List.flatMap_cons]
      refine List.pairwise_append.2 ⟨rangeWrites_apart hr, ih hrest, fun v hv w hw => ?_⟩
      have h1 := (rangeWrites_within hr hv).2.1
      have h2 := (hrest.writes hw).1
      exact Or.inl (by omega)

/-- The page list that was written for its moved ranges and sealed shows them. -/
theorem pagesShown_sealed {moved : ColumnRange → Bool} (h : LaidFrom a rs b)
    (hend : b + 8 ≤ p.length) :
    PagesShown moved slots p
      (sealEnvelope hash (patches p ((rs.filter moved).flatMap (rangeWrites slots)))) rs a b := by
  have hmoved := h.filter moved
  have hin : EndIn p.length ((rs.filter moved).flatMap (rangeWrites slots)) := fun w hw => by
    have := (hmoved.writes hw).2.1
    omega
  have hlen := length_patches hin
  refine ⟨fun i hi₁ hi₂ hfree => ?_, fun r hr hm w hw => ?_⟩
  · rw [getElem?_sealEnvelope (by omega), getElem?_patches_apart hin]
    rintro ⟨w, hw, hw₁, hw₂⟩
    obtain ⟨r, hr, hown⟩ := (hmoved.writes hw).2.2 i hw₁ hw₂
    rw [List.mem_filter] at hr
    exact hfree r hr.1 hr.2 hown
  · have hmem : w ∈ (rs.filter moved).flatMap (rangeWrites slots) :=
      List.mem_flatMap.2 ⟨r, List.mem_filter.2 ⟨hr, hm⟩, hw⟩
    have := (hmoved.writes hmem).2.1
    rw [slice_sealEnvelope (by omega), slice_patches hin hmoved.apart hmem]

/-- The page list's own header is in front of every range. -/
theorem slice_written {moved : ColumnRange → Bool} {p : Bytes} {rs : List ColumnRange}
    (h : LaidFrom 16 rs b) (hend : b + 8 ≤ p.length) :
    (patches p ((rs.filter moved).flatMap (rangeWrites slots))).length = p.length ∧
      slice (patches p ((rs.filter moved).flatMap (rangeWrites slots))) 0 8 = slice p 0 8 := by
  have hmoved := h.filter moved
  have hin : EndIn p.length ((rs.filter moved).flatMap (rangeWrites slots)) := fun w hw => by
    have := (hmoved.writes hw).2.1
    omega
  refine ⟨length_patches hin, ?_⟩
  have hfront : SameOn p (patches p ((rs.filter moved).flatMap (rangeWrites slots))) 0 (0 + 8) :=
    fun i _ hi => getElem?_patches_apart hin fun ⟨w, hw, hw₁, hw₂⟩ => by
      have := (hmoved.writes hw).1
      omega
  exact hfront.slice

end Written

/-! ### The footer with its new link -/

/-- The header of a frame that was read. -/
theorem readFrame_inv {pos : Nat} {f : EnvelopeFrame} {c : LE}
    (h : readFrame ⟨p, pos⟩ = some (f, c)) :
    f.start = pos ∧ 0 < f.size ∧ c.p = p ∧ pos + 8 ≤ c.pos ∧ c.pos ≤ pos + 12 := by
  obtain ⟨start, mid₀, h0, h⟩ := bind_some_inv h
  cases h0
  obtain ⟨sz, mid₁, h1, h⟩ := bind_some_inv h
  obtain ⟨-, -, rfl⟩ := int_inv h1
  split at h
  · obtain ⟨items, mid₂, h2, h⟩ := bind_some_inv h
    obtain ⟨-, -, rfl⟩ := nat_inv h2
    unfold frameAt at h
    split at h
    · cases h
    · rename_i hok
      cases h
      exact ⟨rfl, by simp only at hok ⊢; omega, rfl, by simp only; omega, by simp only; omega⟩
  · unfold frameAt at h
    split at h
    · cases h
    · rename_i hok
      cases h
      exact ⟨rfl, by simp only at hok ⊢; omega, rfl, by simp only; omega, by simp only; omega⟩

/-- A frame that was left can be left in other bytes of that length. -/
theorem leaveFrame_inv {f : EnvelopeFrame} {u : Unit} {pos : Nat} {c : LE}
    (h : leaveFrame f ⟨p, pos⟩ = some (u, c)) :
    c = ⟨p, add64 f.start f.size⟩ ∧ ∀ p', p'.length = p.length → ∀ pos',
      leaveFrame f ⟨p', pos'⟩ = some ((), ⟨p', add64 f.start f.size⟩) := by
  unfold leaveFrame at h
  split at h
  · cases h
  · rename_i hin
    cases h
    exact ⟨rfl, fun p' hlen _ => if_neg (by simpa [hlen] using hin)⟩

theorem groupLinks_length {n : Nat} {c c' : LE} {links : List GroupLink}
    (h : groupLinks n c = some (some links, c')) : links.length = n := by
  induction n generalizing c links with
  | zero =>
      cases h
      rfl
  | succ n ih =>
      obtain ⟨r, mid₁, -, h⟩ := bind_some_inv h
      obtain ⟨u, mid₂, -, h⟩ := bind_some_inv h
      obtain ⟨len, mid₃, -, h⟩ := bind_some_inv h
      obtain ⟨at_, mid₄, -, h⟩ := bind_some_inv h
      obtain ⟨nbytes, mid₅, -, h⟩ := bind_some_inv h
      split at h
      · cases h
      · obtain ⟨off, mid₆, -, h⟩ := bind_some_inv h
        obtain ⟨u', mid₇, -, h⟩ := bind_some_inv h
        obtain ⟨rest, mid₈, h8, h⟩ := bind_some_inv h
        cases rest with
        | none => cases h
        | some ls =>
            cases h
            simp [ih h8]

/-- Where a footer says where its one page list is: `k` is the length's position, the locator is
behind it. -/
structure FooterLink (p : Bytes) (link : GroupLink) (k : Nat) : Prop where
  front : 24 ≤ k
  inside : k + 20 ≤ p.length
  locAt : link.locAt = k + 8
  again : ∀ p', p'.length = p.length → SameOn p p' 0 k →
    0 ≤ signed 4 (ofLe (slice p' (k + 8) 4)) →
    ∃ c, footerWalk ⟨p', 16⟩ = some (some [⟨ofLe (slice p' k 8),
      (signed 4 (ofLe (slice p' (k + 8) 4))).toNat, ofLe (slice p' (k + 12) 8), k + 8⟩], c)

/-- The one group of a footer. -/
theorem groupLinks_one {pos n : Nat} {link : GroupLink} {c : LE}
    (h : groupLinks n ⟨p, pos⟩ = some (some [link], c)) :
    ∃ k, n = 1 ∧ pos + 28 ≤ k ∧ k + 20 ≤ p.length ∧ link.locAt = k + 8 ∧
      ∀ p', p'.length = p.length → SameOn p p' pos k →
        0 ≤ signed 4 (ofLe (slice p' (k + 8) 4)) →
        ∃ c, groupLinks 1 ⟨p', pos⟩ = some (some [⟨ofLe (slice p' k 8),
          (signed 4 (ofLe (slice p' (k + 8) 4))).toNat, ofLe (slice p' (k + 12) 8), k + 8⟩], c) := by
  obtain rfl : 1 = n := groupLinks_length h
  obtain ⟨r, ⟨q, at_⟩, h1, hrest⟩ := bind_some_inv h
  obtain ⟨hstart, -, hq, hlo, hhi⟩ := readFrame_inv h1
  obtain rfl : q = p := hq
  obtain ⟨u, mid₂, h2, h⟩ := bind_some_inv hrest
  obtain ⟨hskip, rfl⟩ := skip_inv h2
  obtain ⟨len, mid₃, h3, h⟩ := bind_some_inv h
  obtain ⟨-, rfl, rfl⟩ := nat_inv h3
  obtain ⟨locAt, mid₄, h4, h⟩ := bind_some_inv h
  cases h4
  obtain ⟨nbytes, mid₅, h5, h⟩ := bind_some_inv h
  obtain ⟨-, rfl, rfl⟩ := int_inv h5
  split at h
  · cases h
  · obtain ⟨off, mid₆, h6, h⟩ := bind_some_inv h
    obtain ⟨hlen, rfl, rfl⟩ := nat_inv h6
    obtain ⟨u', mid₇, h7, h⟩ := bind_some_inv h
    obtain ⟨rfl, hleave⟩ := leaveFrame_inv h7
    obtain ⟨rest, mid₈, h8, h⟩ := bind_some_inv h
    cases h8
    cases h
    simp only at hlo hhi
    refine ⟨at_ + 20, rfl, by omega, by omega, rfl, fun p' hp' hsame hpos => ?_⟩
    have hframe : readFrame ⟨p', pos⟩ = some (r, ⟨p', at_⟩) :=
      (readFrame_forward q pos r _ h1).again p' hp' (hsame.mono (Nat.le_refl _) (by
        simp only
        omega))
    have hskipped : Walk.skip (8 + 8 + 4) ⟨p', at_⟩ = some ((), ⟨p', at_ + 20⟩) :=
      skip_eq (by omega)
    refine ⟨⟨p', add64 r.start r.size⟩, bind_some hframe (bind_some hskipped
      (bind_some (nat_eq (by omega)) (bind_some here_eq (bind_some (int_eq (by omega)) ?_))))⟩
    rw [if_neg (by simpa using hpos)]
    exact bind_some (nat_eq (by omega)) (bind_some (hleave p' hp' _) (bind_some rfl rfl))

theorem footerWalk_inv {link : GroupLink} {c : LE}
    (h : footerWalk ⟨p, 16⟩ = some (some [link], c)) : ∃ k, FooterLink p link k := by
  obtain ⟨u, mid₀, h0, h⟩ := bind_some_inv h
  obtain ⟨hskip, rfl⟩ := skip_inv h0
  obtain ⟨ext, ⟨q, at_⟩, h1, hrest⟩ := bind_some_inv h
  obtain ⟨hstart, hpos, hq, hlo, hhi⟩ := readFrame_inv h1
  obtain rfl : q = p := hq
  obtain ⟨u', mid₂, h2, h⟩ := bind_some_inv hrest
  obtain ⟨rfl, hleave⟩ := leaveFrame_inv h2
  obtain ⟨gl, mid₃, h3, h⟩ := bind_some_inv h
  obtain ⟨rfl, -, -⟩ := readList_inv h3
  obtain ⟨k, hone, hk, hin, hloc, hagain⟩ := groupLinks_one h
  simp only at hlo hhi
  refine ⟨k, by omega, hin, hloc, fun p' hp' hsame hsize => ?_⟩
  obtain ⟨c', hc'⟩ := hagain p' hp' (hsame.mono (by omega) (Nat.le_refl _)) hsize
  have hext := (readFrame_forward q _ ext _ h1).again p' hp' (hsame.mono (by omega) (by
    simp only
    omega))
  have hlist := (readList_forward q _ gl _ h3).again p' hp' (hsame.mono (by omega) (by
    simp only
    omega))
  refine ⟨c', bind_some (skip_eq (by omega)) (bind_some hext
    (bind_some (hleave p' hp' _) (bind_some hlist ?_)))⟩
  rw [hone]
  exact hc'

/-- What is written into a footer for a page list. -/
def linkWrites (k len stored off : Nat) : List (Nat × Bytes) :=
  [(k, le 8 len), (k + 8, le 4 stored), (k + 12, le 8 off)]

theorem patchFooterLink_eq {m : RNTupleMeta} {p' : Bytes} {k len stored off : Nat}
    (hloc : m.pageListLocatorOffset = k + 8) (h : patchFooterLink m p len stored off = some p') :
    p' = patches p (linkWrites k len stored off) ∧ k + 20 ≤ p.length := by
  unfold patchFooterLink at h
  split at h
  · cases h
  · cases h
    rw [hloc]
    exact ⟨rfl, by omega⟩

/-- A footer that was pointed at another page list and sealed: it is still one, and says so. -/
theorem footer_sealed {p : Bytes} {link : GroupLink} {k len stored off : Nat}
    (hlink : FooterLink p link k) (hsum : k + 28 ≤ p.length) (hlen : len < 2 ^ 64)
    (hstored : stored < 2 ^ 31) (hoff : off < 2 ^ 64) :
    (patches p (linkWrites k len stored off)).length = p.length ∧
      slice (patches p (linkWrites k len stored off)) 0 8 = slice p 0 8 ∧
      ∃ c, footerWalk ⟨sealEnvelope hash (patches p (linkWrites k len stored off)), 16⟩ =
        some (some [⟨len, stored, off, k + 8⟩], c) := by
  have hfront := hlink.front
  have hin : EndIn p.length (linkWrites k len stored off) := by
    intro w hw
    simp only [linkWrites, List.mem_cons, List.not_mem_nil, or_false] at hw
    rcases hw with rfl | rfl | rfl <;> simp only [length_le] <;> omega
  have hapart : StretchesApart (linkWrites k len stored off) := by
    simp only [StretchesApart, linkWrites, List.pairwise_cons, List.mem_cons, List.not_mem_nil,
      or_false, forall_eq_or_imp, forall_eq, length_le, false_implies, implies_true,
      List.Pairwise.nil, and_true]
    omega
  have hlength := length_patches hin
  have hkept : ∀ i, i < k → (patches p (linkWrites k len stored off))[i]? = p[i]? := fun i hi =>
    getElem?_patches_apart hin fun ⟨w, hw, hw₁, _⟩ => by
      simp only [linkWrites, List.mem_cons, List.not_mem_nil, or_false] at hw
      rcases hw with rfl | rfl | rfl <;> simp only at hw₁ <;> omega
  have hread : ∀ w ∈ linkWrites k len stored off,
      slice (sealEnvelope hash (patches p (linkWrites k len stored off))) w.1 w.2.length = w.2 := by
    intro w hw
    have hend : w.1 + w.2.length ≤ k + 20 := by
      simp only [linkWrites, List.mem_cons, List.not_mem_nil, or_false] at hw
      rcases hw with rfl | rfl | rfl <;> simp only [length_le] <;> omega
    rw [slice_sealEnvelope (by omega), slice_patches hin hapart hw]
  simp only [linkWrites, List.mem_cons, List.not_mem_nil, or_false, forall_eq_or_imp, forall_eq,
    length_le] at hread
  obtain ⟨hlen', hstored', hoff'⟩ := hread
  have hword : SameOn p (patches p (linkWrites k len stored off)) 0 (0 + 8) := fun i _ hi =>
    hkept i (by omega)
  refine ⟨hlength, hword.slice, ?_⟩
  have hsize : signed 4 (ofLe (le 4 stored)) = stored := by
    rw [ofLe_le, Nat.mod_eq_of_lt (by omega), signed, if_pos (by omega)]
  obtain ⟨c, hc⟩ := hlink.again (sealEnvelope hash (patches p (linkWrites k len stored off)))
    ((sealEnvelope_length _).trans hlength)
    (fun i _ hi => (getElem?_sealEnvelope (by omega)).trans (hkept i hi))
    (by rw [linkWrites, hstored', hsize]; omega)
  simp only [linkWrites] at hc ⊢
  rw [hlen', hstored', hoff', hsize, ofLe_le, ofLe_le, Nat.mod_eq_of_lt (by omega),
    Nat.mod_eq_of_lt (by omega)] at hc
  exact ⟨c, hc⟩

end UCache
