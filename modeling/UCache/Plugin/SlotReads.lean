/-
Module: UCache.Plugin.SlotReads
Purpose: What a request on a file in a slot layout keeps, turn by turn: its pieces tile its chunks,
  and a piece that nothing is waited for any more has the virtual file's bytes.
Trusted boundary: none
Main exports: Right, Filled, SlotDone
-/
import UCache.Lib.Tiles
import UCache.Plugin.ColdSlots

namespace UCache

open Lib

/-! ### Bytes in place -/

section

variable (cx : ColdCx) (origin : Bytes) (recs : Nat → Bytes)

/-- Byte `k` of the buffer of chunk `c` is the virtual file's. -/
def Right (chunks : List Chunk) (bufs : List Bytes) (c k : Nat) : Prop :=
  ∃ ch buf, chunks[c]? = some ch ∧ bufs[c]? = some buf ∧
    buf[k]? = some (imageByte cx origin recs (ch.off + k))

/-- Every byte of the piece is right in its buffer. -/
def Filled (chunks : List Chunk) (bufs : List Bytes) (p : Piece) : Prop :=
  ∀ k, p.pos ≤ k → k < p.pos + p.len → Right cx origin recs chunks bufs p.chunk k

/-- Where the virtual file has the bytes `[pos, pos + n)` from. -/
def KindOk (pos n : Nat) : PieceKind → Prop
  | .now => True
  | .orig off => off = pos ∧ pos + n ≤ cx.L.originSize ∧
      ∀ v, pos ≤ v → v < pos + n → imageByte cx origin recs v = origin.getD v 0
  | .slot i start => i < cx.L.slots.length ∧ start + n ≤ (cx.slot i).vLen ∧
      ∀ t, t < n →
        imageByte cx origin recs (pos + t) = (slotContent cx i (recs i)).getD (start + t) 0

/-- A piece of a slot that has its bytes, from a record that a conversion made. -/
def SlotDone (chunks : List Chunk) (bufs : List Bytes) (p : Piece) : Prop :=
  Filled cx origin recs chunks bufs p ∧ ∃ kind, Made cx origin recs (ColdRequest.slotOf p).1 kind

/-- A piece lies in its chunk. -/
def PieceOk (chunks : List Chunk) (p : Piece) : Prop :=
  ∃ ch, chunks[p.chunk]? = some ch ∧ 0 < p.len ∧ p.pos + p.len ≤ ch.len ∧
    KindOk cx origin recs (ch.off + p.pos) p.len p.kind

end

variable {cx : ColdCx} {origin : Bytes} {recs : Nat → Bytes} {chunks : List Chunk}
  {bufs : List Bytes} {c k : Nat} {b : Bytes}

theorem buf_of_chunk (hlens : bufs.map List.length = chunks.map Chunk.len) {ch : Chunk}
    (hch : chunks[c]? = some ch) : ∃ buf, bufs[c]? = some buf ∧ buf.length = ch.len := by
  have hc := congrArg (fun l => l[c]?) hlens
  simp only [List.getElem?_map, hch, Option.map_some, Option.map_eq_some_iff] at hc
  exact hc

theorem chunk_of_buf (hlens : bufs.map List.length = chunks.map Chunk.len) {buf : Bytes}
    (hbuf : bufs[c]? = some buf) : ∃ ch, chunks[c]? = some ch ∧ ch.len = buf.length := by
  have hc := congrArg (fun l => l[c]?) hlens.symm
  simp only [List.getElem?_map, hbuf, Option.map_some, Option.map_eq_some_iff] at hc
  exact hc

/-- Writing inside a chunk keeps the buffers' lengths. -/
theorem lens_write (hlens : bufs.map List.length = chunks.map Chunk.len)
    (hroom : ∀ ch, chunks[c]? = some ch → k + b.length ≤ ch.len) :
    (bufs.modify c fun buf => patch buf k b).map List.length = chunks.map Chunk.len := by
  rw [← hlens]
  apply List.ext_getElem?
  intro j
  rw [List.getElem?_map, List.getElem?_map, List.getElem?_modify]
  cases hj : bufs[j]? with
  | none => rfl
  | some buf =>
      by_cases hcj : c = j
      · subst hcj
        obtain ⟨ch, hch, hlen⟩ := chunk_of_buf hlens hj
        have := hroom ch hch
        simp [length_patch (show k + b.length ≤ buf.length by omega)]
      · simp [hcj]

/-- What the buffer of a chunk holds after a write into chunk `c`. -/
theorem getElem?_write (hlens : bufs.map List.length = chunks.map Chunk.len)
    (hroom : ∀ ch, chunks[c]? = some ch → k + b.length ≤ ch.len) {c' : Nat} {buf : Bytes}
    (hbuf : bufs[c']? = some buf) :
    ∃ buf', (bufs.modify c fun buf => patch buf k b)[c']? = some buf' ∧
      ∀ k', buf'[k']? =
        if c' = c ∧ k ≤ k' ∧ k' < k + b.length then b[k' - k]? else buf[k']? := by
  rw [List.getElem?_modify, hbuf]
  by_cases hc : c = c'
  · subst hc
    obtain ⟨ch, hch, hlen⟩ := chunk_of_buf hlens hbuf
    have hin := hroom ch hch
    refine ⟨patch buf k b, by simp, fun k' => ?_⟩
    rw [getElem?_patch (by omega)]
    simp
  · refine ⟨buf, by simp [hc], fun k' => ?_⟩
    rw [if_neg fun h => hc h.1.symm]

/-- The virtual file's bytes, written anywhere, leave what is right so. -/
theorem Right.write (hlens : bufs.map List.length = chunks.map Chunk.len)
    (hroom : ∀ ch, chunks[c]? = some ch → k + b.length ≤ ch.len)
    (hb : ∀ ch, chunks[c]? = some ch → b = image cx origin recs (ch.off + k) b.length)
    {c' k' : Nat} (h : Right cx origin recs chunks bufs c' k') :
    Right cx origin recs chunks (bufs.modify c fun buf => patch buf k b) c' k' := by
  obtain ⟨ch, buf, hch, hbuf, hbyte⟩ := h
  obtain ⟨buf', hbuf', hbytes⟩ := getElem?_write hlens hroom hbuf
  refine ⟨ch, buf', hch, hbuf', ?_⟩
  rw [hbytes]
  split
  · rename_i hin
    obtain ⟨rfl, hlo, hhi⟩ := hin
    rw [hb ch hch, getElem?_image, if_pos (by omega)]
    congr 2
    omega
  · exact hbyte

/-- They are right where they were written. -/
theorem right_written (hlens : bufs.map List.length = chunks.map Chunk.len) {ch : Chunk}
    (hch : chunks[c]? = some ch) (hroom : k + b.length ≤ ch.len)
    (hb : b = image cx origin recs (ch.off + k) b.length) {k' : Nat} (hlo : k ≤ k')
    (hhi : k' < k + b.length) :
    Right cx origin recs chunks (bufs.modify c fun buf => patch buf k b) c k' := by
  obtain ⟨buf, hbuf, -⟩ := buf_of_chunk hlens hch
  have hroom' : ∀ ch', chunks[c]? = some ch' → k + b.length ≤ ch'.len := by
    intro ch' hch'
    rw [hch] at hch'
    cases hch'
    exact hroom
  obtain ⟨buf', hbuf', hbytes⟩ := getElem?_write hlens hroom' hbuf
  refine ⟨ch, buf', hch, hbuf', ?_⟩
  rw [hbytes, if_pos ⟨rfl, hlo, hhi⟩, hb, getElem?_image, if_pos (by omega)]
  congr 2
  omega

/-- Whatever is written leaves what is in front of it. -/
theorem Right.before (hlens : bufs.map List.length = chunks.map Chunk.len)
    (hroom : ∀ ch, chunks[c]? = some ch → k + b.length ≤ ch.len) {c' k' : Nat}
    (hout : c' = c → k' < k) (h : Right cx origin recs chunks bufs c' k') :
    Right cx origin recs chunks (bufs.modify c fun buf => patch buf k b) c' k' := by
  obtain ⟨ch, buf, hch, hbuf, hbyte⟩ := h
  obtain ⟨buf', hbuf', hbytes⟩ := getElem?_write hlens hroom hbuf
  refine ⟨ch, buf', hch, hbuf', ?_⟩
  rw [hbytes, if_neg]
  · exact hbyte
  · rintro ⟨hc, hlo, -⟩
    have := hout hc
    omega

/-- Bytes of the origin where the virtual file has them. -/
theorem slice_eq_image {pos n : Nat} (hsize : cx.L.originSize ≤ origin.length)
    (h : KindOk cx origin recs pos n (.orig pos)) :
    slice origin pos n = image cx origin recs pos n ∧ (slice origin pos n).length = n := by
  obtain ⟨-, hin, hbytes⟩ := h
  have hlen : (slice origin pos n).length = n := by
    rw [length_slice]
    omega
  refine ⟨?_, hlen⟩
  have himage := @eq_image cx origin recs pos (slice origin pos n) fun t ht => by
    rw [getElem?_slice, if_pos (by omega), getElem?_eq_getD (by omega),
      hbytes _ (by omega) (by omega)]
  rwa [hlen] at himage

/-- Bytes of a slot's record where the virtual file has them. -/
theorem slotSlice_eq_image {pos n i start : Nat} (h : KindOk cx origin recs pos n (.slot i start))
    (hlen : (slice (slotContent cx i (recs i)) start n).length = n) :
    slice (slotContent cx i (recs i)) start n = image cx origin recs pos n := by
  obtain ⟨-, -, hbytes⟩ := h
  have himage := @eq_image cx origin recs pos (slice (slotContent cx i (recs i)) start n)
    fun t ht => by
      have hin : start + t < (slotContent cx i (recs i)).length := by
        rw [length_slice] at hlen ht
        omega
      rw [getElem?_slice, if_pos (by omega), getElem?_eq_getD hin, hbytes t (by omega)]
  rwa [hlen] at himage

/-- A stretch inside a span of the origin, or up to the origin's end. -/
theorem slice_of_span {rs re off len : Nat} (hlo : rs ≤ off)
    (hhi : off + len ≤ re ∨ origin.length ≤ re) :
    slice (slice origin rs (re - rs)) (off - rs) len = slice origin off len := by
  apply List.ext_getElem?
  intro t
  rw [getElem?_slice, getElem?_slice, getElem?_slice]
  split
  · have hpos : rs + (off - rs + t) = off + t := by omega
    rw [hpos]
    split
    · rfl
    · rw [List.getElem?_eq_none]
      omega
  · rfl

/-! ### Pieces, items and phases -/

def Piece.tile (p : Piece) : Tile PieceKind := ⟨p.pos, p.pos + p.len, some p.kind⟩

/-- The pieces of a chunk, in the order they were cut. -/
def chunkTiles (c : Nat) (ps : List Piece) : List (Tile PieceKind) :=
  (ps.filter fun p => decide (p.chunk = c)).map Piece.tile

namespace Phase

/-- How far chunk `c`, of `len` bytes, is cut. -/
def reach (c len : Nat) : Phase → Nat
  | .classify c₀ k | .gone c₀ k _ | .hold c₀ k _ =>
      if c < c₀ then len else if c = c₀ then k else 0
  | _ => len

/-- The items still to be handed to the wire, once they are known. -/
def unsent : Phase → Option (List PartItem)
  | .issue parts => some parts.flatten
  | .waiting | .copy _ | .read _ _ _ | .done true => some []
  | _ => none

/-- The slot pieces still to be copied, once everything is there. -/
def uncopied : Phase → Option (List Piece)
  | .copy todo => some todo
  | .read p _ todo => some (p :: todo)
  | .done true => some []
  | _ => none

/-- The items a phase carries. -/
def items : Phase → List PartItem
  | .fetch _ items => items
  | .issue parts => parts.flatten
  | _ => []

/-- The code's own share of the counter of what is out. -/
def share : Phase → Nat
  | .waiting | .giveBack _ | .copy _ | .read _ _ _ | .done _ => 0
  | _ => 1

/-- Past the wait: nothing is out any more. -/
def ended : Phase → Bool
  | .giveBack _ | .copy _ | .read _ _ _ | .done _ => true
  | _ => false

end Phase

/-- An item of a part is for a slot's original or for a piece of the origin, inside its span. -/
structure ItemOk (cx : ColdCx) (origs : List Piece) (it : PartItem) : Prop where
  start : it.rs ≤ it.off
  stop : it.off + it.len ≤ it.re ∨ cx.L.originSize ≤ it.re
  what : if it.slot then
      it.off = (cx.slot it.index).origSeek ∧ it.len = (cx.slot it.index).origLen
    else ∃ p, origs[it.index]? = some p ∧ p.kind = .orig it.off ∧ p.len = it.len

theorem ItemOk.append {origs : List Piece} {it : PartItem} (h : ItemOk cx origs it)
    (more : List Piece) : ItemOk cx (origs ++ more) it := by
  refine ⟨h.start, h.stop, ?_⟩
  have hwhat := h.what
  split at hwhat
  · rename_i hslot
    rw [if_pos hslot]
    exact hwhat
  · rename_i hslot
    obtain ⟨p, hp, hkind⟩ := hwhat
    rw [if_neg hslot]
    exact ⟨p, by rw [List.getElem?_append_left (List.getElem?_eq_some_iff.1 hp).1, hp], hkind⟩

section

variable (cx origin recs)

/-- What holds of a request between turns.  `due` is what is left of a part that is being
delivered. -/
structure ReqOk (r : ColdRequest) (due : List PartItem) : Prop where
  fits : ∀ ch ∈ r.chunks, ch.off + ch.len ≤ cx.L.virtualSize
  lens : r.bufs.map List.length = r.chunks.map Chunk.len
  pieces : ∀ p ∈ r.pieces, PieceOk cx origin recs r.chunks p
  tiled : ∀ c ch, r.chunks[c]? = some ch →
    Tiled 0 (chunkTiles c r.pieces) (r.phase.reach c ch.len)
  nows : ∀ p ∈ r.pieces, p.kind = .now → Filled cx origin recs r.chunks r.bufs p
  -- a piece of the origin: filled, or some item is still to bring it
  origs : ∀ j p, r.origPieces[j]? = some p → r.failed = true ∨
    Filled cx origin recs r.chunks r.bufs p ∨ ∀ l, r.phase.unsent = some l →
      ∃ it ∈ l ++ (r.parts.flatMap Part.items ++ due), it.slot = false ∧ it.index = j
  -- a piece of a slot: filled, or still to be copied
  slots : ∀ p ∈ r.slotPieces, SlotDone cx origin recs r.chunks r.bufs p ∨
    ∀ l, r.phase.uncopied = some l → p ∈ l
  copying : ∀ l, r.phase.uncopied = some l → (∀ p ∈ l, p ∈ r.slotPieces) ∧ r.failed = false ∧
    r.parts = [] ∧ r.conversions = []
  held : ∀ i w, r.held i = some w → WhereOk cx origin recs i w
  reading : ∀ p w todo, r.phase = .read p w todo →
    WhereOk cx origin recs (ColdRequest.slotOf p).1 w
  items : ∀ it ∈ r.phase.items ++ (r.parts.flatMap Part.items ++ due),
    ItemOk cx r.origPieces it
  conversions : ∀ cv ∈ r.conversions,
    slice cv.rounded cv.recOff cv.recLen = origBytes cx origin cv.slot

end

/-- A phase in which nothing is copied asks nothing of what is out. -/
theorem copying_none {ph : Phase} {asks : Prop} (hcopy : ph.uncopied = none) {l : List Piece}
    (hl : ph.uncopied = some l) : asks := by
  rw [hcopy] at hl
  cases hl

/-- The parts of a request that its pieces and buffers depend on. -/
structure SameBody (r r' : ColdRequest) : Prop where
  chunks : r'.chunks = r.chunks
  bufs : r'.bufs = r.bufs
  pieces : r'.pieces = r.pieces
  held : r'.held = r.held
  failed : r'.failed = r.failed
  parts : r'.parts = r.parts
  conversions : r'.conversions = r.conversions

namespace ReqOk

variable {r r' : ColdRequest} {due : List PartItem}

/-- A move to another phase that knows as much. -/
theorem moves (h : ReqOk cx origin recs r due) {ph : Phase} (hphase : r.phase = ph)
    (hsame : SameBody r r')
    (hreach : ∀ c ch, r.chunks[c]? = some ch → r'.phase.reach c ch.len = ph.reach c ch.len)
    (hunsent : ∀ l, r'.phase.unsent = some l → ph.unsent = some l)
    (huncopied : ∀ l, r'.phase.uncopied = some l → ph.uncopied = some l)
    (hitems : ∀ it ∈ r'.phase.items, it ∈ ph.items)
    (hreading : ∀ p w todo, r'.phase = .read p w todo →
      WhereOk cx origin recs (ColdRequest.slotOf p).1 w) : ReqOk cx origin recs r' due := by
  subst hphase
  obtain ⟨hchunks, hbufs, hpieces, hheld, hfailed, hparts, hconvs⟩ := hsame
  have horigs : r'.origPieces = r.origPieces := by
    rw [ColdRequest.origPieces, ColdRequest.origPieces, hpieces]
  have hslots : r'.slotPieces = r.slotPieces := by
    rw [ColdRequest.slotPieces, ColdRequest.slotPieces, hpieces]
  constructor
  · rw [hchunks]
    exact h.fits
  · rw [hchunks, hbufs]
    exact h.lens
  · rw [hchunks, hpieces]
    exact h.pieces
  · intro c ch hch
    rw [hchunks] at hch
    rw [hpieces, hreach c ch hch]
    exact h.tiled c ch hch
  · rw [hchunks, hbufs, hpieces]
    exact h.nows
  · rw [hchunks, hbufs, horigs, hfailed, hparts]
    exact fun j p hj => (h.origs j p hj).imp_right (Or.imp_right fun hdue l hl =>
      hdue l (hunsent l hl))
  · rw [hchunks, hbufs, hslots]
    exact fun p hp => (h.slots p hp).imp_right fun hdue l hl => hdue l (huncopied l hl)
  · rw [hslots, hfailed, hparts, hconvs]
    exact fun l hl => h.copying l (huncopied l hl)
  · rw [hheld]
    exact h.held
  · exact hreading
  · rw [horigs, hparts]
    intro it hit
    rcases List.mem_append.1 hit with hit | hit
    · exact h.items it (List.mem_append_left _ (hitems it hit))
    · exact h.items it (List.mem_append_right _ hit)
  · rw [hconvs]
    exact h.conversions

theorem holds (h : ReqOk cx origin recs r due) {held : Nat → Option Where}
    (hheld : ∀ i w, held i = some w → WhereOk cx origin recs i w) :
    ReqOk cx origin recs { r with held := held } due :=
  { h with held := hheld }

/-- One more record that is right. -/
theorem holdsOne (h : ReqOk cx origin recs r due) {i : Nat} {w : Where}
    (hw : WhereOk cx origin recs i w) :
    ReqOk cx origin recs { r with held := Function.update r.held i (some w) } due := by
  refine h.holds fun j w' hj => ?_
  by_cases hji : j = i
  · subst hji
    rw [Function.update_self] at hj
    cases hj
    exact hw
  · rw [Function.update_of_ne hji] at hj
    exact h.held j w' hj

theorem holdReady (h : ReqOk cx origin recs r due) {cf : ColdFill}
    (hf : FillOk cx origin recs cf) (i : Nat) :
    ReqOk cx origin recs (r.holdReady cf i) due := by
  unfold ColdRequest.holdReady
  split
  · rename_i w _ hlook
    exact h.holdsOne (hf.look hlook)
  · exact h

/-- The same chunks again: nothing is known of the buffers but their lengths. -/
theorem again (h : ReqOk cx origin recs r due) (attempt : Nat) :
    ReqOk cx origin recs (r.again attempt) [] := by
  constructor
  · exact h.fits
  · exact h.lens
  · exact fun p hp => absurd hp List.not_mem_nil
  · intro c ch _
    show 0 = if c < 0 then ch.len else if c = 0 then 0 else 0
    simp
  · exact fun p hp => absurd hp List.not_mem_nil
  · intro j p hj
    exact absurd hj (by simp [ColdRequest.origPieces, ColdRequest.again])
  · exact fun p hp => absurd hp (by simp [ColdRequest.slotPieces, ColdRequest.again])
  · intro l hl
    cases hl
  · intro i w hi
    cases hi
  · intro p w todo hphase
    cases hphase
  · exact fun it hit => absurd hit List.not_mem_nil
  · exact fun cv hcv => absurd hcv List.not_mem_nil

/-- A slot fell through: the same chunks again, or a request that failed. -/
theorem lose (h : ReqOk cx origin recs r []) (hcut : ∀ c len, r.phase.reach c len = len) :
    ReqOk cx origin recs r.lose [] := by
  unfold ColdRequest.lose
  split
  · exact h.again _
  · exact h.moves rfl ⟨rfl, rfl, rfl, rfl, rfl, rfl, rfl⟩ (fun c ch _ => (hcut c ch.len).symm)
      nofun nofun nofun nofun

/-! ### Cutting -/

/-- What ends a tiling is not passed by its parts. -/
theorem pieces_le {len : Nat} {ps : List Piece} (h : Tiled 0 (chunkTiles c ps) len) {p : Piece}
    (hp : p ∈ ps) (hc : p.chunk = c) : p.pos + p.len ≤ len :=
  h.hi_le (t := p.tile) (List.mem_map_of_mem (List.mem_filter.2 ⟨hp, by simpa using hc⟩))

/-- No chunk is cut past its end. -/
theorem reach_le (h : ReqOk cx origin recs r due) {ch : Chunk} (hch : r.chunks[c]? = some ch) :
    r.phase.reach c ch.len ≤ ch.len := by
  refine (h.tiled c ch hch).end_le (Nat.zero_le _) fun t ht => ?_
  obtain ⟨p, hp, rfl⟩ := List.mem_map.1 ht
  obtain ⟨hmem, hc⟩ := List.mem_filter.1 hp
  obtain ⟨ch', hch', -, hle, -⟩ := h.pieces p hmem
  rw [of_decide_eq_true hc, hch] at hch'
  cases hch'
  exact hle

theorem chunkTiles_append (c : Nat) (ps : List Piece) (p : Piece) :
    chunkTiles c (ps ++ [p]) = chunkTiles c ps ++ if p.chunk = c then [p.tile] else [] := by
  unfold chunkTiles
  rw [List.filter_append, List.map_append]
  congr 1
  by_cases hc : p.chunk = c <;> simp [hc]

/-- A turn of the cut: one more piece, behind those of its chunk. -/
theorem cut (h : ReqOk cx origin recs r []) (hphase : r.phase = .classify c k) {p : Piece}
    (hp : PieceOk cx origin recs r.chunks p) (hchunk : p.chunk = c) (hpos : p.pos = k)
    (hchunks : r'.chunks = r.chunks) (hpieces : r'.pieces = r.pieces ++ [p])
    (hheld : r'.held = r.held) (hparts : r'.parts = r.parts)
    (hconvs : r'.conversions = r.conversions)
    (hlens : r'.bufs.map List.length = r.chunks.map Chunk.len)
    (hkeeps : ∀ c' k', (c' = c → k' < k) → Right cx origin recs r.chunks r.bufs c' k' →
      Right cx origin recs r.chunks r'.bufs c' k')
    (hnow : p.kind = .now → Filled cx origin recs r.chunks r'.bufs p)
    (hreach : ∀ c' len, r'.phase.reach c' len =
      if c' < c then len else if c' = c then k + p.len else 0) (hunsent : r'.phase.unsent = none)
    (huncopied : r'.phase.uncopied = none) (hitems : r'.phase.items = [])
    (hreading : ∀ q w todo, r'.phase ≠ .read q w todo) : ReqOk cx origin recs r' [] := by
  obtain ⟨ch, hch, hpos', hin, hkind⟩ := hp
  rw [hchunk] at hch
  have htiled := h.tiled
  have hitems' := h.items
  simp only [hphase, Phase.reach, Phase.items, List.nil_append] at htiled hitems'
  constructor
  · rw [hchunks]
    exact h.fits
  · rw [hchunks]
    exact hlens
  · rw [hchunks, hpieces]
    intro q hq
    rcases List.mem_append.1 hq with hq | hq
    · exact h.pieces q hq
    · rw [List.mem_singleton.1 hq]
      exact ⟨ch, by rw [hchunk, hch], hpos', hin, hkind⟩
  · rw [hchunks]
    intro c' ch' hch'
    have hold := htiled c' ch' hch'
    rw [hpieces, hreach, chunkTiles_append]
    by_cases hc : c' = c
    · subst hc
      rw [if_neg (Nat.lt_irrefl _), if_pos rfl] at hold ⊢
      rw [if_pos hchunk]
      refine hold.append ⟨hpos, ?_, ?_⟩
      · show p.pos < p.pos + p.len
        omega
      · show p.pos + p.len = k + p.len
        rw [hpos]
    · rw [if_neg (fun hcc => hc (hcc.symm.trans hchunk)), List.append_nil]
      simpa only [if_neg hc] using hold
  · rw [hchunks, hpieces]
    intro q hq hqnow
    rcases List.mem_append.1 hq with hq | hq
    · have hfilled := h.nows q hq hqnow
      refine fun k' hlo hhi => hkeeps _ _ (fun hqc => ?_) (hfilled k' hlo hhi)
      have hle := pieces_le (htiled c ch hch) hq hqc
      rw [if_neg (Nat.lt_irrefl _), if_pos rfl] at hle
      omega
    · rw [List.mem_singleton.1 hq] at hqnow ⊢
      exact hnow hqnow
  · intro j q _
    refine .inr (.inr fun l hl => ?_)
    rw [hunsent] at hl
    cases hl
  · intro q _
    refine .inr fun l hl => ?_
    rw [huncopied] at hl
    cases hl
  · intro l hl
    rw [huncopied] at hl
    cases hl
  · rw [hheld]
    exact h.held
  · exact fun q w todo hread => absurd hread (hreading q w todo)
  · have horigs : r'.origPieces = r.origPieces ++ [p].filter ColdRequest.isOrig := by
      rw [ColdRequest.origPieces, ColdRequest.origPieces, hpieces, List.filter_append]
    rw [horigs, hitems, hparts, List.nil_append]
    exact fun it hit => (hitems' it hit).append _
  · rw [hconvs]
    exact h.conversions

end ReqOk

end UCache
