/-
Module: UCache.Plugin.SlotTurns
Purpose: Every turn of a request's code, every answer of the wire and every conversion keep what is
  known of a request on a file in a slot layout, and the counter of what it waits for.
Trusted boundary: none
Main exports: CounterOk, TurnKeeps, AnswerOk
-/
import UCache.Plugin.SlotReads
import UCache.Plugin.VectorReads

namespace UCache

open Lib

variable {cx : ColdCx} {origin : Bytes} {recs : Nat → Bytes}

/-! ### The counter of what is out -/

/-- The counter has the code's own share, the parts and the conversions that are out, and the slots
others are converting.  A waiter that is never told leaves it above that. -/
structure CounterOk (cf : ColdFill) (ws : List Wake) (id : Nat) (r : ColdRequest) : Prop where
  count : r.phase.share + r.parts.length + r.conversions.length + (cf.waiting id + told ws id) ≤
    r.outstanding
  ended : r.phase.ended = true → r.outstanding = 0

theorem CounterOk.idle {cf : ColdFill} {ws : List Wake} {id : Nat} {r : ColdRequest}
    (h : CounterOk cf ws id r) (hzero : r.outstanding = 0) :
    r.phase.share = 0 ∧ r.parts = [] ∧ r.conversions = [] ∧ cf.waiting id + told ws id = 0 := by
  have hcount := h.count
  refine ⟨by omega, List.length_eq_zero_iff.1 (by omega), List.length_eq_zero_iff.1 (by omega),
    by omega⟩

/-- With nothing out the request starts over, or fails. -/
theorem CounterOk.lose {cf : ColdFill} {ws : List Wake} {id : Nat} {r : ColdRequest}
    (h : CounterOk cf ws id r) (hzero : r.outstanding = 0) : CounterOk cf ws id r.lose := by
  obtain ⟨hshare, hparts, hconvs, hwait⟩ := h.idle hzero
  unfold ColdRequest.lose
  split
  · refine ⟨?_, ?_⟩
    · show 1 + 0 + 0 + _ ≤ 1
      omega
    · intro hended
      cases hended
  · refine ⟨?_, fun _ => hzero⟩
    show 0 + r.parts.length + r.conversions.length + _ ≤ r.outstanding
    rw [hzero, hparts, hconvs, hwait]
    rfl

/-- Sections that tell no more waiters than they take off. -/
theorem CounterOk.after {cf cf' : ColdFill} {ws woken : List Wake} {id : Nat} {r : ColdRequest}
    (h : CounterOk cf ws id r) (hs : SectionOk cx origin recs cf cf' woken) :
    CounterOk cf' (ws ++ woken) id r := by
  refine ⟨?_, h.ended⟩
  have hold := h.count
  have hcount := hs.count id
  rw [told_append]
  omega

/-! ### Turns -/

variable {r' : ColdRequest}

section

variable (cx origin recs)

/-- What a turn of the code of request `id` leaves. -/
structure TurnKeeps (cf : ColdFill) (ws : List Wake) (id : Nat) (t : Turned) : Prop where
  infos : FillOk cx origin recs t.fill
  wakes : ∀ k ∈ t.wakes, WakeOk cx origin recs k
  others : ∀ id', id' ≠ id → t.fill.waiting id' + told t.wakes id' ≤ cf.waiting id'
  req : ReqOk cx origin recs t.req []
  balanced : CounterOk t.fill (ws ++ t.wakes) id t.req

/-- The byte cache answers with the origin's bytes, and the store with the slot's record. -/
def AnswerOk (r : ColdRequest) (a : Answers) : Prop :=
  match r.phase with
  | .classify c k => ∀ ch off n, r.chunks[c]? = some ch →
      classifyAt cx.L (ch.off + k) (ch.off + ch.len) = (.orig off, n) → a.cached = true →
        a.bytes = slice origin off n
  | .fetch (i :: _) _ => a.cached = true →
      let span := roundSpan cx.pageSize cx.L.originSize (cx.slot i).origSeek (cx.slot i).origLen
      a.bytes = slice origin span.1 (span.2 - span.1)
  | .read p _ _ => (a.cached = true → a.bytes = origBytes cx origin (ColdRequest.slotOf p).1) ∧
      ∀ m, a.stored = some m → m = recs (ColdRequest.slotOf p).1
  | _ => True

end

/-- A turn whose sections keep the slots right. -/
theorem TurnKeeps.ofSection {cf cf' : ColdFill} {ws woken : List Wake} {id : Nat}
    (hs : SectionOk cx origin recs cf cf' woken) (hreq : ReqOk cx origin recs r' [])
    (hbal : CounterOk cf ws id r') : TurnKeeps cx origin recs cf ws id ⟨cf', r', woken⟩ :=
  ⟨hs.infos, hs.wakes, fun id' _ => hs.count id', hreq, hbal.after hs⟩

section Turns

variable {cf : ColdFill} {ws : List Wake} {id : Nat} {r : ColdRequest} {a : Answers} {t : Turned}

/-- A turn that only moves the request. -/
theorem TurnKeeps.quiet (hf : FillOk cx origin recs cf) (hreq : ReqOk cx origin recs r' [])
    (hbal : CounterOk cf ws id r') : TurnKeeps cx origin recs cf ws id ⟨cf, r', []⟩ :=
  .ofSection (SectionOk.refl hf) hreq hbal

/-- What a turn of the cut adds. -/
theorem classifyTurn_keeps (hsize : cx.L.originSize = origin.length) (hok : LayoutOk cx.L)
    (h : ReqOk cx origin recs r []) {c k : Nat} (hphase : r.phase = .classify c k) {ch : Chunk}
    (hch : r.chunks[c]? = some ch) (hlt : k < ch.len) (ha : AnswerOk cx origin recs r a)
    (hturn : r.classifyTurn cx cf c k ch a = some r') :
    ReqOk cx origin recs r' [] ∧ r'.phase.share = 1 ∧ r'.phase.ended = false ∧
      r'.parts = r.parts ∧ r'.conversions = r.conversions ∧ r'.outstanding = r.outstanding := by
  have hfits := h.fits ch (List.mem_of_getElem? hch)
  have hspec := @classifyAt_spec cx hok (ch.off + k) (ch.off + ch.len) (by omega) hfits
  have hanswer : ∀ off n, classifyAt cx.L (ch.off + k) (ch.off + ch.len) = (.orig off, n) →
      a.cached = true → a.bytes = slice origin off n := by
    intro off n
    rw [AnswerOk, hphase] at ha
    exact ha ch off n hch
  unfold ColdRequest.classifyTurn at hturn
  generalize hat : classifyAt cx.L (ch.off + k) (ch.off + ch.len) = at_ at *
  obtain ⟨src, n⟩ := at_
  obtain ⟨hmoves, hinside, hsource⟩ := hspec
  simp only at hmoves hinside hsource
  have hroom : ∀ (b : Bytes), b.length = n → ∀ ch', r.chunks[c]? = some ch' →
      k + b.length ≤ ch'.len := by
    intro b hb ch' hch'
    rw [hch] at hch'
    cases hch'
    omega
  cases src with
  | written b =>
      cases hturn
      have hb := hsource origin recs
      have hlen : b.length = n := by rw [hb, length_image]
      have hb' : ∀ ch', r.chunks[c]? = some ch' →
          b = image cx origin recs (ch'.off + k) b.length := by
        intro ch' hch'
        rw [hch] at hch'
        cases hch'
        rw [hlen]
        exact hb
      refine ⟨h.cut hphase (p := ⟨c, k, n, .now⟩) ⟨ch, hch, hmoves, by simp only; omega, trivial⟩
        rfl rfl rfl rfl rfl rfl rfl (lens_write h.lens (hroom b hlen)) ?_ ?_ ?_ rfl rfl rfl ?_,
        rfl, rfl, rfl, rfl, rfl⟩
      · exact fun c' k' _ hr => hr.write h.lens (hroom b hlen) hb'
      · intro _ k' hlo hhi
        exact right_written h.lens hch (hroom b hlen ch hch) (hb' ch hch) hlo
          (by rw [hlen]; exact hhi)
      · exact fun c' len => rfl
      · intro q w todo hread
        cases hread
  | orig off =>
      simp only at hturn
      split at hturn
      · rename_i hlen
        cases hturn
        obtain ⟨rfl, hin, hbytes⟩ := hsource
        have hkind : KindOk cx origin recs (ch.off + k) n (.orig (ch.off + k)) :=
          ⟨rfl, hin, hbytes origin recs⟩
        refine ⟨h.cut hphase (p := ⟨c, k, n, if a.cached then .now else .orig (ch.off + k)⟩)
          ⟨ch, hch, hmoves, by simp only; omega, ?_⟩ rfl rfl rfl rfl rfl rfl rfl
          (lens_write h.lens (hroom _ hlen)) ?_ ?_ ?_ rfl rfl rfl ?_, rfl, rfl, rfl, rfl, rfl⟩
        · cases a.cached with
          | true => exact trivial
          | false => exact hkind
        · exact fun c' k' hout hr => hr.before h.lens (hroom _ hlen) hout
        · intro hnow k' hlo hhi
          have hcached : a.cached = true := by
            cases hc : a.cached with
            | true => rfl
            | false =>
                simp only [hc] at hnow
                cases hnow
          have hb : a.bytes = image cx origin recs (ch.off + k) a.bytes.length := by
            rw [hlen, hanswer _ _ rfl hcached]
            exact (slice_eq_image (Nat.le_of_eq hsize) hkind).1
          exact right_written h.lens hch (hroom _ hlen ch hch) hb hlo (by rw [hlen]; exact hhi)
        · exact fun c' len => rfl
        · intro q w todo hread
          cases hread
      · cases hturn
  | slot i start =>
      have hpiece : PieceOk cx origin recs r.chunks ⟨c, k, n, .slot i start⟩ :=
        ⟨ch, hch, hmoves, by simp only; omega, hsource.1, hsource.2.1, hsource.2.2 origin recs⟩
      simp only at hturn
      have hkeep : ∀ c' k', (c' = c → k' < k) → Right cx origin recs r.chunks r.bufs c' k' →
          Right cx origin recs r.chunks r.bufs c' k' := fun _ _ _ hr => hr
      -- a slot that is ready is asked about first; the piece is cut alike
      split at hturn
      all_goals
        cases hturn
        refine ⟨h.cut hphase hpiece rfl rfl rfl rfl rfl rfl rfl h.lens hkeep ?_ ?_ rfl rfl rfl ?_,
          rfl, rfl, rfl, rfl, rfl⟩
        · intro hnow
          cases hnow
        · exact fun c' len => rfl
        · intro q w todo hread
          cases hread

/-- A move of the code to a phase that knows as much, with a section of the run. -/
theorem TurnKeeps.moves {cf' : ColdFill} {woken : List Wake} {ph : Phase}
    (hs : SectionOk cx origin recs cf cf' woken) (h : ReqOk cx origin recs r [])
    (hb : CounterOk cf ws id r) (hphase : r.phase = ph) (hsame : SameBody r r')
    (hout : r'.outstanding = r.outstanding)
    (hreach : ∀ c ch, r.chunks[c]? = some ch → r'.phase.reach c ch.len = ph.reach c ch.len)
    (hunsent : ∀ l, r'.phase.unsent = some l → ph.unsent = some l)
    (huncopied : ∀ l, r'.phase.uncopied = some l → ph.uncopied = some l)
    (hitems : ∀ it ∈ r'.phase.items, it ∈ ph.items)
    (hreading : ∀ p w todo, r'.phase = .read p w todo →
      WhereOk cx origin recs (ColdRequest.slotOf p).1 w) (hshare : r'.phase.share = ph.share)
    (hended : r'.phase.ended = true → ph.ended = true) :
    TurnKeeps cx origin recs cf ws id ⟨cf', r', woken⟩ := by
  refine .ofSection hs (h.moves hphase hsame hreach hunsent huncopied hitems hreading) ?_
  subst hphase
  refine ⟨?_, fun ho => ?_⟩
  · rw [hout, hshare, hsame.parts, hsame.conversions]
    exact hb.count
  · rw [hout]
    exact hb.ended (hended ho)

/-- While the code has its share of the counter, something is out. -/
theorem CounterOk.not_ended (hb : CounterOk cf ws id r) (hpos : 0 < r.outstanding) :
    r.phase.ended = false := by
  cases ho : r.phase.ended with
  | false => rfl
  | true =>
      have := hb.ended ho
      omega

/-- A request that waits for a slot is called once more. -/
theorem waiting_parked (cf : ColdFill) (i id id' : Nat) :
    ({ cf with waiters := cf.waiters ++ [(i, id)] } : ColdFill).waiting id' =
      cf.waiting id' + if id = id' then 1 else 0 := by
  simp [ColdFill.waiting, List.countP_append, List.countP_cons]

/-! ### The cut and what is needed -/

variable {todo : List Nat}

section

variable (hf : FillOk cx origin recs cf) (h : ReqOk cx origin recs r [])
  (hb : CounterOk cf ws id r)

include hf h hb

theorem classify_keeps (hsize : cx.L.originSize = origin.length) (hok : LayoutOk cx.L)
    (ha : AnswerOk cx origin recs r a) {c k : Nat} (hphase : r.phase = .classify c k)
    (hturn : r.turn cx cf id a = some t) : TurnKeeps cx origin recs cf ws id t := by
  simp only [ColdRequest.turn, hphase] at hturn
  split at hturn
  · rename_i hnone
    cases hturn
    refine .moves (SectionOk.refl hf) h hb hphase ⟨rfl, rfl, rfl, rfl, rfl, rfl, rfl⟩ rfl ?_ nofun
      nofun nofun nofun rfl nofun
    intro c' ch hch
    have hlen := (List.getElem?_eq_some_iff.1 hch).1
    have hend := List.getElem?_eq_none_iff.1 hnone
    show ch.len = if c' < c then ch.len else _
    rw [if_pos (by omega)]
  rename_i ch hch
  split at hturn
  · rename_i hle
    cases hturn
    refine .moves (SectionOk.refl hf) h hb hphase ⟨rfl, rfl, rfl, rfl, rfl, rfl, rfl⟩ rfl ?_ nofun
      nofun nofun nofun rfl nofun
    intro c' ch' hch'
    show (if c' < c + 1 then ch'.len else if c' = c + 1 then 0 else 0) =
      if c' < c then ch'.len else if c' = c then k else 0
    by_cases hc : c' = c
    · subst hc
      rw [hch] at hch'
      cases hch'
      have hreach := h.reach_le hch
      rw [hphase] at hreach
      simp only [Phase.reach, Nat.lt_irrefl, if_false, if_true] at hreach
      rw [if_pos (Nat.lt_succ_self _), if_neg (Nat.lt_irrefl _), if_pos rfl]
      omega
    · by_cases hlt : c' < c
      · rw [if_pos (by omega), if_pos hlt]
      · rw [if_neg (by omega), if_neg hlt, if_neg hc]
        simp
  · rename_i hlt
    simp only [Option.map_eq_some_iff] at hturn
    obtain ⟨r', hr', rfl⟩ := hturn
    obtain ⟨hreq, hshare, hended, hparts, hconvs, hout⟩ :=
      classifyTurn_keeps hsize hok h hphase hch (by omega) ha hr'
    refine .quiet hf hreq ⟨?_, ?_⟩
    · have hcount := hb.count
      rw [hphase] at hcount
      rw [hout, hshare, hparts, hconvs]
      exact hcount
    · intro ho
      rw [hended] at ho
      cases ho

theorem gone_keeps {c k i : Nat} (hphase : r.phase = .gone c k i)
    (hturn : r.turn cx cf id a = some t) : TurnKeeps cx origin recs cf ws id t := by
  simp only [ColdRequest.turn, hphase] at hturn
  have hs := @keptOriginalGone_ok _ _ _ cf hf cx.rnt i a.cached
  split at hturn
  · cases hturn
    exact .moves hs h hb hphase ⟨rfl, rfl, rfl, rfl, rfl, rfl, rfl⟩ rfl (fun _ _ _ => rfl) nofun
      nofun nofun nofun rfl nofun
  · cases hturn
    exact .moves hs h hb hphase ⟨rfl, rfl, rfl, rfl, rfl, rfl, rfl⟩ rfl (fun _ _ _ => rfl) nofun
      nofun nofun nofun rfl nofun

/-- A turn that holds a slot's record if it is ready, and moves on. -/
theorem holding_keeps {i : Nat} {ph ph' : Phase} (hphase : r.phase = ph)
    (hreach : ∀ c len, ph'.reach c len = ph.reach c len) (hunsent : ph'.unsent = none)
    (huncopied : ph'.uncopied = none) (hitems : ph'.items = [])
    (hreading : ∀ p w todo, ph' ≠ .read p w todo) (hshare : ph'.share = ph.share)
    (hended : ph'.ended = false) :
    TurnKeeps cx origin recs cf ws id ⟨cf, { r.holdReady cf i with phase := ph' }, []⟩ := by
  have hsame : (r.holdReady cf i).phase = r.phase ∧ (r.holdReady cf i).parts = r.parts ∧
      (r.holdReady cf i).conversions = r.conversions ∧
      (r.holdReady cf i).outstanding = r.outstanding := by
    unfold ColdRequest.holdReady
    split <;> exact ⟨rfl, rfl, rfl, rfl⟩
  obtain ⟨hphase', hparts, hconvs, hout⟩ := hsame
  have hb' : CounterOk cf ws id (r.holdReady cf i) := by
    refine ⟨?_, ?_⟩
    · rw [hout, hphase', hparts, hconvs]
      exact hb.count
    · rw [hphase', hout]
      exact hb.ended
  refine .moves (SectionOk.refl hf) (h.holdReady hf i) hb' (hphase'.trans hphase)
    ⟨rfl, rfl, rfl, rfl, rfl, rfl, rfl⟩ rfl (fun c ch _ => hreach c ch.len) ?_ ?_ ?_ ?_ hshare ?_
  · intro l hl
    replace hl : ph'.unsent = some l := hl
    rw [hunsent] at hl
    cases hl
  · intro l hl
    replace hl : ph'.uncopied = some l := hl
    rw [huncopied] at hl
    cases hl
  · intro it hit
    replace hit : it ∈ ph'.items := hit
    rw [hitems] at hit
    cases hit
  · exact fun p w todo hp => absurd hp (hreading p w todo)
  · intro ho
    replace ho : ph'.ended = true := ho
    rw [hended] at ho
    cases ho

theorem settle_keeps {keep : List Nat} (hphase : r.phase = .settle todo keep)
    (hturn : r.turn cx cf id a = some t) : TurnKeeps cx origin recs cf ws id t := by
  cases todo with
  | nil =>
      simp only [ColdRequest.turn, hphase] at hturn
      cases hturn
      exact .moves (SectionOk.refl hf) h hb hphase ⟨rfl, rfl, rfl, rfl, rfl, rfl, rfl⟩ rfl
        (fun _ _ _ => rfl) nofun nofun nofun nofun rfl nofun
  | cons i todo =>
      simp only [ColdRequest.turn, hphase] at hturn
      split at hturn <;> cases hturn <;>
        exact .moves (SectionOk.refl hf) h hb hphase ⟨rfl, rfl, rfl, rfl, rfl, rfl, rfl⟩ rfl
          (fun _ _ _ => rfl) nofun nofun nofun nofun rfl nofun

/-! ### Claiming -/

theorem claim_keeps (hphase : r.phase = .claim todo) (hturn : r.turn cx cf id a = some t) :
    TurnKeeps cx origin recs cf ws id t := by
  cases todo with
  | nil =>
      simp only [ColdRequest.turn, hphase] at hturn
      cases hturn
      exact .moves (SectionOk.refl hf) h hb hphase ⟨rfl, rfl, rfl, rfl, rfl, rfl, rfl⟩ rfl
        (fun _ _ _ => rfl) nofun nofun nofun nofun rfl nofun
  | cons i todo =>
      simp only [ColdRequest.turn, hphase] at hturn
      unfold ColdFill.claimOrWait at hturn
      cases hstate : cf.state i with
      | absent =>
          simp only [hstate] at hturn
          cases hturn
          exact .moves (SectionOk.quiet hf rfl) h hb hphase ⟨rfl, rfl, rfl, rfl, rfl, rfl, rfl⟩ rfl
            (fun _ _ _ => rfl) nofun nofun nofun nofun rfl nofun
      | ready =>
          simp only [hstate] at hturn
          cases hturn
          exact .moves (SectionOk.refl hf) h hb hphase ⟨rfl, rfl, rfl, rfl, rfl, rfl, rfl⟩ rfl
            (fun _ _ _ => rfl) nofun nofun nofun nofun rfl nofun
      | fetching =>
          simp only [hstate] at hturn
          cases hturn
          refine ⟨hf, fun k hk => absurd hk List.not_mem_nil, ?_, ?_, ?_⟩
          · intro id' hne
            simp only [waiting_parked, if_neg (Ne.symm hne), told_nil, Nat.add_zero, le_refl]
          · exact h.moves hphase ⟨rfl, rfl, rfl, rfl, rfl, rfl, rfl⟩ (fun _ _ _ => rfl) nofun nofun
              nofun nofun
          · refine ⟨?_, nofun⟩
            have hold := hb.count
            rw [hphase] at hold
            simp only [waiting_parked, if_true, List.append_nil, Phase.share] at hold ⊢
            omega

end

/-! ### Fetching -/

/-- Items for pieces of the origin: their spans cover them. -/
theorem mem_origItems {it : PartItem} (hit : it ∈ r.origItems cx) : ItemOk cx r.origPieces it := by
  obtain ⟨⟨j, p⟩, hmem, rfl⟩ := List.mem_map.1 hit
  obtain ⟨n, hn⟩ := List.mem_iff_getElem?.1 hmem
  obtain ⟨hj, hp⟩ := List.getElem?_zip_eq_some.1 hn
  have hjn : n = j := by
    obtain ⟨hlt, heq⟩ := List.getElem?_eq_some_iff.1 hj
    rwa [List.getElem_range] at heq
  subst hjn
  have horig : ColdRequest.isOrig p = true := (List.mem_filter.1 (List.mem_of_getElem? hp)).2
  obtain ⟨off, hoff⟩ : ∃ off, p.kind = .orig off := by
    unfold ColdRequest.isOrig at horig
    cases hk : p.kind with
    | orig off => exact ⟨off, rfl⟩
    | now =>
        rw [hk] at horig
        cases horig
    | slot i start =>
        rw [hk] at horig
        cases horig
  obtain ⟨hlo, -, hhi⟩ := roundSpan_spec cx.pageSize cx.L.originSize off p.len
  simp only [hoff]
  exact ⟨hlo, hhi, p, hp, hoff, rfl⟩

/-- There is one for each of these pieces. -/
theorem origItems_complete {r : ColdRequest} {j : Nat} {p : Piece}
    (hp : r.origPieces[j]? = some p) : ∃ it ∈ r.origItems cx, it.slot = false ∧ it.index = j := by
  have hlt := (List.getElem?_eq_some_iff.1 hp).1
  have hmem : (j, p) ∈ (List.range r.origPieces.length).zip r.origPieces := by
    refine List.mem_iff_getElem?.2 ⟨j, List.getElem?_zip_eq_some.2 ⟨?_, hp⟩⟩
    rw [List.getElem?_range hlt]
  exact ⟨_, List.mem_map_of_mem hmem, rfl, rfl⟩

/-- The parts are formed: each item is in one of them. -/
theorem ReqOk.partsFormed (h : ReqOk cx origin recs r []) {items : List PartItem}
    (hphase : r.phase = .fetch [] items) :
    ReqOk cx origin recs { r with phase := .issue (formParts (items ++ r.origItems cx)) } [] := by
  have hperm := (formParts_spec (items ++ r.origItems cx)).1
  have hitems := h.items
  have htiled := h.tiled
  rw [hphase] at hitems htiled
  refine { h with tiled := htiled, origs := ?_, slots := ?_, copying := nofun, reading := nofun,
                  items := ?_ }
  · refine fun j p hp => .inr (.inr fun l hl => ?_)
    cases hl
    obtain ⟨it, hit, hslot, hindex⟩ := @origItems_complete cx r j p hp
    have hin : it ∈ (formParts (items ++ r.origItems cx)).flatten :=
      hperm.mem_iff.2 (List.mem_append_right _ hit)
    exact ⟨it, List.mem_append_left _ hin, hslot, hindex⟩
  · exact fun p _ => .inr nofun
  · intro it hit
    rcases List.mem_append.1 hit with hit | hit
    · rcases List.mem_append.1 (hperm.mem_iff.1 hit) with hit | hit
      · exact hitems it (List.mem_append_left _ hit)
      · exact mem_origItems hit
    · exact hitems it (List.mem_append_right _ hit)

/-- A claimed slot: its original is in hand, or one more item is to bring it. -/
theorem ReqOk.fetched (hsize : cx.L.originSize = origin.length) (h : ReqOk cx origin recs r [])
    {i : Nat} {items : List PartItem} (hphase : r.phase = .fetch (i :: todo) items)
    (ha : AnswerOk cx origin recs r a) :
    ReqOk cx origin recs (r.fetchTurn cx i todo items a) [] := by
  have hitems := h.items
  have htiled := h.tiled
  rw [hphase] at hitems htiled
  obtain ⟨hlo, -, hhi⟩ :=
    roundSpan_spec cx.pageSize cx.L.originSize (cx.slot i).origSeek (cx.slot i).origLen
  unfold ColdRequest.fetchTurn
  simp only
  split
  · rename_i hcached
    refine { h with tiled := htiled, origs := ?_, slots := ?_, copying := nofun, reading := nofun,
                    items := hitems, conversions := ?_ }
    · exact fun j p _ => .inr (.inr nofun)
    · exact fun p _ => .inr nofun
    · intro cv hcv
      rcases List.mem_append.1 hcv with hcv | hcv
      · exact h.conversions cv hcv
      · rw [List.mem_singleton.1 hcv]
        rw [AnswerOk, hphase] at ha
        simp only [ha hcached]
        exact slice_of_span hlo (hhi.imp_right fun hle => by omega)
  · refine { h with tiled := htiled, origs := ?_, slots := ?_, copying := nofun, reading := nofun,
                    items := ?_ }
    · exact fun j p _ => .inr (.inr nofun)
    · exact fun p _ => .inr nofun
    · intro it hit
      rcases List.mem_append.1 hit with hit | hit
      · rcases List.mem_append.1 hit with hit | hit
        · exact hitems it (List.mem_append_left _ hit)
        · rw [List.mem_singleton.1 hit]
          exact ⟨hlo, hhi, rfl, rfl⟩
      · exact hitems it (List.mem_append_right _ hit)

/-- A part that the wire took. -/
theorem ReqOk.partSent (h : ReqOk cx origin recs r []) {p : List PartItem}
    {ps : List (List PartItem)} (hphase : r.phase = .issue (p :: ps)) {n : Nat} :
    ReqOk cx origin recs
      { r with
        parts := r.parts ++ [issuePart cx.pageSize p]
        outstanding := n
        phase := .issue ps } [] := by
  have hitems := h.items
  have htiled := h.tiled
  have horigs := h.origs
  rw [hphase] at hitems htiled horigs
  have hmem : ∀ it, it ∈ ps.flatten ++
      ((r.parts ++ [issuePart cx.pageSize p]).flatMap Part.items ++ []) ↔
        it ∈ (p :: ps).flatten ++ (r.parts.flatMap Part.items ++ []) := by
    intro it
    simp only [List.flatten_cons, List.flatMap_append, List.flatMap_cons, List.flatMap_nil,
      List.append_nil, List.mem_append, issuePart]
    tauto
  refine { h with tiled := htiled, origs := ?_, slots := ?_, copying := nofun, reading := nofun,
                  items := ?_ }
  · refine fun j q hq => (horigs j q hq).imp_right (Or.imp_right fun hdue l hl => ?_)
    cases hl
    obtain ⟨it, hit, hwhat⟩ := hdue _ rfl
    exact ⟨it, (hmem it).2 hit, hwhat⟩
  · exact fun p _ => .inr nofun
  · exact fun it hit => hitems it ((hmem it).1 hit)

/-- A request that has failed is waited for only for its counter. -/
theorem ReqOk.partFailed (h : ReqOk cx origin recs r []) {p : List PartItem}
    {ps : List (List PartItem)} (hphase : r.phase = .issue (p :: ps)) :
    ReqOk cx origin recs { r with failed := true, phase := .issue ps } [] := by
  have hitems := h.items
  have htiled := h.tiled
  rw [hphase] at hitems htiled
  refine { h with tiled := htiled, origs := fun _ _ _ => .inl rfl, slots := ?_, copying := nofun,
                  reading := nofun, items := ?_ }
  · exact fun p _ => .inr nofun
  · intro it hit
    rcases List.mem_append.1 hit with hit | hit
    · exact hitems it (List.mem_append_left _
        (by rw [Phase.items, List.flatten_cons]; exact List.mem_append_right _ hit))
    · exact hitems it (List.mem_append_right _ hit)

section

variable (hf : FillOk cx origin recs cf) (h : ReqOk cx origin recs r [])
  (hb : CounterOk cf ws id r)

include hf h hb

theorem fetch_keeps (hsize : cx.L.originSize = origin.length) (ha : AnswerOk cx origin recs r a)
    {items : List PartItem} (hphase : r.phase = .fetch todo items)
    (hturn : r.turn cx cf id a = some t) : TurnKeeps cx origin recs cf ws id t := by
  have hcount := hb.count
  rw [hphase] at hcount
  cases todo with
  | nil =>
      simp only [ColdRequest.turn, hphase] at hturn
      cases hturn
      exact .quiet hf (h.partsFormed hphase) ⟨hcount, nofun⟩
  | cons i todo =>
      simp only [ColdRequest.turn, hphase] at hturn
      cases hturn
      refine .quiet hf (h.fetched hsize hphase ha) ?_
      unfold ColdRequest.fetchTurn
      simp only
      split
      · refine ⟨?_, nofun⟩
        rw [List.length_append]
        simp only [Phase.share, List.length_singleton] at hcount ⊢
        omega
      · exact ⟨hcount, nofun⟩

theorem issue_keeps {parts : List (List PartItem)} (hphase : r.phase = .issue parts)
    (hturn : r.turn cx cf id a = some t) : TurnKeeps cx origin recs cf ws id t := by
  have hcount := hb.count
  rw [hphase] at hcount
  cases parts with
  | nil =>
      simp only [ColdRequest.turn, hphase] at hturn
      cases hturn
      refine .quiet hf (h.moves hphase ⟨rfl, rfl, rfl, rfl, rfl, rfl, rfl⟩ (fun _ _ _ => rfl)
        (fun _ hl => hl) nofun nofun nofun) ⟨?_, nofun⟩
      simp only [Phase.share] at hcount ⊢
      omega
  | cons p ps =>
      simp only [ColdRequest.turn, hphase] at hturn
      split at hturn
      · cases hturn
        refine .quiet hf (h.partSent hphase) ⟨?_, nofun⟩
        rw [List.length_append]
        simp only [Phase.share, List.length_singleton] at hcount ⊢
        omega
      · cases hturn
        exact .quiet hf (h.partFailed hphase) ⟨hcount, nofun⟩

end

/-! ### Copying -/

/-- Everything is there: the slots' pieces are to be copied. -/
theorem ReqOk.toCopy (h : ReqOk cx origin recs r []) (hphase : r.phase = .waiting)
    (hfailed : r.failed = false) (hparts : r.parts = []) (hconvs : r.conversions = []) :
    ReqOk cx origin recs { r with phase := .copy r.slotPieces } [] := by
  have hitems := h.items
  have htiled := h.tiled
  have horigs := h.origs
  rw [hphase] at hitems htiled horigs
  refine { h with tiled := htiled, origs := horigs, slots := ?_, copying := ?_, reading := nofun,
                  items := hitems }
  · refine fun p hp => .inr fun l hl => ?_
    cases hl
    exact hp
  · intro l hl
    cases hl
    exact ⟨fun _ hp => hp, hfailed, hparts, hconvs⟩

/-- What a slot piece's kind says. -/
theorem kind_of_slotPiece {p : Piece} (hp : p ∈ r.slotPieces) :
    p.kind = .slot (ColdRequest.slotOf p).1 (ColdRequest.slotOf p).2 := by
  have hslot : ColdRequest.isSlot p = true := (List.mem_filter.1 hp).2
  unfold ColdRequest.isSlot at hslot
  unfold ColdRequest.slotOf
  cases hk : p.kind with
  | slot i start => rfl
  | now =>
      rw [hk] at hslot
      cases hslot
  | orig off =>
      rw [hk] at hslot
      cases hslot

/-- The virtual file's bytes, written where a piece is. -/
theorem ReqOk.writes {due : List PartItem} (h : ReqOk cx origin recs r due) {p : Piece}
    (hp : p ∈ r.pieces) {b : Bytes} (hlen : b.length = p.len)
    (hb : ∀ ch, r.chunks[p.chunk]? = some ch →
      b = image cx origin recs (ch.off + p.pos) b.length) :
    (r.write p.chunk p.pos b).bufs.map List.length = r.chunks.map Chunk.len ∧
      Filled cx origin recs r.chunks (r.write p.chunk p.pos b).bufs p ∧
      ∀ q, Filled cx origin recs r.chunks r.bufs q →
        Filled cx origin recs r.chunks (r.write p.chunk p.pos b).bufs q := by
  obtain ⟨ch, hch, hpos, hle, -⟩ := h.pieces p hp
  have hroom : ∀ ch', r.chunks[p.chunk]? = some ch' → p.pos + b.length ≤ ch'.len := by
    intro ch' hch'
    rw [hch] at hch'
    cases hch'
    omega
  refine ⟨lens_write h.lens hroom, ?_, ?_⟩
  · intro k hlo hhi
    exact right_written h.lens hch (hroom ch hch) (hb ch hch) hlo (by omega)
  · exact fun q hq k hlo hhi => (hq k hlo hhi).write h.lens hroom hb

/-- A slot's piece is copied. -/
theorem ReqOk.copied (h : ReqOk cx origin recs r []) {p : Piece} {w : Where} {todo : List Piece}
    (hphase : r.phase = .read p w todo) (ha : AnswerOk cx origin recs r a) {b : Bytes}
    (hcopy : copySlot cx (ColdRequest.slotOf p).1 (ColdRequest.slotOf p).2 p.len w a = .bytes b) :
    ReqOk cx origin recs { r.write p.chunk p.pos b with phase := .copy todo } [] := by
  have hcopying := h.copying (p :: todo) (by rw [hphase]; rfl)
  have hslot : p ∈ r.slotPieces := hcopying.1 p List.mem_cons_self
  have hpiece : p ∈ r.pieces := (List.mem_filter.1 hslot).1
  have hw := h.reading p w todo hphase
  have hitems := h.items
  have htiled := h.tiled
  have horigs := h.origs
  have hslots := h.slots
  rw [hphase] at hitems htiled horigs hslots
  rw [AnswerOk, hphase] at ha
  obtain ⟨hbytes, hlen⟩ := copySlot_content hw ha.1 ha.2 hcopy
  have himage : ∀ ch, r.chunks[p.chunk]? = some ch →
      b = image cx origin recs (ch.off + p.pos) b.length := by
    intro ch hch
    obtain ⟨ch', hch', -, -, hkind⟩ := h.pieces p hpiece
    rw [hch] at hch'
    cases hch'
    rw [kind_of_slotPiece hslot] at hkind
    rw [hlen, hbytes]
    exact slotSlice_eq_image hkind (by rw [← hbytes]; exact hlen)
  obtain ⟨hlens, hfilled, hkeeps⟩ := h.writes hpiece hlen himage
  refine { h with lens := hlens, tiled := htiled, origs := ?_, slots := ?_, copying := ?_,
                  nows := fun q hq hnow => hkeeps q (h.nows q hq hnow), reading := nofun,
                  items := hitems }
  · exact fun j q hq => (horigs j q hq).imp_right (Or.imp_left (hkeeps q))
  · intro q hq
    rcases hslots q hq with ⟨hdone, hmade⟩ | hdue
    · exact .inl ⟨hkeeps q hdone, hmade⟩
    rcases List.mem_cons.1 (hdue _ rfl) with rfl | hin
    · exact .inl ⟨hfilled, hw.made⟩
    · refine .inr fun l hl => ?_
      cases hl
      exact hin
  · intro l hl
    cases hl
    exact ⟨fun q hq => hcopying.1 q (List.mem_cons_of_mem _ hq), hcopying.2⟩

section

variable (hf : FillOk cx origin recs cf) (h : ReqOk cx origin recs r [])
  (hb : CounterOk cf ws id r)

include hf h hb

theorem waiting_keeps (hphase : r.phase = .waiting) (hturn : r.turn cx cf id a = some t) :
    TurnKeeps cx origin recs cf ws id t := by
  simp only [ColdRequest.turn, hphase] at hturn
  split at hturn
  · cases hturn
  rename_i hzero
  have hzero : r.outstanding = 0 := by omega
  obtain ⟨-, hparts, hconvs, hwait⟩ := hb.idle hzero
  have hcount := hb.count
  rw [hphase] at hcount
  split at hturn
  · cases hturn
    refine .quiet hf (h.moves hphase ⟨rfl, rfl, rfl, rfl, rfl, rfl, rfl⟩ (fun _ _ _ => rfl)
      nofun nofun nofun nofun) ⟨hcount, fun _ => hzero⟩
  rename_i hfailed
  split at hturn
  · cases hturn
    exact .quiet hf (h.lose fun c len => by rw [hphase]; rfl) (hb.lose hzero)
  · cases hturn
    exact .quiet hf (h.toCopy hphase (by simpa using hfailed) hparts hconvs)
      ⟨hcount, fun _ => hzero⟩

theorem giveBack_keeps (hphase : r.phase = .giveBack todo) (hturn : r.turn cx cf id a = some t) :
    TurnKeeps cx origin recs cf ws id t := by
  cases todo with
  | nil =>
      simp only [ColdRequest.turn, hphase] at hturn
      cases hturn
      exact .moves (SectionOk.refl hf) h hb hphase ⟨rfl, rfl, rfl, rfl, rfl, rfl, rfl⟩ rfl
        (fun _ _ _ => rfl) nofun nofun nofun nofun rfl fun _ => rfl
  | cons i todo =>
      simp only [ColdRequest.turn, hphase] at hturn
      cases hturn
      exact .moves (abandon_ok hf i) h hb hphase ⟨rfl, rfl, rfl, rfl, rfl, rfl, rfl⟩ rfl
        (fun _ _ _ => rfl) nofun nofun nofun nofun rfl fun _ => rfl

theorem copy_keeps {todo : List Piece} (hphase : r.phase = .copy todo)
    (hturn : r.turn cx cf id a = some t) : TurnKeeps cx origin recs cf ws id t := by
  have hzero : r.outstanding = 0 := hb.ended (by rw [hphase]; rfl)
  cases todo with
  | nil =>
      simp only [ColdRequest.turn, hphase] at hturn
      cases hturn
      exact .moves (SectionOk.refl hf) h hb hphase ⟨rfl, rfl, rfl, rfl, rfl, rfl, rfl⟩ rfl
        (fun _ _ _ => rfl) (fun _ hl => hl) (fun _ hl => hl) nofun nofun rfl fun _ => rfl
  | cons p todo =>
      have hread : ∀ w, WhereOk cx origin recs (ColdRequest.slotOf p).1 w →
          TurnKeeps cx origin recs cf ws id ⟨cf, { r with phase := .read p w todo }, []⟩ := by
        intro w hw
        refine .moves (SectionOk.refl hf) h hb hphase ⟨rfl, rfl, rfl, rfl, rfl, rfl, rfl⟩ rfl
          (fun _ _ _ => rfl) (fun _ hl => hl) (fun _ hl => hl) nofun ?_ rfl fun _ => rfl
        intro p' w' todo' hp'
        cases hp'
        exact hw
      simp only [ColdRequest.turn, hphase] at hturn
      split at hturn
      · rename_i w hw
        cases hturn
        exact hread w (h.held _ w hw)
      split at hturn
      · rename_i w hw
        cases hturn
        exact hread w (hf.look hw)
      · cases hturn
        exact .quiet hf (h.lose fun c len => by rw [hphase]; rfl) (hb.lose hzero)

theorem read_keeps (ha : AnswerOk cx origin recs r a) {p : Piece} {w : Where} {todo : List Piece}
    (hphase : r.phase = .read p w todo) (hturn : r.turn cx cf id a = some t) :
    TurnKeeps cx origin recs cf ws id t := by
  have hzero : r.outstanding = 0 := hb.ended (by rw [hphase]; rfl)
  have hcut : ∀ c len, r.phase.reach c len = len := fun c len => by rw [hphase]; rfl
  have hcount := hb.count
  rw [hphase] at hcount
  simp only [ColdRequest.turn, hphase] at hturn
  split at hturn
  · rename_i b hcopy
    cases hturn
    exact .quiet hf (h.copied hphase ha hcopy) ⟨hcount, fun _ => hzero⟩
  · cases hturn
    exact .quiet hf (h.lose hcut) (hb.lose hzero)
  · cases hturn
    exact .ofSection (forget_ok hf _) (h.lose hcut) (hb.lose hzero)

/-- [SRC ColdRun.cc:1495-1652, 1048-1140] Every turn of a request's code. -/
theorem turn_keeps (hsize : cx.L.originSize = origin.length) (hok : LayoutOk cx.L)
    (ha : AnswerOk cx origin recs r a) (hturn : r.turn cx cf id a = some t) :
    TurnKeeps cx origin recs cf ws id t := by
  cases hphase : r.phase with
  | classify c k => exact classify_keeps hf h hb hsize hok ha hphase hturn
  | gone c k i => exact gone_keeps hf h hb hphase hturn
  | hold c k i =>
      simp only [ColdRequest.turn, hphase] at hturn
      cases hturn
      exact holding_keeps hf h hb hphase (fun _ _ => rfl) rfl rfl rfl nofun rfl rfl
  | settle todo keep => exact settle_keeps hf h hb hphase hturn
  | settleHold i todo keep =>
      simp only [ColdRequest.turn, hphase] at hturn
      cases hturn
      exact holding_keeps hf h hb hphase (fun _ _ => rfl) rfl rfl rfl nofun rfl rfl
  | claim todo => exact claim_keeps hf h hb hphase hturn
  | claimHold i todo =>
      simp only [ColdRequest.turn, hphase] at hturn
      cases hturn
      exact holding_keeps hf h hb hphase (fun _ _ => rfl) rfl rfl rfl nofun rfl rfl
  | fetch todo items => exact fetch_keeps hf h hb hsize ha hphase hturn
  | issue parts => exact issue_keeps hf h hb hphase hturn
  | waiting => exact waiting_keeps hf h hb hphase hturn
  | giveBack todo => exact giveBack_keeps hf h hb hphase hturn
  | copy todo => exact copy_keeps hf h hb hphase hturn
  | read p w todo => exact read_keeps hf h hb ha hphase hturn
  | done ok =>
      simp only [ColdRequest.turn, hphase] at hturn
      cases hturn

end

end Turns

end UCache
