/-
Module: UCache.Plugin.SlotReadRuns
Purpose: Any number of requests over one run of a file in a slot layout, with conversions, commits
  and other processes in between: a request that completes has filled its buffers with the
  virtual file's bytes.
Trusted boundary: none
Main exports: WireOk, reply_keeps, slot_request_image
-/
import UCache.Lib.Run
import UCache.Plugin.LayoutBlob
import UCache.Plugin.SlotTurns
import UCache.Transpose.BasketSlot

namespace UCache

open Lib

variable {cx : ColdCx} {origin : Bytes} {recs : Nat → Bytes}

/-! ### Answers of the wire -/

variable {r : ColdRequest}

/-- The elements of a part hold the origin's bytes. -/
def WireOk (origin : Bytes) (wire : List (WireElem × Bytes)) : Prop :=
  ∀ e ∈ wire, e.2 = slice origin e.1.off e.1.len ∧ e.2.length = e.1.len

/-- What handing out an item leaves alone, and that the counter follows the conversions. -/
structure Delivered (r r' : ColdRequest) : Prop where
  phase : r'.phase = r.phase
  parts : r'.parts = r.parts
  count : r'.outstanding + r.conversions.length = r.outstanding + r'.conversions.length

theorem deliverItem_delivered (wire : List (WireElem × Bytes)) (r : ColdRequest) (it : PartItem) :
    Delivered r (r.deliverItem wire it) := by
  unfold ColdRequest.deliverItem
  split
  · exact ⟨rfl, rfl, rfl⟩
  split
  · refine ⟨rfl, rfl, ?_⟩
    simp only [List.length_append, List.length_singleton]
    omega
  split
  · exact ⟨rfl, rfl, rfl⟩
  · exact ⟨rfl, rfl, rfl⟩

namespace ReqOk

variable {r : ColdRequest}

/-- Nothing is copied while a part or a conversion is out. -/
theorem not_copying {due : List PartItem} (h : ReqOk cx origin recs r due)
    (hbusy : ¬ (r.parts = [] ∧ r.conversions = [])) : r.phase.uncopied = none := by
  cases hun : r.phase.uncopied with
  | none => rfl
  | some l => exact absurd (h.copying l hun).2.2 hbusy

/-- A failed request: nothing is to be brought any more. -/
theorem fails {due due' : List PartItem} (h : ReqOk cx origin recs r due)
    (hcopy : r.phase.uncopied = none) (hdue : ∀ it ∈ due', it ∈ due) :
    ReqOk cx origin recs { r with failed := true } due' := by
  refine { h with origs := fun _ _ _ => .inl rfl, copying := fun _ => copying_none hcopy,
                  items := fun it hit => ?_ }
  simp only [List.mem_append] at hit
  refine h.items it ?_
  simp only [List.mem_append]
  exact hit.imp_right (Or.imp_right (hdue it))

/-- One item of a part that arrived: a conversion is due, or the piece of the origin is filled. -/
theorem deliver {wire : List (WireElem × Bytes)} {it : PartItem} {due : List PartItem}
    (hsize : cx.L.originSize = origin.length) (hwire : WireOk origin wire)
    (h : ReqOk cx origin recs r (it :: due)) (hcopy : r.phase.uncopied = none) :
    ReqOk cx origin recs (r.deliverItem wire it) due := by
  have hitem := h.items it (by simp)
  have hrest : ∀ x, x ∈ r.phase.items ++ (r.parts.flatMap Part.items ++ due) →
      x ∈ r.phase.items ++ (r.parts.flatMap Part.items ++ it :: due) := by
    intro x hx
    simp only [List.mem_append, List.mem_cons] at hx ⊢
    tauto
  unfold ColdRequest.deliverItem
  split
  · exact h.fails hcopy fun x hx => List.mem_cons_of_mem _ hx
  rename_i buf hbuf
  obtain ⟨hbytes, -⟩ := gather_origin hwire hbuf
  have hslice : slice buf (it.off - it.rs) it.len = slice origin it.off it.len := by
    rw [hbytes]
    exact slice_of_span hitem.start (hitem.stop.imp_right fun hle => by omega)
  have hwhat := hitem.what
  split
  · rename_i hslot
    rw [if_pos hslot] at hwhat
    refine { h with origs := ?_, copying := fun _ => copying_none hcopy, conversions := ?_,
                    items := fun x hx => h.items x (hrest x hx) }
    · refine fun j p hp => (h.origs j p hp).imp_right (Or.imp_right fun hdue l hl => ?_)
      obtain ⟨x, hx, hx', hindex⟩ := hdue l hl
      refine ⟨x, ?_, hx', hindex⟩
      simp only [List.mem_append, List.mem_cons] at hx ⊢
      rcases hx with hx | hx | rfl | hx
      · exact .inl hx
      · exact .inr (.inl hx)
      · rw [hslot] at hx'
        cases hx'
      · exact .inr (.inr hx)
    · intro cv hcv
      rcases List.mem_append.1 hcv with hcv | hcv
      · exact h.conversions cv hcv
      · rw [List.mem_singleton.1 hcv]
        show slice buf (it.off - it.rs) it.len = origBytes cx origin it.index
        rw [hslice, origBytes, hwhat.1, hwhat.2]
  · rename_i hslot
    rw [if_neg hslot] at hwhat
    obtain ⟨p, hp, hkind, hlen⟩ := hwhat
    simp only [hp]
    have hpiece : p ∈ r.pieces := (List.mem_filter.1 (List.mem_of_getElem? hp)).1
    obtain ⟨ch, hch, hpos, hle, hk⟩ := h.pieces p hpiece
    rw [hkind] at hk
    have hoff : it.off = ch.off + p.pos := hk.1
    rw [hoff] at hk
    obtain ⟨himage, hblen⟩ := slice_eq_image (Nat.le_of_eq hsize) hk
    have hsame : slice buf (it.off - it.rs) p.len = slice origin (ch.off + p.pos) p.len := by
      rw [hlen, hslice, hoff]
    have himages : ∀ ch', r.chunks[p.chunk]? = some ch' →
        slice buf (it.off - it.rs) p.len =
          image cx origin recs (ch'.off + p.pos) (slice buf (it.off - it.rs) p.len).length := by
      intro ch' hch'
      rw [hch] at hch'
      cases hch'
      rw [hsame, hblen]
      exact himage
    obtain ⟨hlens, hfilled, hkeeps⟩ := h.writes hpiece (by rw [hsame, hblen]) himages
    refine { h with lens := hlens, nows := fun q hq hnow => hkeeps q (h.nows q hq hnow),
                    origs := ?_, slots := ?_, copying := fun _ => copying_none hcopy,
                    items := fun x hx => h.items x (hrest x hx) }
    · intro j q hq
      by_cases hj : j = it.index
      · subst hj
        replace hq : r.origPieces[it.index]? = some q := hq
        rw [hp] at hq
        cases hq
        exact .inr (.inl hfilled)
      · refine (h.origs j q hq).imp_right fun hq' => hq'.imp (hkeeps q) fun hdue l hl => ?_
        obtain ⟨x, hx, hx', hindex⟩ := hdue l hl
        refine ⟨x, ?_, hx', hindex⟩
        simp only [List.mem_append, List.mem_cons] at hx ⊢
        rcases hx with hx | hx | rfl | hx
        · exact .inl hx
        · exact .inr (.inl hx)
        · exact absurd hindex.symm hj
        · exact .inr (.inr hx)
    · exact fun q hq => (h.slots q hq).imp_left fun hdone => ⟨hkeeps q hdone.1, hdone.2⟩

/-- All items of a part. -/
theorem deliverAll {wire : List (WireElem × Bytes)} (hsize : cx.L.originSize = origin.length)
    (hwire : WireOk origin wire) {items : List PartItem} (h : ReqOk cx origin recs r items)
    (hcopy : r.phase.uncopied = none) :
    ReqOk cx origin recs (items.foldl (ColdRequest.deliverItem wire) r) [] ∧
      Delivered r (items.foldl (ColdRequest.deliverItem wire) r) := by
  induction items generalizing r with
  | nil => exact ⟨h, rfl, rfl, rfl⟩
  | cons it rest ih =>
      have hone := deliverItem_delivered wire r it
      obtain ⟨hreq, hdel⟩ := ih (h.deliver hsize hwire hcopy) (by rw [hone.phase]; exact hcopy)
      refine ⟨hreq, hdel.phase.trans hone.phase, hdel.parts.trans hone.parts, ?_⟩
      have := hone.count
      have := hdel.count
      simp only [List.foldl_cons]
      omega

/-- A part that was answered: its items are what is left of it. -/
theorem taken (h : ReqOk cx origin recs r []) {j : Nat} {part : Part}
    (hj : r.parts[j]? = some part) :
    ReqOk cx origin recs { r with parts := r.parts.eraseIdx j } part.items ∧
      r.phase.uncopied = none ∧ r.parts.length = (r.parts.eraseIdx j).length + 1 := by
  obtain ⟨hlt, hget⟩ := List.getElem?_eq_some_iff.1 hj
  have hcopy : r.phase.uncopied = none := h.not_copying fun hidle => by
    rw [hidle.1] at hlt
    cases hlt
  have hperm := List.getElem_cons_eraseIdx_perm hlt
  rw [hget] at hperm
  have hmem : ∀ it, it ∈ (r.parts.eraseIdx j).flatMap Part.items ++ part.items ↔
      it ∈ r.parts.flatMap Part.items ++ [] := by
    intro it
    rw [List.append_nil, ← (hperm.flatMap_right Part.items).mem_iff, List.flatMap_cons]
    simp only [List.mem_append]
    tauto
  refine ⟨?_, hcopy, ?_⟩
  · refine { h with origs := ?_, copying := fun _ => copying_none hcopy, items := ?_ }
    · refine fun k p hp => (h.origs k p hp).imp_right (Or.imp_right fun hdue l hl => ?_)
      obtain ⟨it, hit, hwhat⟩ := hdue l hl
      refine ⟨it, ?_, hwhat⟩
      exact (List.mem_append.1 hit).elim (List.mem_append_left _)
        fun hit => List.mem_append_right _ ((hmem it).2 hit)
    · intro it hit
      exact h.items it ((List.mem_append.1 hit).elim (List.mem_append_left _)
        fun hit => List.mem_append_right _ ((hmem it).1 hit))
  · rw [List.length_eraseIdx_of_lt hlt]
    omega

end ReqOk

/-- [SRC ColdRun.cc:1298-1364] The answer to a part. -/
theorem reply_keeps (hsize : cx.L.originSize = origin.length) {cf : ColdFill} {ws : List Wake}
    {id : Nat} {r' : ColdRequest} (h : ReqOk cx origin recs r []) (hb : CounterOk cf ws id r)
    {j : Nat} {data : Option (List Bytes)}
    (hwire : ∀ part bufs, r.parts[j]? = some part → data = some bufs →
      ∀ e ∈ part.wire.zip bufs, e.2 = slice origin e.1.off e.1.len)
    (hr : r.reply j data = some r') : ReqOk cx origin recs r' [] ∧ CounterOk cf ws id r' := by
  unfold ColdRequest.reply at hr
  split at hr
  · cases hr
  rename_i part hpart
  obtain ⟨htaken, hcopy, hlen⟩ := h.taken hpart
  have hcount := hb.count
  have hended := hb.not_ended (by omega)
  simp only at hr
  split at hr
  · cases hr
    refine ⟨{ htaken.fails hcopy fun _ hit => absurd hit List.not_mem_nil with }, ?_, fun ho => ?_⟩
    · show r.phase.share + (r.parts.eraseIdx j).length + r.conversions.length +
        (cf.waiting id + told ws id) ≤ r.outstanding - 1
      omega
    · exact absurd (hended.symm.trans ho) nofun
  rename_i bufs
  split at hr
  · rename_i hfit
    cases hr
    have hok : WireOk origin (part.wire.zip bufs) := by
      intro e he
      refine ⟨hwire part bufs hpart rfl e he, ?_⟩
      obtain ⟨n, hn⟩ := List.mem_iff_getElem?.1 he
      obtain ⟨hw, hb⟩ := List.getElem?_zip_eq_some.1 hn
      have hn := congrArg (fun l => l[n]?) hfit
      simp only [List.getElem?_map, hw, hb, Option.map_some, Option.some.injEq] at hn
      exact hn
    obtain ⟨hreq, hdel⟩ := htaken.deliverAll hsize hok hcopy
    generalize part.items.foldl (ColdRequest.deliverItem (part.wire.zip bufs)) _ = r₁ at hreq hdel ⊢
    refine ⟨{ hreq with }, ?_, fun ho => ?_⟩
    · have hphase := hdel.phase
      have hparts := hdel.parts
      have hcount' := hdel.count
      simp only at hphase hparts hcount'
      show r₁.phase.share + r₁.parts.length + r₁.conversions.length +
        (cf.waiting id + told ws id) ≤ r₁.outstanding - 1
      rw [hphase, hparts]
      omega
    · replace ho : r₁.phase.ended = true := ho
      rw [hdel.phase] at ho
      exact absurd (hended.symm.trans ho) nofun
  · cases hr

/-! ### Runs -/

variable {w : ColdWorld}

section

variable (cx origin recs)

/-- What the outside answers is what it says: the byte cache and the wire have the origin's bytes,
the store a slot's record, and a conversion makes the slot's record. -/
def Faithful (w : ColdWorld) : ColdAct → Prop
  | .turn id a => ∀ r, w.reqs id = some r → AnswerOk cx origin recs r a
  | .reply id j data => ∀ r part bufs, w.reqs id = some r → r.parts[j]? = some part →
      data = some bufs → ∀ e ∈ part.wire.zip bufs, e.2 = slice origin e.1.off e.1.len
  | .convert id j E _ _ _ => ∀ r cv, w.reqs id = some r → r.conversions[j]? = some cv →
      SlotUndoes cx origin E cv.slot ∧ ∀ kind record,
        convertSlot cx E cv.slot (origBytes cx origin cv.slot) = some (kind, record) →
          record = recs cv.slot
  | .apply es => ∀ e ∈ es, EntryOk cx origin recs e
  -- an entry of the commit is for a record of ours, or for one that another process committed
  | .commitEnd (.landed es) => ∀ e ∈ es, EntryOk cx origin recs e ∨
      ∃ l, w.committing = some l ∧ ∃ c ∈ l, c.slot = e.slot.toNat ∧ c.kind = e.kind
  | _ => True

/-- What holds between the steps of a run. -/
structure SlotWorldOk (w : ColdWorld) : Prop where
  infos : FillOk cx origin recs w.fill
  wakes : ∀ k ∈ w.wakes, WakeOk cx origin recs k
  committing : ∀ l, w.committing = some l → ∀ c ∈ l, CollectedOk cx origin recs c
  toApply : ∀ e ∈ w.toApply, EntryOk cx origin recs e
  reqs : ∀ id r, w.reqs id = some r → ReqOk cx origin recs r []
  balanced : ∀ id r, w.reqs id = some r → CounterOk w.fill w.wakes id r
  -- no request that is not there is waited for
  free : ∀ id, w.reqs id = none → w.fill.waiting id + told w.wakes id = 0

end

/-- The calls on their way to a request may be counted otherwise, if they are no more. -/
theorem CounterOk.recount {cf cf' : ColdFill} {ws ws' : List Wake} {id : Nat}
    (h : CounterOk cf ws id r) (hless : cf'.waiting id + told ws' id ≤ cf.waiting id + told ws id) :
    CounterOk cf' ws' id r :=
  ⟨(Nat.add_le_add_left hless _).trans h.count, h.ended⟩

/-- A step of one request. -/
theorem SlotWorldOk.moved {w' : ColdWorld} (h : SlotWorldOk cx origin recs w) {id : Nat}
    {r' : ColdRequest} (hreqs : w'.reqs = Function.update w.reqs id (some r'))
    (infos : FillOk cx origin recs w'.fill) (wakes : ∀ k ∈ w'.wakes, WakeOk cx origin recs k)
    (hcommitting : w'.committing = w.committing) (htoApply : w'.toApply = w.toApply)
    (hothers : ∀ id', id' ≠ id →
      w'.fill.waiting id' + told w'.wakes id' ≤ w.fill.waiting id' + told w.wakes id')
    (hreq : ReqOk cx origin recs r' []) (hbal : CounterOk w'.fill w'.wakes id r') :
    SlotWorldOk cx origin recs w' := by
  have hcases : ∀ id' r'', w'.reqs id' = some r'' →
      (id' = id ∧ r'' = r') ∨ (id' ≠ id ∧ w.reqs id' = some r'') := by
    intro id' r'' hr
    rw [hreqs] at hr
    by_cases hid : id' = id
    · subst hid
      rw [Function.update_self] at hr
      cases hr
      exact .inl ⟨rfl, rfl⟩
    · rw [Function.update_of_ne hid] at hr
      exact .inr ⟨hid, hr⟩
  refine ⟨infos, wakes, ?_, ?_, ?_, ?_, ?_⟩
  · rw [hcommitting]
    exact h.committing
  · rw [htoApply]
    exact h.toApply
  · intro id' r'' hr
    rcases hcases id' r'' hr with ⟨rfl, rfl⟩ | ⟨-, hold⟩
    · exact hreq
    · exact h.reqs id' r'' hold
  · intro id' r'' hr
    rcases hcases id' r'' hr with ⟨rfl, rfl⟩ | ⟨hne, hold⟩
    · exact hbal
    · exact (h.balanced id' r'' hold).recount (hothers id' hne)
  · intro id' hnone
    rw [hreqs] at hnone
    by_cases hid : id' = id
    · subst hid
      rw [Function.update_self] at hnone
      cases hnone
    · rw [Function.update_of_ne hid] at hnone
      exact Nat.le_zero.1 ((hothers id' hid).trans (Nat.le_of_eq (h.free id' hnone)))

/-- A section of the run outside of any request. -/
theorem SlotWorldOk.ran {w' : ColdWorld} (h : SlotWorldOk cx origin recs w) {woken : List Wake}
    (hs : SectionOk cx origin recs w.fill w'.fill woken) (hreqs : w'.reqs = w.reqs)
    (hwakes : w'.wakes = w.wakes ++ woken)
    (hcommitting : ∀ l, w'.committing = some l → ∀ c ∈ l, CollectedOk cx origin recs c)
    (htoApply : ∀ e ∈ w'.toApply, EntryOk cx origin recs e) : SlotWorldOk cx origin recs w' := by
  have hcount : ∀ id, w'.fill.waiting id + told w'.wakes id ≤
      w.fill.waiting id + told w.wakes id := by
    intro id
    have := hs.count id
    rw [hwakes, told_append]
    omega
  refine ⟨hs.infos, ?_, hcommitting, htoApply, ?_, ?_, ?_⟩
  · rw [hwakes]
    exact fun k hk => (List.mem_append.1 hk).elim (h.wakes k) (hs.wakes k)
  · rw [hreqs]
    exact h.reqs
  · rw [hreqs]
    exact fun id r hr => (h.balanced id r hr).recount (hcount id)
  · rw [hreqs]
    exact fun id hid => Nat.le_zero.1 ((hcount id).trans (Nat.le_of_eq (h.free id hid)))

/-- [SRC ColdRun.cc:1146-1257] A conversion: its record is the slot's. -/
theorem convert_keeps (h : SlotWorldOk cx origin recs w) {id j : Nat} (hr : w.reqs id = some r)
    {cv : Conversion} (hcv : r.conversions[j]? = some cv) {E : Encoder}
    (hundo : SlotUndoes cx origin E cv.slot) (hrecord : ∀ kind record,
      convertSlot cx E cv.slot (origBytes cx origin cv.slot) = some (kind, record) →
        record = recs cv.slot) (thrown direct has : Bool) :
    SlotWorldOk cx origin recs (w.convertOne cx id
      { r with conversions := r.conversions.eraseIdx j } cv E thrown direct has) := by
  have hreq := h.reqs id r hr
  have hb := h.balanced id r hr
  obtain ⟨hlt, hget⟩ := List.getElem?_eq_some_iff.1 hcv
  have hlen : (r.conversions.eraseIdx j).length + 1 = r.conversions.length := by
    rw [List.length_eraseIdx_of_lt hlt]
    omega
  have hcount := hb.count
  have hended := hb.not_ended (by omega)
  have hcopy : r.phase.uncopied = none := hreq.not_copying fun hidle => by
    rw [hidle.2] at hlt
    cases hlt
  have hrest : ∀ cv' ∈ r.conversions.eraseIdx j,
      slice cv'.rounded cv'.recOff cv'.recLen = origBytes cx origin cv'.slot :=
    fun cv' hcv' => hreq.conversions cv' (List.mem_of_mem_eraseIdx hcv')
  have horig := hreq.conversions cv (List.mem_of_getElem? hcv)
  unfold ColdWorld.convertOne
  simp only [horig]
  split
  · refine h.moved rfl h.infos h.wakes rfl rfl (fun _ _ => le_rfl) ?_ ⟨?_, fun ho => ?_⟩
    · exact { hreq.fails hcopy (fun _ hit => hit) with
                conversions := hrest, copying := fun _ => copying_none hcopy }
    · show r.phase.share + r.parts.length + (r.conversions.eraseIdx j).length +
        (w.fill.waiting id + told w.wakes id) ≤ r.outstanding - 1
      omega
    · exact absurd (hended.symm.trans ho) nofun
  rename_i kind record hsome
  have hconv : convertSlot cx E cv.slot (origBytes cx origin cv.slot) = some (kind, record) := by
    split at hsome
    · cases hsome
    · exact hsome
  obtain rfl := hrecord kind record hconv
  have hmade : Made cx origin recs cv.slot kind := ⟨E, hundo, hconv⟩
  generalize (cv.fromCache && (cx.rnt || decide (kind ≠ .original))) = fromCache
  have hs := @stage_ok _ _ _ w.fill h.infos cx.rnt cv.slot kind hmade fromCache (!direct) has
  generalize w.fill.stage cx.rnt cv.slot kind (recs cv.slot) fromCache (!direct) has = st at hs ⊢
  obtain ⟨cf', woken⟩ := st
  have hwaits : ∀ id', cf'.waiting id' + told woken id' ≤ w.fill.waiting id' := hs.count
  have hheld : WhereOk cx origin recs cv.slot { mem := some (recs cv.slot) } := by
    refine ⟨⟨kind, hmade⟩, ?_, nofun⟩
    intro m hm
    cases hm
    rfl
  refine h.moved rfl hs.infos ?_ rfl rfl ?_ ?_ ⟨?_, fun ho => ?_⟩
  · exact fun k hk => (List.mem_append.1 hk).elim (h.wakes k) (hs.wakes k)
  · intro id' _
    have := hwaits id'
    show cf'.waiting id' + told (w.wakes ++ woken) id' ≤ w.fill.waiting id' + told w.wakes id'
    rw [told_append]
    omega
  · exact { hreq.holdsOne hheld with conversions := hrest, copying := fun _ => copying_none hcopy }
  · have := hwaits id
    show r.phase.share + r.parts.length + (r.conversions.eraseIdx j).length +
      (cf'.waiting id + told (w.wakes ++ woken) id) ≤ r.outstanding - 1
    rw [told_append]
    omega
  · exact absurd (hended.symm.trans ho) nofun

theorem told_cons (k : Wake) (ks : List Wake) (id : Nat) :
    told (k :: ks) id = (if k.request = id then 1 else 0) + told ks id := by
  rw [told, told, List.countP_cons]
  simp only [beq_iff_eq]
  omega

/-- A waiter's callback. -/
theorem wake_keeps (h : SlotWorldOk cx origin recs w) {k : Wake} {rest : List Wake}
    (hw : w.wakes = k :: rest) (hr : w.reqs k.request = some r) :
    SlotWorldOk cx origin recs (ColdWorld.wakeOne { w with wakes := rest } k r) := by
  have hreq := h.reqs _ r hr
  have hb := h.balanced _ r hr
  have htold : ∀ id, told w.wakes id = (if k.request = id then 1 else 0) + told rest id := by
    rw [hw]
    exact told_cons k rest
  have hone := htold k.request
  rw [if_pos rfl] at hone
  have hcount := hb.count
  have hended := hb.not_ended (by omega)
  have hk := h.wakes k (by rw [hw]; exact List.mem_cons_self)
  have hbody : ∀ r₁ : ColdRequest, ReqOk cx origin recs r₁ [] → r₁.phase = r.phase →
      r₁.parts = r.parts → r₁.conversions = r.conversions → r₁.outstanding = r.outstanding →
      SlotWorldOk cx origin recs (ColdWorld.setReq { w with wakes := rest } k.request
        { r₁ with outstanding := r₁.outstanding - 1 }) := by
    intro r₁ hr₁ hphase hparts hconvs hout
    refine h.moved rfl h.infos ?_ rfl rfl ?_ { hr₁ with } ⟨?_, fun ho => ?_⟩
    · exact fun k' hk' => h.wakes k' (by rw [hw]; exact List.mem_cons_of_mem _ hk')
    · intro id' hne
      show w.fill.waiting id' + told rest id' ≤ w.fill.waiting id' + told w.wakes id'
      rw [htold, if_neg (Ne.symm hne)]
      omega
    · show r₁.phase.share + r₁.parts.length + r₁.conversions.length +
        (w.fill.waiting k.request + told rest k.request) ≤ r₁.outstanding - 1
      rw [hphase, hparts, hconvs, hout]
      omega
    · replace ho : r₁.phase.ended = true := ho
      rw [hphase] at ho
      exact absurd (hended.symm.trans ho) nofun
  unfold ColdWorld.wakeOne
  simp only
  split
  · exact hbody { r with retry := true } { hreq with } rfl rfl rfl rfl
  split
  · rename_i record hrec
    obtain ⟨rfl, kind, hmade⟩ := hk _ hrec
    refine hbody (r.hold k.slot (recs k.slot)) (hreq.holdsOne ⟨⟨kind, hmade⟩, ?_, nofun⟩) rfl rfl
      rfl rfl
    intro m hm
    cases hm
    rfl
  · exact hbody r hreq rfl rfl rfl rfl

/-- A new request: nothing of it is cut, and nothing is out but the code itself. -/
theorem reqOk_new {chunks : List Chunk} {bufs : List Bytes}
    (hfits : ∀ ch ∈ chunks, ch.off + ch.len ≤ cx.L.virtualSize)
    (hlens : bufs.map List.length = chunks.map Chunk.len) :
    ReqOk cx origin recs { chunks := chunks, bufs := bufs } [] := by
  refine ⟨hfits, hlens, nofun, ?_, nofun, nofun, nofun, nofun, nofun, nofun, nofun, nofun⟩
  intro c ch _
  show 0 = if c < 0 then ch.len else if c = 0 then 0 else 0
  simp

/-- A process starts with a fill that is right and has no waiters. -/
theorem slotWorldOk_start {fill : ColdFill} (hfill : FillOk cx origin recs fill)
    (hidle : fill.waiters = []) : SlotWorldOk cx origin recs { fill := fill } where
  infos := hfill
  wakes _ hk := absurd hk List.not_mem_nil
  committing _ hl := by cases hl
  toApply _ he := absurd he List.not_mem_nil
  reqs _ _ hr := by cases hr
  balanced _ _ hr := by cases hr
  free id _ := by simp [ColdFill.waiting, hidle]

/-- Every step keeps what is known. -/
theorem slotWorldOk_step (hsize : cx.L.originSize = origin.length) (hok : LayoutOk cx.L)
    {w' : ColdWorld} {act : ColdAct} (h : SlotWorldOk cx origin recs w)
    (hf : Faithful cx origin recs w act) (hstep : w.step cx act = some w') :
    SlotWorldOk cx origin recs w' := by
  cases act with
  | serve id chunks bufs =>
      simp only [ColdWorld.step] at hstep
      split at hstep
      · rename_i hnew
        obtain ⟨hnone, hlens, hfits⟩ := hnew
        cases hstep
        refine h.moved rfl h.infos h.wakes rfl rfl (fun _ _ => le_rfl) (reqOk_new hfits hlens)
          ⟨?_, fun hend => by cases hend⟩
        show 1 + 0 + 0 + (w.fill.waiting id + told w.wakes id) ≤ 1
        rw [h.free id hnone]
      · cases hstep
  | turn id a =>
      simp only [ColdWorld.step, Option.bind_eq_some_iff, Option.map_eq_some_iff] at hstep
      obtain ⟨r, hr, t, ht, rfl⟩ := hstep
      have hk := turn_keeps h.infos (h.reqs id r hr) (h.balanced id r hr) hsize hok (hf r hr) ht
      refine h.moved rfl hk.infos ?_ rfl rfl ?_ hk.req hk.balanced
      · exact fun k hk' => (List.mem_append.1 hk').elim (h.wakes k) (hk.wakes k)
      · intro id' hne
        have := hk.others id' hne
        simp only [told_append]
        omega
  | park id =>
      simp only [ColdWorld.step, Option.bind_eq_some_iff] at hstep
      obtain ⟨r, hr, hstep⟩ := hstep
      split at hstep
      · rename_i todo hphase
        split at hstep
        · rename_i hpark
          cases hstep
          have hcount := (h.balanced id r hr).count
          rw [hphase, hpark.2.2.2.2] at hcount
          refine h.moved rfl h.infos h.wakes rfl rfl (fun _ _ => le_rfl) ((h.reqs id r hr).again _)
            ⟨?_, fun hend => by cases hend⟩
          show 1 + 0 + 0 + (w.fill.waiting id + told w.wakes id) ≤ 1
          simp only [Phase.share] at hcount
          omega
        · cases hstep
      · cases hstep
  | reply id j data =>
      simp only [ColdWorld.step, Option.bind_eq_some_iff, Option.map_eq_some_iff] at hstep
      obtain ⟨r, hr, r', hr', rfl⟩ := hstep
      obtain ⟨hreq, hbal⟩ := reply_keeps hsize (h.reqs id r hr) (h.balanced id r hr)
        (fun part bufs hpart hdata => hf r part bufs hr hpart hdata) hr'
      exact h.moved rfl h.infos h.wakes rfl rfl (fun _ _ => le_rfl) hreq hbal
  | convert id j E thrown direct has =>
      simp only [ColdWorld.step, Option.bind_eq_some_iff, Option.map_eq_some_iff] at hstep
      obtain ⟨r, hr, cv, hcv, rfl⟩ := hstep
      obtain ⟨hundo, hrecord⟩ := hf r cv hr hcv
      exact convert_keeps h hr hcv hundo hrecord thrown direct has
  | wake =>
      simp only [ColdWorld.step] at hstep
      split at hstep
      · cases hstep
      rename_i k rest hw
      simp only [Option.map_eq_some_iff] at hstep
      obtain ⟨r, hr, rfl⟩ := hstep
      exact wake_keeps h hw hr
  | apply es =>
      simp only [ColdWorld.step] at hstep
      cases hstep
      exact h.ran (apply_ok h.infos _ hf) rfl rfl h.committing h.toApply
  | collect =>
      simp only [ColdWorld.step] at hstep
      split at hstep
      · cases hstep
      cases hstep
      obtain ⟨hs, hcollected⟩ := collect_ok h.infos
      refine h.ran hs rfl (List.append_nil _).symm ?_ h.toApply
      intro l hl
      cases hl
      exact hcollected
  | commitEnd o =>
      simp only [ColdWorld.step] at hstep
      split at hstep
      · cases hstep
      rename_i l hl
      cases o with
      | stale =>
          cases hstep
          have hs : SectionOk cx origin recs w.fill { w.fill with storeGone := true } [] :=
            SectionOk.quiet h.infos rfl
          exact h.ran (hs.after (releaseCollected_ok hs.infos l)) rfl (List.append_nil _).symm
            (fun _ hl => by cases hl) h.toApply
      | failed =>
          cases hstep
          exact h.ran (releaseCollected_ok h.infos l) rfl (List.append_nil _).symm
            (fun _ hl => by cases hl) h.toApply
      | landed es =>
          cases hstep
          have hes : ∀ e ∈ es, EntryOk cx origin recs e := by
            intro e he
            rcases hf e he with hother | ⟨l', hl', c, hc, hslot, hkind⟩
            · exact hother
            · have hmade := (h.committing l' hl' c hc).made
              rw [EntryOk, ← hslot, ← hkind]
              exact hmade
          refine h.ran (noteCommitted_ok h.infos hes l) rfl (List.append_nil _).symm
            (fun _ hl => by cases hl) ?_
          intro e he
          rcases List.mem_append.1 he with he | he
          · exact h.toApply e he
          · exact hes e (List.mem_filter.1 he).1
  | applyForgotten =>
      simp only [ColdWorld.step] at hstep
      cases hstep
      exact h.ran (apply_ok h.infos _ h.toApply) rfl rfl h.committing
        fun _ he => absurd he List.not_mem_nil
  | others p t n =>
      simp only [ColdWorld.step] at hstep
      cases hstep
      exact h.ran (SectionOk.quiet h.infos rfl) rfl (List.append_nil _).symm h.committing h.toApply

/-! ### A request that completed -/

/-- The piece brings byte `k` of chunk `c`. -/
def Piece.brings (c k : Nat) (p : Piece) : Bool :=
  decide (p.chunk = c) && (decide (p.pos ≤ k) && decide (k < p.pos + p.len))

/-- The pieces that bring a byte are the parts of its chunk that hold it. -/
theorem countP_brings (c k : Nat) (ps : List Piece) :
    ps.countP (Piece.brings c k) =
      (chunkTiles c ps).countP fun t => decide (t.lo ≤ k) && decide (k < t.hi) := by
  rw [chunkTiles, List.countP_map, List.countP_filter]
  refine List.countP_congr fun p _ => ?_
  show Piece.brings c k p = true ↔
    ((decide (p.pos ≤ k) && decide (k < p.pos + p.len)) && decide (p.chunk = c)) = true
  rw [Piece.brings, Bool.and_comm]

/-- The image of a range is those of its parts. -/
theorem image_append (off a b : Nat) :
    image cx origin recs off (a + b) =
      image cx origin recs off a ++ image cx origin recs (off + a) b := by
  simp only [image, List.range_add, List.map_append, List.map_map]
  congr 1
  refine List.map_congr_left fun t _ => ?_
  rw [Function.comp, Nat.add_assoc]

section

variable (cx origin recs)

/-- What a request that completed without error has done. -/
structure SlotServed (r : ColdRequest) : Prop where
  bytes : r.bufs = r.chunks.map fun ch => image cx origin recs ch.off ch.len
  once : ∀ c ch k, r.chunks[c]? = some ch → k < ch.len → r.pieces.countP (Piece.brings c k) = 1
  records : ∀ p ∈ r.pieces, ∀ i start, p.kind = .slot i start →
    SlotRecordOk cx origin i (recs i)

end

theorem ReqOk.tiled_done (h : ReqOk cx origin recs r []) (hdone : r.phase = .done true) {c : Nat}
    {ch : Chunk} (hch : r.chunks[c]? = some ch) : Tiled 0 (chunkTiles c r.pieces) ch.len := by
  have htiled := h.tiled c ch hch
  rw [hdone] at htiled
  exact htiled

/-- Every piece has its bytes. -/
theorem ReqOk.filled (h : ReqOk cx origin recs r []) (hdone : r.phase = .done true) {p : Piece}
    (hp : p ∈ r.pieces) : Filled cx origin recs r.chunks r.bufs p := by
  cases hk : p.kind with
  | now => exact h.nows p hp hk
  | orig off =>
      have hmem : p ∈ r.origPieces :=
        List.mem_filter.2 ⟨hp, by rw [ColdRequest.isOrig, hk]⟩
      obtain ⟨j, hj⟩ := List.mem_iff_getElem?.1 hmem
      obtain ⟨-, hfailed, hparts, -⟩ := h.copying [] (by rw [hdone]; rfl)
      rcases h.origs j p hj with hfail | hfilled | hdue
      · rw [hfailed] at hfail
        cases hfail
      · exact hfilled
      · obtain ⟨it, hit, -⟩ := hdue [] (by rw [hdone]; rfl)
        rw [hparts] at hit
        cases hit
  | slot i start =>
      have hmem : p ∈ r.slotPieces :=
        List.mem_filter.2 ⟨hp, by rw [ColdRequest.isSlot, hk]⟩
      rcases h.slots p hmem with hready | hdue
      · exact hready.1
      · exact absurd (hdue [] (by rw [hdone]; rfl)) List.not_mem_nil

/-- So every byte of every chunk is right. -/
theorem ReqOk.right (h : ReqOk cx origin recs r []) (hdone : r.phase = .done true) {c k : Nat}
    {ch : Chunk} (hch : r.chunks[c]? = some ch) (hk : k < ch.len) :
    Right cx origin recs r.chunks r.bufs c k := by
  obtain ⟨t, ht, hlo, hhi⟩ := (h.tiled_done hdone hch).at (Nat.zero_le k) hk
  obtain ⟨p, hp, rfl⟩ := List.mem_map.1 ht
  obtain ⟨hmem, hc⟩ := List.mem_filter.1 hp
  have hright := h.filled hdone hmem k hlo hhi
  rwa [of_decide_eq_true hc] at hright

theorem ReqOk.bytes (h : ReqOk cx origin recs r []) (hdone : r.phase = .done true) :
    r.bufs = r.chunks.map fun ch => image cx origin recs ch.off ch.len := by
  apply List.ext_getElem?
  intro c
  rw [List.getElem?_map]
  cases hch : r.chunks[c]? with
  | none =>
      have hlen := congrArg List.length h.lens
      rw [List.length_map, List.length_map] at hlen
      rw [List.getElem?_eq_none_iff] at hch
      exact List.getElem?_eq_none (by omega)
  | some ch =>
      obtain ⟨buf, hbuf, hlen⟩ := buf_of_chunk h.lens hch
      rw [hbuf]
      refine congrArg some ?_
      show buf = image cx origin recs ch.off ch.len
      rw [← hlen]
      refine eq_image fun k hk => ?_
      obtain ⟨ch', buf', hch', hbuf', hbyte⟩ := h.right hdone hch (k := k) (by omega)
      rw [hch] at hch'
      rw [hbuf] at hbuf'
      cases hch'
      cases hbuf'
      exact hbyte

theorem ReqOk.served (hslots : SlotsOk cx) (h : ReqOk cx origin recs r [])
    (hdone : r.phase = .done true) : SlotServed cx origin recs r := by
  refine ⟨h.bytes hdone, ?_, ?_⟩
  · intro c ch k hch hk
    rw [countP_brings]
    exact (h.tiled_done hdone hch).once (Nat.zero_le k) hk
  · intro p hp i start hkind
    have hmem : p ∈ r.slotPieces :=
      List.mem_filter.2 ⟨hp, by rw [ColdRequest.isSlot, hkind]⟩
    rcases h.slots p hmem with ⟨-, kind, hmade⟩ | hdue
    · rw [ColdRequest.slotOf, hkind] at hmade
      exact hmade.recordOk hslots
    · exact absurd (hdue [] (by rw [hdone]; rfl)) List.not_mem_nil

/-! ### Computed layouts -/

/-- A file that is shown in this layout. -/
def ColdLayout.shown (cf : ColdLayout) (D : Decoders) (hash : Bytes → UInt64)
    (codecs : List String) (pageSize : Nat) : ColdCx where
  D := D
  hash := hash
  rnt := cf.rnt
  L := cf.L
  pages := cf.pages
  codecs := codecs
  pageSize := pageSize

theorem Computed.slotsOk {E : Encoder} {hash : Bytes → UInt64} {cf : ColdLayout}
    (h : Computed E hash cf) (D : Decoders) (codecs : List String) (pageSize : Nat) :
    SlotsOk (cf.shown D hash codecs pageSize) := by
  have heach : cf.rnt = false → ∀ i, (cf.L.slots.getD i {}).origLen ≤ (cf.L.slots.getD i {}).vLen ∧
      (cf.L.slots.getD i {}).vLen < 2 ^ 31 := by
    intro hrnt i
    rw [List.getD_eq_getElem?_getD]
    cases hs : cf.L.slots[i]? with
    | none => exact ⟨Nat.le_refl _, by decide⟩
    | some s =>
        cases h with
        | tree lengths ok =>
            obtain ⟨hroom, hsmall, -⟩ :=
              ((layoutForFill_inv ok).ok lengths).2 s (List.mem_of_getElem? hs)
            exact ⟨hroom, hsmall⟩
        | ntuple ok => cases hrnt
  exact ⟨fun hrnt i => (heach hrnt i).1, fun hrnt i => (heach hrnt i).2⟩

/-- [SRC ColdRun.cc:879-1652] In every run over a file shown in a computed layout, from any state of
its slots, a request that completes has the virtual file's bytes in its buffers, each from one
piece, and the records it read are right.  A range reads the same however it is cut. -/
theorem slot_request_image {E : Encoder} {hash : Bytes → UInt64} {cf : ColdLayout}
    (hc : Computed E hash cf) (D : Decoders) (codecs : List String) (pageSize : Nat)
    {origin : Bytes} (hsize : origin.length = cf.L.originSize) (recs : Nat → Bytes)
    {fill : ColdFill} (hfill : FillOk (cf.shown D hash codecs pageSize) origin recs fill)
    (hidle : fill.waiters = []) {acts : List ColdAct} {w : ColdWorld}
    (hfaithful : Along (ColdWorld.step (cf.shown D hash codecs pageSize))
      (Faithful (cf.shown D hash codecs pageSize) origin recs) { fill := fill } acts)
    (hrun : exec (ColdWorld.step (cf.shown D hash codecs pageSize)) { fill := fill } acts = some w)
    {id : Nat} {r : ColdRequest} (hr : w.reqs id = some r) (hdone : r.phase = .done true) :
    SlotServed (cf.shown D hash codecs pageSize) origin recs r ∧
      ∀ off a b, image (cf.shown D hash codecs pageSize) origin recs off (a + b) =
        image (cf.shown D hash codecs pageSize) origin recs off a ++
          image (cf.shown D hash codecs pageSize) origin recs (off + a) b := by
  have hw := exec_invariant_along (SlotWorldOk (cf.shown D hash codecs pageSize) origin recs)
    (fun _ _ _ hs hcond hstep => slotWorldOk_step hsize.symm hc.layoutOk.1 hs hcond hstep)
    (slotWorldOk_start hfill hidle) hfaithful hrun
  exact ⟨(hw.reqs id r hr).served (hc.slotsOk D codecs pageSize) hdone, image_append⟩

/-! ### A small file read -/

/-- A basket of 50 bytes, a key header of 44 and six more. -/
def fiftyBytes (objlen keylen : Nat) : Bytes :=
  be 4 50 ++ be 2 1004 ++ be 4 objlen ++ be 4 0 ++ be 2 keylen ++ be 2 1 ++ be 8 100 ++ be 8 0 ++
    [7] ++ ascii "TBasket" ++ [0, 0] ++ [1, 2, 3, 4, 5, 6]

/-- The small file with this basket. -/
def basketFile (basket : Bytes) : Bytes := List.replicate 100 0 ++ basket ++ List.replicate 250 0

def smallShown : ColdCx := (smallLayout plainEncoder).shown plainDecoders (fun _ => 0) ["lzma"] 64

/-- What a conversion makes of a slot. -/
def smallRecs (origin : Bytes) (i : Nat) : Bytes :=
  ((convertSlot smallShown plainEncoder i (origBytes smallShown origin i)).map Prod.snd).getD []

/-- A read of two chunks: the end of the metadata record with the start of the slot, and a piece of
the origin that the byte cache has.  One part brings the basket. -/
def twoChunks (origin : Bytes) : List ColdAct :=
  let turn : ColdAct := .turn 0 {}
  [.serve 0 [⟨4150, 60⟩, ⟨60, 12⟩] [List.replicate 60 7, List.replicate 12 7]] ++
    List.replicate 3 turn ++ [.turn 0 { cached := true, bytes := slice origin 60 12 }] ++
    List.replicate 10 turn ++
    [.reply 0 0 (some [slice origin 64 128]), .convert 0 0 plainEncoder false false false] ++
    List.replicate 4 turn

/-- Actions with plain frames over a store that has nothing. -/
def PlainAct : ColdAct → Prop
  | .turn _ a => a.stored = none
  | .convert _ _ E _ _ _ => E = plainEncoder
  | .apply _ => False
  | .commitEnd _ => False
  | _ => True

theorem twoChunks_plain (origin : Bytes) : ∀ a ∈ twoChunks origin, PlainAct a := by
  intro a ha
  simp only [twoChunks, List.mem_append, List.mem_cons, List.mem_replicate, List.not_mem_nil,
    or_false] at ha
  rcases ha with (((((rfl | ⟨-, rfl⟩) | rfl) | ⟨-, rfl⟩) | (rfl | rfl)) | ⟨-, rfl⟩)
  all_goals first
    | exact trivial
    | rfl

/-- The byte cache answers only the cut, with the origin's bytes. -/
def cachedCheck (origin : Bytes) (r : ColdRequest) (a : Answers) : Bool :=
  match r.phase with
  | .classify c k => (r.chunks[c]?).all fun ch =>
      decide (classifyAt smallShown.L (ch.off + k) (ch.off + ch.len) =
        (.orig (ch.off + k), a.bytes.length)) &&
        decide (a.bytes = slice origin (ch.off + k) a.bytes.length)
  | _ => false

theorem cachedCheck_sound {a : Answers} (hstored : a.stored = none)
    (h : a.cached = true → cachedCheck origin r a = true) :
    AnswerOk smallShown origin (smallRecs origin) r a := by
  unfold AnswerOk
  split
  · rename_i c k hphase
    intro ch off n hch hat hc
    have hbytes := h hc
    simp only [cachedCheck, hphase, hch, Option.all_some, Bool.and_eq_true, decide_eq_true_eq,
      hat, Prod.mk.injEq, Source.orig.injEq] at hbytes
    rw [hbytes.1.1, hbytes.1.2]
    exact hbytes.2
  · rename_i hphase
    intro hc
    have hbytes := h hc
    rw [cachedCheck, hphase] at hbytes
    cases hbytes
  · rename_i hphase
    refine ⟨fun hc => ?_, fun m hm => ?_⟩
    · have hbytes := h hc
      rw [cachedCheck, hphase] at hbytes
      cases hbytes
    · rw [hstored] at hm
      cases hm
  · exact trivial

/-- What the wire brings is the origin's, and a conversion makes the slot's record. -/
def faithfulCheck (origin : Bytes) (w : ColdWorld) : ColdAct → Bool
  | .turn id a => (w.reqs id).all fun r => !a.cached || cachedCheck origin r a
  | .reply id j data => (w.reqs id).all fun r => (r.parts[j]?).all fun part => data.all fun bufs =>
      (part.wire.zip bufs).all fun e => decide (e.2 = slice origin e.1.off e.1.len)
  | .convert id j E _ _ _ => (w.reqs id).all fun r => (r.conversions[j]?).all fun cv =>
      (convertSlot smallShown E cv.slot (origBytes smallShown origin cv.slot)).all fun c =>
        decide (c.2 = smallRecs origin cv.slot)
  | _ => true

theorem faithfulCheck_sound {a : ColdAct} (hplain : PlainAct a)
    (h : faithfulCheck origin w a = true) : Faithful smallShown origin (smallRecs origin) w a := by
  cases a with
  | turn id a =>
      intro r hr
      refine cachedCheck_sound hplain fun hc => ?_
      simpa only [faithfulCheck, hr, Option.all_some, hc, Bool.not_true, Bool.false_or] using h
  | reply id j data =>
      rintro r part bufs hr hpart rfl e he
      simp only [faithfulCheck, hr, hpart, Option.all_some, List.all_eq_true,
        decide_eq_true_eq] at h
      exact h e he
  | convert id j E thrown direct has =>
      cases hplain
      intro r cv hr hcv
      simp only [faithfulCheck, hr, hcv, Option.all_some] at h
      refine ⟨fun k _ => plain_undone _ 1, ?_⟩
      intro kind record hconv
      rw [hconv] at h
      simpa using h
  | apply es => exact hplain.elim
  | commitEnd o => exact hplain.elim
  | serve id chunks bufs => exact trivial
  | park id => exact trivial
  | wake => exact trivial
  | collect => exact trivial
  | applyForgotten => exact trivial
  | others p t n => exact trivial

theorem small_faithful (h : alongB (ColdWorld.step smallShown) (faithfulCheck origin) { fill := {} }
      (twoChunks origin) = true) :
    Along (ColdWorld.step smallShown) (Faithful smallShown origin (smallRecs origin))
      { fill := {} } (twoChunks origin) :=
  along_of_check (fun _ => True) PlainAct (fun _ _ _ _ _ _ => trivial)
    (fun _ _ _ => faithfulCheck_sound) trivial (twoChunks_plain origin) h

/-- The request of two chunks completed, and read the slot from its start. -/
def slotRead (r : ColdRequest) : Bool :=
  (match r.phase with
    | .done ok => ok
    | _ => false) && decide (r.chunks = [⟨4150, 60⟩, ⟨60, 12⟩]) &&
      r.pieces.any fun p => decide (p.kind = .slot 0 0)

theorem slotRead_inv (h : slotRead r = true) :
    r.phase = .done true ∧ r.chunks = [⟨4150, 60⟩, ⟨60, 12⟩] ∧
      ∃ p ∈ r.pieces, p.kind = .slot 0 0 := by
  simp only [slotRead, Bool.and_eq_true, List.any_eq_true, decide_eq_true_eq] at h
  obtain ⟨⟨hdone, hchunks⟩, hpiece⟩ := h
  refine ⟨?_, hchunks, hpiece⟩
  split at hdone
  · rename_i ok hphase
    rw [hphase, hdone]
  · cases hdone

theorem small_exec {origin : Bytes}
    (h : (exec (ColdWorld.step smallShown) { fill := {} } (twoChunks origin)).any
      (fun w => (w.reqs 0).any slotRead) = true) :
    ∃ w r, exec (ColdWorld.step smallShown) { fill := {} } (twoChunks origin) = some w ∧
      w.reqs 0 = some r ∧ slotRead r = true := by
  obtain ⟨w, hw, hreq⟩ := (Option.any_eq_true _ _).1 h
  obtain ⟨r, hr, hread⟩ := (Option.any_eq_true _ _).1 hreq
  exact ⟨w, r, hw, hr, hread⟩

/-- The file whose basket has a key that covers its header. -/
def goodFile : Bytes := basketFile (fiftyBytes 6 44)

/-- The file whose basket says a key of 20 bytes: its payload starts inside of the key. -/
def shortFile : Bytes := basketFile (fiftyBytes 30 20)

set_option maxRecDepth 20000 in
/-- A vector read of two chunks, one over the slot. -/
theorem two_chunks_image : ∃ w r,
    exec (ColdWorld.step smallShown) { fill := {} } (twoChunks goodFile) = some w ∧
      w.reqs 0 = some r ∧ r.chunks = [⟨4150, 60⟩, ⟨60, 12⟩] ∧
      SlotServed smallShown goodFile (smallRecs goodFile) r := by
  obtain ⟨w, r, hw, hr, hread⟩ := @small_exec goodFile (by decide +kernel)
  obtain ⟨hdone, hchunks, -⟩ := slotRead_inv hread
  exact ⟨w, r, hw, hr, hchunks,
    (slot_request_image (smallLayout_computed (fun _ => 0) (by decide +kernel)) plainDecoders
      ["lzma"] 64 (by decide +kernel) (smallRecs goodFile) (fun _ _ hs => by cases hs) rfl
      (small_faithful (by decide +kernel)) hw hr hdone).1⟩

set_option maxRecDepth 20000 in
/-- A basket whose key says less than its header: pointed at the slot, it decodes to something
else. -/
theorem short_key_slot_differs : Computed plainEncoder (fun _ => 0) (smallLayout plainEncoder) ∧
    ¬ ∀ (origin : Bytes) (recs : Nat → Bytes) (acts : List ColdAct) (w : ColdWorld)
        (r : ColdRequest), origin.length = smallShown.L.originSize →
      Along (ColdWorld.step smallShown) (Faithful smallShown origin recs) { fill := {} } acts →
      exec (ColdWorld.step smallShown) { fill := {} } acts = some w → w.reqs 0 = some r →
      r.phase = .done true → ∀ p ∈ r.pieces, ∀ i start, p.kind = .slot i start →
        ∀ payload, decodeBasket smallShown.D (origBytes smallShown origin i) = some payload →
          decodeBasket smallShown.D (recs i) = some payload := by
  refine ⟨smallLayout_computed _ (by decide +kernel), fun hall => ?_⟩
  obtain ⟨w, r, hw, hr, hread⟩ := @small_exec shortFile (by decide +kernel)
  obtain ⟨hdone, -, p, hp, hkind⟩ := slotRead_inv hread
  have hsame := hall shortFile (smallRecs shortFile) (twoChunks shortFile) w r (by decide +kernel)
    (small_faithful (by decide +kernel)) hw hr hdone p hp 0 0 hkind
    ((origBytes smallShown shortFile 0).drop 20) (by decide +kernel)
  revert hsame
  decide +kernel

end UCache
