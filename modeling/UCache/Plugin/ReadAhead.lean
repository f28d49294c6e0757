/-
Module: UCache.Plugin.ReadAhead
Purpose: Read-ahead as a run: its prediction threads with the fills and closes they work on, the
  requests they send, and the completions of these.
Trusted boundary: none
Main exports: PrefetchHandle, candidates, takeWindow
-/
import UCache.Lib.SortedLists
import UCache.Plugin.BasketMap
import UCache.Plugin.PrefetchStages

namespace UCache

open Lib

/-! ### What is known of a handle -/

/-- [SRC Prefetch.cc:160-163] A basket that was read ahead. -/
structure Issued where
  g : Nat
  off : Nat
  len : Nat
deriving DecidableEq, Repr

/-- [SRC Prefetch.cc:149-165] What a prediction thread knows of a handle.  The frontier of a branch
is the highest place in it that was asked for, -1 before there is one. -/
structure PrefetchHandle where
  table : Option BasketTable := none
  parseTries : Nat := 0
  noTable : Bool := false
  frontier : List Int := []
  share : List Nat := []
  fills : Nat := 0
  barren : Nat := 0
  shadow : List Nat := []
  issued : List Issued := []
  closed : Bool := false
deriving DecidableEq, Repr

def kParseTries : Nat := 3

def kBarrenFills : Nat := 4

def kGateMinIssued : Nat := 64 * 2 ^ 20

namespace PrefetchHandle

/-- [SRC Prefetch.cc:489-514] The search for a basket map: `confirmed` is the process's switch,
`hasHeader` whether the start of the file is here, and `parsed` what the parse would find. -/
def findTable (h : PrefetchHandle) (confirmed hasHeader : Bool) (parsed : Option BasketTable) :
    PrefetchHandle :=
  if h.table ≠ none ∨ h.noTable then h
  else if ¬ confirmed ∧ h.fills < 2 then h
  else if ¬ hasHeader then h
  else
    match parsed with
    | none =>
        { h with
          parseTries := h.parseTries + 1
          noTable := decide (kParseTries ≤ h.parseTries + 1) }
    | some t =>
        { h with
          table := some t
          frontier := List.replicate t.nb.length (-1)
          share := List.replicate t.nb.length 0 }

/-- [SRC Prefetch.cc:524-538] A fill that asked for no basket of the table. -/
def noteBarren (h : PrefetchHandle) : PrefetchHandle :=
  if kBarrenFills ≤ h.barren + 1 then
    { h with barren := h.barren + 1, table := none, noTable := true }
  else { h with barren := h.barren + 1 }

end PrefetchHandle

/-! ### A fill -/

/-- [SRC Prefetch.cc:518-523, 540-541] The baskets that the chunks are made of, each once. -/
def fillBaskets (t : BasketTable) (chunks : List (Nat × Nat)) : List Nat :=
  unique ((chunks.flatMap fun c => (t.decompose c.1 c.2).getD []).insertionSort (· ≤ ·))

/-- [SRC Prefetch.cc:519-523] -/
def fillBytes (chunks : List (Nat × Nat)) : Nat := (chunks.map Prod.snd).sum

/-- [SRC Prefetch.cc:549-552] How far each branch got. -/
def advanceFrontier (t : BasketTable) (frontier : List Int) (gs : List Nat) : List Int :=
  gs.foldl (fun f g => f.set (t.branchOf g) (max (f.getD (t.branchOf g) (-1)) (t.indexOf g)))
    frontier

/-- [SRC Prefetch.cc:548-554] What each branch drew. -/
def drawn (t : BasketTable) (gs : List Nat) : List Nat :=
  gs.foldl (fun p g => p.set (t.branchOf g) (p.getD (t.branchOf g) 0 + u64 (t.sizeOf g)))
    (List.replicate t.nb.length 0)

/-- [SRC Prefetch.cc:555-559] The shares to note, by the branch's name. -/
def shareNotes (t : BasketTable) (per : List Nat) : List (Bytes × Nat) :=
  (t.names.zip per).filter fun p => decide (p.2 ≠ 0)

/-- [SRC Prefetch.cc:562-568] The bytes of a fill that were predicted. -/
def predictedBytes (t : BasketTable) (gs shadow : List Nat) : Nat :=
  ((gs.filter fun g => shadow.contains g).map fun g => u64 (t.sizeOf g)).sum

/-- [SRC Prefetch.cc:583-584] The fills before the last one went past the basket. -/
def passedOver (t : BasketTable) (prev : List Int) (i : Issued) : Bool :=
  decide ((t.indexOf i.g : Int) ≤ prev.getD (t.branchOf i.g) (-1))

/-! ### The prediction -/

/-- [SRC Prefetch.cc:627-630] A basket that may be read next. -/
structure Next where
  g : Nat
  es : Int
  seek : Int
  size : Int
deriving DecidableEq, Repr

/-- [SRC Prefetch.cc:637-642] The baskets of a branch from a place on, until its budget is drawn. -/
def nextOf (t : BasketTable) (b budget : Nat) : Nat → Nat → Nat → List Next
  | 0, _, _ => []
  | fuel + 1, i, cum =>
      if i < t.nb.getD b 0 ∧ cum < budget then
        let g := (t.boff.getD b 0 + i) % 2 ^ 32
        ⟨g, t.es.getD g 0, t.seekOf g, t.sizeOf g⟩ ::
          nextOf t b budget fuel (i + 1) (add64 cum (u64 (t.sizeOf g)))
      else []

/-- [SRC Prefetch.cc:631-643] What each branch may draw in the next `depth` fills, in the order of
the branches. -/
def candidates (t : BasketTable) (h : PrefetchHandle) (depth : Nat) (shares : Bytes → Nat) :
    List Next :=
  (List.range t.nb.length).flatMap fun b =>
    let budget := max (h.share.getD b 0) (shares (t.names.getD b []))
    if budget = 0 then []
    else nextOf t b (budget * depth % 2 ^ 64) (t.nb.getD b 0) (h.frontier.getD b (-1) + 1).toNat 0

/-- [SRC Prefetch.cc:657-663] What fits the window. -/
def takeWindow (window : Nat) : Nat → List Next → List Next
  | _, [] => []
  | cum, c :: rest =>
      if cum < window then c :: takeWindow window (add64 cum (u64 c.size)) rest else []

/-- [SRC Prefetch.cc:647-656] What of the window is left under the memory's limit. -/
def windowLeft (window ramCap held : Nat) : Nat :=
  min window (if held < ramCap then ramCap - held else 0)

/-- [SRC Prefetch.cc:631-663] The baskets to read next, in the order of their entries. -/
def predict (t : BasketTable) (h : PrefetchHandle) (depth window : Nat) (shares : Bytes → Nat) :
    List Next :=
  takeWindow window 0 ((candidates t h depth shares).insertionSort fun a b =>
    a.es < b.es ∨ a.es = b.es ∧ a.seek ≤ b.seek)

/-- [SRC Prefetch.cc:798-811] The baskets rounded to pages, in order and coalesced. -/
def issueRuns (pageSize fileSize : Nat) (cand : List Next) : List (Nat × Nat) :=
  let ivals := cand.map fun c => roundSpan pageSize fileSize (u64 c.seek) (u64 c.size)
  let sorted := ivals.insertionSort fun a b => a.1 < b.1 ∨ a.1 = b.1 ∧ a.2 ≤ b.2
  sorted.foldl addSpan []

/-- The first of each group of neighbours with one index, behind one with index `g`. -/
def uniqueIssued (g : Nat) : List Issued → List Issued
  | [] => []
  | i :: l => if i.g = g then uniqueIssued g l else i :: uniqueIssued i.g l

/-- [SRC Prefetch.cc:899-911] The baskets that were read ahead, with the new ones, each once. -/
def recordIssued (issued : List Issued) (cand : List Next) : List Issued :=
  let new := cand.map fun c => (⟨c.g, u64 c.seek, u64 c.size⟩ : Issued)
  match (issued ++ new).insertionSort fun a b => a.g ≤ b.g with
  | [] => []
  | i :: l => i :: uniqueIssued i.g l

/-! ### The process -/

/-- The settings, and the files.  `covers` and `wasteful` are the two comparisons of floating-point
numbers: a prediction that covers enough of a fill, and too much that was never used. -/
structure AheadSetup where
  prefetch : Bool
  /-- There is a stage to put bytes in. -/
  buffered : Bool
  depth : Nat
  window : Nat
  ramCap : Nat
  bridge : Nat
  /-- The prediction thread of a handle. -/
  shard : Nat → Nat
  /-- The entry of a handle's file. -/
  entryOf : Nat → Nat
  pageSize : Nat → Nat
  fileSize : Nat → Nat
  covers : Nat → Nat → Bool
  wasteful : Nat → Nat → Bool

/-- [SRC Prefetch.cc:261-267] A fill that waits to be looked at. -/
structure FillJob where
  handle : Nat
  entry : Nat
  chunks : List (Nat × Nat)
deriving DecidableEq, Repr

/-- Where a request for bytes ahead stands. -/
inductive WirePhase where
  /-- Its ranges are being announced: those that are left. -/
  | announcing (left : List (Nat × Nat))
  | flying
  /-- It came back: the ranges that are yet to be staged. -/
  | landing (left : List (Nat × Nat))
  /-- The handle was found open, and a range is about to be staged. -/
  | staging (r : Nat × Nat) (left : List (Nat × Nat))
  /-- Its handler is being destroyed. -/
  | ending
  /-- Its bytes are given back. -/
  | counted
deriving DecidableEq, Repr

/-- [SRC Prefetch.cc:694-790] -/
structure WireHandler where
  handle : Nat
  entry : Nat
  elems : List Elem
  announced : List (Nat × Nat) := []
  phase : WirePhase
deriving DecidableEq, Repr

/-- [SRC Prefetch.cc:870] -/
def WireHandler.bytes (x : WireHandler) : Nat := (x.elems.map fun el => el.wire.len).sum

/-- Where a prediction thread stands. -/
inductive AheadPc where
  | idle
  | looking (j : FillJob)
  /-- The shares that are left to note; the fill's baskets, and the frontier before it. -/
  | noting (j : FillJob) (gs : List Nat) (prev : List Int) (left : List (Bytes × Nat))
  | passing (j : FillJob) (prev : List Int)
  | predicting (j : FillJob)
  /-- The ranges that are left to look for, and what is absent of the others. -/
  | scanning (j : FillJob) (cand : List Next) (runs absent : List (Nat × Nat))
  /-- The requests that are left, and the bytes of those that were taken. -/
  | sending (j : FillJob) (cand : List Next) (parts : List (List Elem)) (sent : Nat)
  | asking (j : FillJob) (cand : List Next) (parts : List (List Elem)) (sent k : Nat)
  | refused (j : FillJob) (cand : List Next) (sent k : Nat)
  | recording (j : FillJob) (cand : List Next) (sent : Nat)
  /-- The handle is marked as closed, and its baskets are to be dropped, for a close with the
  entry. -/
  | dropping (h : Nat) (hasEntry : Bool)
deriving DecidableEq, Repr

/-- [SRC Prefetch.cc:175-184, 278] What the prediction threads share, with what each of them owns and the
requests on their way.  `noted` has what was announced to an entry and not withdrawn, `owed` the
baskets of a handle that were recorded and not dropped since. -/
structure AheadWorld where
  confirmed : Bool := false
  disabled : Bool := false
  issued : Nat := 0
  inflight : Nat := 0
  shareByName : Bytes → Nat := fun _ => 0
  handles : Nat → Option PrefetchHandle := fun _ => none
  swept : Nat → Bool := fun _ => false
  owed : Nat → Nat → Bool := fun _ _ => false
  wires : Nat → Option WireHandler := fun _ => none
  made : Nat := 0
  noted : Nat → List (Nat × Nat) := fun _ => []
  job : Nat → AheadPc := fun _ => .idle

namespace AheadWorld

def setHandle (w : AheadWorld) (h : Nat) (p : PrefetchHandle) : AheadWorld :=
  { w with handles := Function.update w.handles h (some p) }

def setJob (w : AheadWorld) (s : Nat) (pc : AheadPc) : AheadWorld :=
  { w with job := Function.update w.job s pc }

def setWire (w : AheadWorld) (k : Nat) (x : Option WireHandler) : AheadWorld :=
  { w with wires := Function.update w.wires k x }

/-- Baskets of a handle are recorded. -/
def owe (w : AheadWorld) (h : Nat) (gs : List Nat) : AheadWorld :=
  { w with owed := Function.update w.owed h fun g => w.owed h g || gs.contains g }

/-- [SRC Prefetch.cc:389-391, 455-457, 584-585, 597-598] The pages of baskets are dropped. -/
def dropAll (w : AheadWorld) (h : Nat) (issued : List Issued) : AheadWorld :=
  { w with owed := Function.update w.owed h fun g =>
      w.owed h g && !(issued.map Issued.g).contains g }

end AheadWorld

/-! ### Its steps -/

inductive AheadAct where
  /-- Thread `s` takes up a fill. -/
  | fill (s : Nat) (j : FillJob)
  | parse (s : Nat) (hasHeader : Bool) (parsed : Option BasketTable)
  | noteShare (s : Nat)
  | judge (s : Nat)
  /-- `never` is what all entries say was never used. -/
  | passOver (s never : Nat)
  /-- `shares` is what was read, name after name, `staged` what all entries have staged. -/
  | predict (s : Nat) (shares : Bytes → Nat) (staged : Nat)
  /-- `here` has the pages that the entry has, or that others fetch. -/
  | scan (s : Nat) (here : Nat → Bool)
  | cut (s : Nat)
  /-- `opened` says whether the origin is open. -/
  | acquire (s : Nat) (opened : Bool)
  | announce (s : Nat)
  | send (s : Nat) (taken : Bool)
  | giveUp (s : Nat)
  | record (s : Nat)
  /-- Request `k` comes back. -/
  | land (k : Nat) (ok : Bool)
  | look (k : Nat)
  | stage (k : Nat)
  | uncount (k : Nat)
  | withdraw (k : Nat)
  /-- Thread `s` takes up a close, which has the entry or comes without. -/
  | close (s h : Nat) (hasEntry : Bool)
  | drop (s : Nat)
  /-- The state of a handle that is gone is swept. -/
  | sweep (s h : Nat)

namespace AheadWorld

variable (S : AheadSetup)

/-- [SRC Prefetch.cc:472-604] The steps of a fill up to its prediction. -/
def fillStep (w : AheadWorld) : AheadAct → Option AheadWorld
  | .fill s j =>
      if w.job s = .idle ∧ S.shard j.handle = s ∧ w.swept j.handle = false then
        if ¬ S.prefetch ∨ w.disabled ∨ ¬ S.buffered then some w
        else
          let p := (w.handles j.handle).getD {}
          if p.closed then some (w.setHandle j.handle p)
          else some ((w.setHandle j.handle { p with fills := p.fills + 1 }).setJob s (.looking j))
      else none
  | .parse s hasHeader parsed =>
      match w.job s with
      | .looking j =>
          (w.handles j.handle).map fun p =>
            let p := p.findTable w.confirmed hasHeader parsed
            match p.table with
            | none => (w.setHandle j.handle p).setJob s .idle
            | some t =>
                let gs := fillBaskets t j.chunks
                if gs = [] then (w.setHandle j.handle p.noteBarren).setJob s .idle
                else
                  let per := drawn t gs
                  (w.setHandle j.handle { p with
                    barren := 0
                    frontier := advanceFrontier t p.frontier gs
                    share := List.zipWith max p.share per }).setJob s
                      (.noting j gs p.frontier (shareNotes t per))
      | _ => none
  | .noteShare s =>
      match w.job s with
      | .noting j gs prev (p :: left) =>
          let noted := max (w.shareByName p.1) p.2
          some ({ w with shareByName := Function.update w.shareByName p.1 noted }.setJob s
            (.noting j gs prev left))
      | _ => none
  | .judge s =>
      match w.job s with
      | .noting j gs prev [] =>
          (w.handles j.handle).bind fun p => p.table.map fun t =>
            let good := decide (p.shadow ≠ []) && decide (fillBytes j.chunks ≠ 0) &&
              S.covers (predictedBytes t gs p.shadow) (fillBytes j.chunks)
            { w with confirmed := w.confirmed || good }.setJob s (.passing j prev)
      | _ => none
  | .passOver s never =>
      match w.job s with
      | .passing j prev =>
          (w.handles j.handle).bind fun p => p.table.map fun t =>
            let w' := w.dropAll j.handle (p.issued.filter (passedOver t prev))
            let keep := p.issued.filter fun i => !passedOver t prev i
            if kGateMinIssued ≤ w.issued ∧ S.wasteful never w.issued then
              { (w'.dropAll j.handle keep).setHandle j.handle { p with issued := [] } with
                disabled := true }.setJob s .idle
            else (w'.setHandle j.handle { p with issued := keep }).setJob s (.predicting j)
      | _ => none
  | _ => none

/-- [SRC Prefetch.cc:617-672, 794-923] The steps of a prediction, and of its requests up to their
sending. -/
def issueStep (w : AheadWorld) : AheadAct → Option AheadWorld
  | .predict s shares staged =>
      match w.job s with
      | .predicting j =>
          (w.handles j.handle).bind fun p => p.table.bind fun t =>
            if t.names.all fun n => decide (shares n ≤ w.shareByName n) then
              let cand := UCache.predict t p S.depth
                (windowLeft (S.window * S.depth) S.ramCap (staged + w.inflight)) shares
              let w' := w.setHandle j.handle
                { p with shadow := (cand.map Next.g).insertionSort (· ≤ ·) }
              some (w'.setJob s
                (if cand = [] ∨ ¬ w.confirmed then .idle
                else
                  .scanning j cand (issueRuns (S.pageSize j.entry) (S.fileSize j.entry) cand) []))
            else none
      | _ => none
  | .scan s here =>
      match w.job s with
      | .scanning j cand (r :: runs) absent =>
          let flight := (w.noted j.entry).flatMap fun q =>
            (clipPages (S.pageSize j.entry) (S.fileSize j.entry) q).toList
          let held := fun i => here i || Presence.pageInFlight flight i
          some (w.setJob s (.scanning j cand runs (absent ++
            absentRuns (S.pageSize j.entry) (S.fileSize j.entry) held r.1 (r.2 - r.1))))
      | _ => none
  | .cut s =>
      match w.job s with
      | .scanning j cand [] absent =>
          some (w.setJob s (if absent = [] then .idle
            else .sending j cand
              (elemParts (prefetchElems (S.pageSize j.entry) S.bridge absent.length absent)) 0))
      | _ => none
  | .acquire s opened =>
      match w.job s with
      | .sending j cand [] sent => some (w.setJob s (.recording j cand sent))
      | .sending j cand (part :: parts) sent =>
          if opened then
            let x : WireHandler := ⟨j.handle, j.entry, part, [], .announcing (stagesOf part)⟩
            some ({ w.setWire w.made (some x) with
              made := w.made + 1
              inflight := w.inflight + x.bytes }.setJob s (.asking j cand parts sent w.made))
          else some (w.setJob s (.recording j cand sent))
      | _ => none
  | .announce s =>
      match w.job s with
      | .asking j _ _ _ k =>
          (w.wires k).bind fun x =>
            match x.phase with
            | .announcing (r :: left) =>
                some { w.setWire k (some { x with
                    announced := x.announced ++ [r]
                    phase := .announcing left }) with
                  noted := Function.update w.noted j.entry (w.noted j.entry ++ [r]) }
            | _ => none
      | _ => none
  | .send s taken =>
      match w.job s with
      | .asking j cand parts sent k =>
          (w.wires k).bind fun x =>
            if x.phase = .announcing [] then
              some (if taken then
                (w.setWire k (some { x with phase := .flying })).setJob s
                  (.sending j cand parts (sent + ((stagesOf x.elems).map Prod.snd).sum))
              else
                (w.setWire k (some { x with phase := .ending })).setJob s (.refused j cand sent k))
            else none
      | _ => none
  | .giveUp s =>
      match w.job s with
      | .refused j cand sent k =>
          if w.wires k = none then some (w.setJob s (.recording j cand sent)) else none
      | _ => none
  | .record s =>
      match w.job s with
      | .recording j cand sent =>
          (w.handles j.handle).map fun p =>
            if sent = 0 then w.setJob s .idle
            else
              { (w.owe j.handle (cand.map Next.g)).setHandle j.handle
                  { p with issued := recordIssued p.issued cand } with
                issued := w.issued + sent }.setJob s .idle
      | _ => none
  | _ => none

/-- [SRC Prefetch.cc:711-779] The steps of a request that is on its way. -/
def wireStep (w : AheadWorld) : AheadAct → Option AheadWorld
  | .land k ok =>
      (w.wires k).bind fun x =>
        if x.phase = .flying then
          some (w.setWire k (some { x with
            phase := if ok then .landing (stagesOf x.elems) else .ending }))
        else none
  | .look k =>
      (w.wires k).bind fun x =>
        match x.phase with
        | .landing (r :: left) =>
            (w.handles x.handle).map fun p => w.setWire k (some { x with
              phase := if p.closed then .landing left else .staging r left })
        | .landing [] => some (w.setWire k (some { x with phase := .ending }))
        | _ => none
  | .stage k =>
      (w.wires k).bind fun x =>
        match x.phase with
        | .staging _ left => some (w.setWire k (some { x with phase := .landing left }))
        | _ => none
  | .uncount k =>
      (w.wires k).bind fun x =>
        if x.phase = .ending then
          some { w.setWire k (some { x with phase := .counted }) with
            inflight := w.inflight - x.bytes }
        else none
  | .withdraw k =>
      (w.wires k).bind fun x =>
        if x.phase = .counted then
          some { w.setWire k none with
            noted := Function.update w.noted x.entry ((w.noted x.entry).diff (stagesOf x.elems)) }
        else none
  | _ => none

/-- [SRC Prefetch.cc:382-395, 449-470] The end of a handle. -/
def closeStep (w : AheadWorld) : AheadAct → Option AheadWorld
  | .close s h hasEntry =>
      if w.job s = .idle ∧ S.shard h = s ∧ w.swept h = false then
        match w.handles h with
        | none => some w
        | some p => some ((w.setHandle h { p with closed := true }).setJob s (.dropping h hasEntry))
      else none
  | .drop s =>
      match w.job s with
      | .dropping h hasEntry =>
          (w.handles h).map fun p =>
            let w' := if hasEntry then w.dropAll h p.issued else w
            (w'.setHandle h { p with
              issued := []
              shadow := []
              frontier := []
              share := []
              table := none }).setJob s .idle
      | _ => none
  | .sweep s h =>
      if w.job s = .idle ∧ S.shard h = s then
        (w.handles h).map fun p =>
          { (w.dropAll h p.issued).setHandle h { p with issued := [], shadow := [] } with
            swept := Function.update w.swept h true }
      else none
  | _ => none

def step (w : AheadWorld) (act : AheadAct) : Option AheadWorld :=
  w.fillStep S act <|> w.issueStep S act <|> w.wireStep act <|> w.closeStep S act

end AheadWorld

/-! ### What is predicted -/

/-- The table of a file whose baskets lie inside of it: a place in a branch has an index of its
own. -/
structure BasketTable.Proper (t : BasketTable) (fileSize : Nat) : Prop where
  place : ∀ b i, i < t.nb.getD b 0 → t.boff.getD b 0 + i < 2 ^ 32 ∧
    t.branchOf (t.boff.getD b 0 + i) = b ∧ t.indexOf (t.boff.getD b 0 + i) = i
  bytes : ∀ g, 0 ≤ t.seekOf g ∧ 0 ≤ t.sizeOf g ∧ t.sizeOf g < 2 ^ 31
  inside : ∀ g, t.seekOf g < fileSize ∧ t.seekOf g + t.sizeOf g ≤ fileSize

/-- The baskets are ones of the table that no fill went up to. -/
structure AheadOf (t : BasketTable) (frontier : List Int) (cand : List Next) : Prop where
  beyond : ∀ c ∈ cand, frontier.getD (t.branchOf c.g) (-1) < t.indexOf c.g
  seek : ∀ c ∈ cand, c.seek = t.seekOf c.g
  size : ∀ c ∈ cand, c.size = t.sizeOf c.g

section Predicted

variable {t : BasketTable} {fileSize : Nat} {p : PrefetchHandle}

theorem nextOf_spec (ht : t.Proper fileSize) {b budget fuel i cum : Nat} {c : Next}
    (hc : c ∈ nextOf t b budget fuel i cum) :
    ∃ j, i ≤ j ∧ t.branchOf c.g = b ∧ t.indexOf c.g = j ∧ c.seek = t.seekOf c.g ∧
      c.size = t.sizeOf c.g := by
  induction fuel generalizing i cum with
  | zero => exact absurd hc List.not_mem_nil
  | succ fuel ih =>
      rw [nextOf] at hc
      split at hc
      · rename_i hin
        obtain ⟨hlt, hb, hi⟩ := ht.place b i hin.1
        rcases List.mem_cons.1 hc with rfl | hc
        · simp only [Nat.mod_eq_of_lt hlt]
          exact ⟨i, le_refl _, hb, hi, trivial, trivial⟩
        · obtain ⟨j, hle, hj⟩ := ih hc
          exact ⟨j, by omega, hj⟩
      · exact absurd hc List.not_mem_nil

theorem candidates_ahead (ht : t.Proper fileSize) (depth : Nat) (shares : Bytes → Nat) :
    AheadOf t p.frontier (candidates t p depth shares) := by
  have hmem : ∀ c ∈ candidates t p depth shares, p.frontier.getD (t.branchOf c.g) (-1) <
      t.indexOf c.g ∧ c.seek = t.seekOf c.g ∧ c.size = t.sizeOf c.g := by
    intro c hc
    obtain ⟨b, -, hc⟩ := List.mem_flatMap.1 hc
    simp only at hc
    split at hc
    · exact absurd hc List.not_mem_nil
    · obtain ⟨j, hle, hb, hj, hseek, hsize⟩ := nextOf_spec ht hc
      rw [hb, hj]
      exact ⟨by omega, hseek, hsize⟩
  exact ⟨fun c hc => (hmem c hc).1, fun c hc => (hmem c hc).2.1, fun c hc => (hmem c hc).2.2⟩

theorem takeWindow_sublist (window cum : Nat) (cand : List Next) :
    (takeWindow window cum cand).Sublist cand := by
  induction cand generalizing cum with
  | nil => exact List.Sublist.refl _
  | cons c rest ih =>
      rw [takeWindow]
      split
      · exact (ih _).cons_cons c
      · exact List.nil_sublist _

/-- All but the last of what is taken stay under the window. -/
theorem takeWindow_bound {window : Nat} (hwindow : window < 2 ^ 52) {cand : List Next}
    (hsize : ∀ c ∈ cand, u64 c.size < 2 ^ 31) {cum : Nat} (hne : takeWindow window cum cand ≠ []) :
    cum + ((takeWindow window cum cand).dropLast.map fun c => u64 c.size).sum < window := by
  induction cand generalizing cum with
  | nil => exact absurd rfl hne
  | cons c rest ih =>
      rw [takeWindow] at hne ⊢
      split at hne
      · rename_i hlt
        rw [if_pos hlt]
        have hc := hsize c List.mem_cons_self
        have hsum : add64 cum (u64 c.size) = cum + u64 c.size := Nat.mod_eq_of_lt (by omega)
        by_cases hrest : takeWindow window (add64 cum (u64 c.size)) rest = []
        · rw [hrest]
          exact hlt
        · have hind := ih (fun d hd => hsize d (List.mem_cons_of_mem _ hd)) hrest
          rw [List.dropLast_cons_of_ne_nil hrest, List.map_cons, List.sum_cons]
          rw [hsum] at hind ⊢
          omega
      · exact absurd rfl hne

theorem u64_lt {v : Int} {n : Nat} (h : 0 ≤ v) (hlt : v < n) (hn : n ≤ 2 ^ 64) : u64 v < n := by
  rw [u64, Int.emod_eq_of_lt h (by omega)]
  omega

/-- What is predicted is ahead of the frontier, and all but the last of it stays under the
window. -/
theorem predict_spec (ht : t.Proper fileSize) (depth : Nat) {window : Nat}
    (hwindow : window < 2 ^ 52) (shares : Bytes → Nat) :
    AheadOf t p.frontier (predict t p depth window shares) ∧
      (predict t p depth window shares ≠ [] →
        ((predict t p depth window shares).dropLast.map fun c => u64 c.size).sum < window) := by
  have hahead := candidates_ahead (p := p) ht depth shares
  have hmem : ∀ {c}, c ∈ (candidates t p depth shares).insertionSort (fun a b =>
      a.es < b.es ∨ a.es = b.es ∧ a.seek ≤ b.seek) → c ∈ candidates t p depth shares :=
    fun hc => (List.perm_insertionSort _ _).mem_iff.1 hc
  constructor
  · have hsub : ∀ c ∈ predict t p depth window shares, c ∈ candidates t p depth shares :=
      fun c hc => hmem ((takeWindow_sublist _ _ _).subset hc)
    exact ⟨fun c hc => hahead.beyond c (hsub c hc), fun c hc => hahead.seek c (hsub c hc),
      fun c hc => hahead.size c (hsub c hc)⟩
  · intro hne
    have hbound := @takeWindow_bound window hwindow ((candidates t p depth shares).insertionSort
      fun a b => a.es < b.es ∨ a.es = b.es ∧ a.seek ≤ b.seek) ?_ 0 hne
    · rw [Nat.zero_add] at hbound
      exact hbound
    · intro c hc
      rw [hahead.size c (hmem hc)]
      have hbytes := ht.bytes c.g
      exact u64_lt hbytes.2.1 (by omega) (by omega)

end Predicted

/-! ### What is recorded -/

theorem uniqueIssued_spec {g : Nat} {l : List Issued} (hfrom : ∀ i ∈ l, g ≤ i.g)
    (hsorted : l.Pairwise fun a b => a.g ≤ b.g) :
    ((uniqueIssued g l).map Issued.g).Pairwise (· < ·) ∧
      (∀ i ∈ uniqueIssued g l, g < i.g) ∧
        ∀ x, x ∈ (uniqueIssued g l).map Issued.g ↔ x ∈ l.map Issued.g ∧ x ≠ g := by
  induction l generalizing g with
  | nil =>
      refine ⟨List.Pairwise.nil, fun i hi => absurd hi List.not_mem_nil, fun x => ?_⟩
      exact ⟨fun h => absurd h List.not_mem_nil, fun h => absurd h.1 List.not_mem_nil⟩
  | cons i rest ih =>
      obtain ⟨hfirst, hrest⟩ := List.pairwise_cons.1 hsorted
      have hi := hfrom i List.mem_cons_self
      rw [uniqueIssued]
      split
      · rename_i heq
        obtain ⟨h1, h2, h3⟩ := ih (g := g) (fun j hj => heq ▸ hfirst j hj) hrest
        refine ⟨h1, h2, fun x => ?_⟩
        rw [h3, List.map_cons, List.mem_cons]
        grind
      · rename_i hne
        obtain ⟨h1, h2, h3⟩ := ih (g := i.g) hfirst hrest
        refine ⟨?_, ?_, fun x => ?_⟩
        · rw [List.map_cons]
          refine List.pairwise_cons.2 ⟨?_, h1⟩
          intro x hx
          obtain ⟨j, hj, rfl⟩ := List.mem_map.1 hx
          exact h2 j hj
        · intro j hj
          rcases List.mem_cons.1 hj with rfl | hj
          · omega
          · have := h2 j hj
            omega
        · rw [List.map_cons, List.mem_cons, h3, List.map_cons, List.mem_cons]
          have hback : x ∈ rest.map Issued.g → i.g ≤ x := by
            intro hx
            obtain ⟨j, hj, rfl⟩ := List.mem_map.1 hx
            exact hfirst j hj
          constructor
          · rintro (rfl | ⟨hx, hxi⟩)
            · exact ⟨.inl rfl, hne⟩
            · have := hback hx
              exact ⟨.inr hx, by omega⟩
          · rintro ⟨rfl | hx, hxg⟩
            · exact .inl rfl
            · by_cases hxi : x = i.g
              · exact .inl hxi
              · exact .inr ⟨hx, hxi⟩

/-- Each basket that was recorded, or is now, is there once. -/
theorem recordIssued_spec (issued : List Issued) (cand : List Next) :
    ((recordIssued issued cand).map Issued.g).Pairwise (· < ·) ∧
      ∀ x, x ∈ (recordIssued issued cand).map Issued.g ↔
        x ∈ issued.map Issued.g ∨ x ∈ cand.map Next.g := by
  have htotal : Std.Total fun a b : Issued => a.g ≤ b.g := ⟨fun a b => le_total _ _⟩
  have htrans : IsTrans Issued fun a b => a.g ≤ b.g := ⟨fun _ _ _ => le_trans⟩
  unfold recordIssued
  simp only
  generalize hnew : (cand.map fun c => (⟨c.g, u64 c.seek, u64 c.size⟩ : Issued)) = new
  have hgs : new.map Issued.g = cand.map Next.g := by
    rw [← hnew, List.map_map]
    rfl
  have hsorted := List.pairwise_insertionSort (fun a b : Issued => a.g ≤ b.g) (issued ++ new)
  have hmem : ∀ x, x ∈ ((issued ++ new).insertionSort fun a b => a.g ≤ b.g).map Issued.g ↔
      x ∈ issued.map Issued.g ∨ x ∈ cand.map Next.g := by
    intro x
    rw [((List.perm_insertionSort _ _).map Issued.g).mem_iff, List.map_append, List.mem_append, hgs]
  generalize (issued ++ new).insertionSort (fun a b => a.g ≤ b.g) = sorted at hsorted hmem
  cases sorted with
  | nil => exact ⟨List.Pairwise.nil, hmem⟩
  | cons i l =>
      obtain ⟨hfirst, hrest⟩ := List.pairwise_cons.1 hsorted
      obtain ⟨h1, h2, h3⟩ := uniqueIssued_spec hfirst hrest
      constructor
      · refine List.pairwise_cons.2 ⟨?_, h1⟩
        intro x hx
        obtain ⟨j, hj, rfl⟩ := List.mem_map.1 hx
        exact h2 j hj
      · intro x
        rw [← hmem, List.map_cons, List.map_cons, List.mem_cons, List.mem_cons, h3]
        tauto

end UCache
