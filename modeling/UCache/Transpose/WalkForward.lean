/-
Module: UCache.Transpose.WalkForward
Purpose: Walks that only go forward read nothing outside what they pass over: in other bytes that are
  the same there they find the same.
Trusted boundary: none
Main exports: SameOn, Forward, Forward.bind
-/
import UCache.Transpose.RNTupleParse

namespace UCache

open Lib

/-! ### The same bytes -/

variable {p : Bytes}

/-- Two envelopes have the same bytes from `a` to `b`. -/
def SameOn (p p' : Bytes) (a b : Nat) : Prop := ∀ i, a ≤ i → i < b → p'[i]? = p[i]?

theorem SameOn.mono {p' : Bytes} {a b a' b' : Nat} (h : SameOn p p' a b) (ha : a ≤ a')
    (hb : b' ≤ b) : SameOn p p' a' b' :=
  fun i hi₁ hi₂ => h i (by omega) (by omega)

theorem SameOn.slice {p' : Bytes} {pos n : Nat} (h : SameOn p p' pos (pos + n)) :
    slice p' pos n = slice p pos n := by
  apply List.ext_getElem?
  intro i
  rw [getElem?_slice, getElem?_slice]
  by_cases hi : i < n
  · rw [if_pos hi, if_pos hi, h _ (by omega) (by omega)]
  · rw [if_neg hi, if_neg hi]

/-! ### Forward walks -/

variable {α β : Type} {w : Walk α}

/-- A run of a walk from `pos` that ends at `stop` reads the same in bytes that are the same between
the two. -/
structure RunsOn (w : Walk α) (p : Bytes) (pos : Nat) (a : α) (c : LE) : Prop where
  bytes : c.p = p
  forward : pos ≤ c.pos
  again : ∀ p', p'.length = p.length → SameOn p p' pos c.pos → w ⟨p', pos⟩ = some (a, ⟨p', c.pos⟩)

/-- Every run of the walk is one. -/
def Forward (w : Walk α) : Prop := ∀ p pos a c, w ⟨p, pos⟩ = some (a, c) → RunsOn w p pos a c

theorem bind_some_inv {f : α → Walk β} {c c' : LE} {b : β} (h : (w >>= f) c = some (b, c')) :
    ∃ a mid, w c = some (a, mid) ∧ f a mid = some (b, c') := by
  obtain ⟨⟨a, mid⟩, hw, hf⟩ := Option.bind_eq_some_iff.1 h
  exact ⟨a, mid, hw, hf⟩

theorem bind_some {f : α → Walk β} {c c' mid : LE} {a : α} {b : β} (hw : w c = some (a, mid))
    (hf : f a mid = some (b, c')) : (w >>= f) c = some (b, c') :=
  Option.bind_eq_some_iff.2 ⟨(a, mid), hw, hf⟩

theorem RunsOn.bind {f : α → Walk β} {pos : Nat} {a : α} {b : β} {mid c : LE}
    (hw : RunsOn w p pos a mid) (hf : RunsOn (f a) p mid.pos b c) : RunsOn (w >>= f) p pos b c where
  bytes := hf.bytes
  forward := hw.forward.trans hf.forward
  again p' hlen hsame :=
    bind_some (hw.again p' hlen (hsame.mono (Nat.le_refl _) hf.forward))
      (hf.again p' hlen (hsame.mono hw.forward (Nat.le_refl _)))

theorem Forward.bind {f : α → Walk β} (hw : Forward w) (hf : ∀ a, Forward (f a)) :
    Forward (w >>= f) := by
  intro p pos b c h
  obtain ⟨a, mid, h1, h2⟩ := bind_some_inv h
  have hrun := hw p pos a mid h1
  have hmid : mid = ⟨p, mid.pos⟩ := by rw [← hrun.bytes]
  rw [hmid] at h2
  exact hrun.bind (hf a p mid.pos b c h2)

theorem Forward.pure (a : α) : Forward (Pure.pure a) := by
  intro p pos b c h
  cases h
  exact ⟨rfl, Nat.le_refl _, fun _ _ _ => rfl⟩

theorem Forward.none : Forward (failure : Walk α) := fun _ _ _ _ h => by cases h

theorem Forward.ite {c : Prop} [Decidable c] {v : Walk α} (hw : Forward w) (hv : Forward v) :
    Forward (if c then w else v) := by
  split
  · exact hw
  · exact hv

theorem here_eq {pos : Nat} : Walk.here ⟨p, pos⟩ = some (pos, ⟨p, pos⟩) := rfl

theorem here_forward : Forward Walk.here := by
  intro p pos a c h
  cases h
  exact ⟨rfl, Nat.le_refl _, fun _ _ _ => rfl⟩

/-! ### Reading -/

theorem bytes_inv {pos n : Nat} {b : Bytes} {c : LE} (h : Walk.bytes n ⟨p, pos⟩ = some (b, c)) :
    pos + n ≤ p.length ∧ b = slice p pos n ∧ c = ⟨p, pos + n⟩ := by
  unfold Walk.bytes at h
  split at h
  · cases h
  · rename_i hlen
    cases h
    exact ⟨by simpa using hlen, rfl, rfl⟩

theorem bytes_eq {pos n : Nat} (h : pos + n ≤ p.length) :
    Walk.bytes n ⟨p, pos⟩ = some (slice p pos n, ⟨p, pos + n⟩) :=
  if_neg (by simpa using h)

theorem bytes_forward (n : Nat) : Forward (Walk.bytes n) := by
  intro p pos b c h
  obtain ⟨hlen, rfl, rfl⟩ := bytes_inv h
  refine ⟨rfl, Nat.le_add_right _ _, fun p' hp' hsame => ?_⟩
  rw [bytes_eq (by omega), hsame.slice]

theorem nat_forward (n : Nat) : Forward (Walk.nat n) :=
  (bytes_forward n).bind fun _ => .pure _

theorem int_forward (n : Nat) : Forward (Walk.int n) :=
  (nat_forward n).bind fun _ => .pure _

theorem skip_forward (n : Nat) : Forward (Walk.skip n) :=
  (bytes_forward n).bind fun _ => .pure _

theorem times_forward (hw : Forward w) (n : Nat) : Forward (Walk.times n w) := by
  induction n with
  | zero => exact .pure _
  | succ n ih => exact hw.bind fun _ => ih.bind fun _ => .pure _

theorem frameAt_forward (f : EnvelopeFrame) : Forward (frameAt f) := by
  intro p pos a c h
  unfold frameAt at h
  split at h
  · cases h
  · rename_i hin
    cases h
    refine ⟨rfl, Nat.le_refl _, fun p' hlen _ => ?_⟩
    exact if_neg (by simpa [hlen] using hin)

theorem readFrame_forward : Forward readFrame :=
  here_forward.bind fun _ => (int_forward 8).bind fun _ =>
    .ite ((nat_forward 4).bind fun _ => frameAt_forward _) (frameAt_forward _)

theorem readList_forward : Forward readList :=
  readFrame_forward.bind fun _ => .ite (.pure _) .none

theorem readPage_forward (bits : Nat) : Forward (readPage bits) :=
  here_forward.bind fun _ => (int_forward 4).bind fun _ => (int_forward 4).bind fun _ =>
    .ite .none ((nat_forward 8).bind fun _ => .pure _)

theorem readRange_forward (columns : List ColumnInfo) (cluster col : Nat) :
    Forward (readRange columns cluster col) :=
  readList_forward.bind fun _ => (times_forward (readPage_forward _) _).bind fun _ =>
    (skip_forward 8).bind fun _ => here_forward.bind fun _ => (int_forward 4).bind fun _ => .pure _

/-! ### Frames that are left -/

/-- A frame that is left at its end, with nothing read behind it. -/
def closeFrame (f : EnvelopeFrame) : Walk Unit := fun c =>
  if c.pos ≤ add64 f.start f.size then leaveFrame f c else none

theorem closeFrame_forward (f : EnvelopeFrame) : Forward (closeFrame f) := by
  intro p pos a c h
  unfold closeFrame leaveFrame at h
  split at h
  · rename_i hle
    split at h
    · cases h
    · rename_i hin
      cases h
      exact ⟨rfl, hle, fun p' hlen _ => (if_pos hle).trans (if_neg (by simpa [hlen] using hin))⟩
  · cases h

/-- The cluster summaries of a page list, each frame left behind what was read in it. -/
def nestedSummaries : Walk (Nat × List Nat) := do
  let sl ← readList
  let entries ← Walk.times sl.items do
    let r ← readFrame
    Walk.skip 8
    let n ← Walk.nat 8
    closeFrame r
    return n
  return (sl.items, entries)

theorem nestedSummaries_forward : Forward nestedSummaries :=
  readList_forward.bind fun _ => (times_forward (readFrame_forward.bind fun _ =>
    (skip_forward 8).bind fun _ => (nat_forward 8).bind fun _ => (closeFrame_forward _).bind
      fun _ => .pure _) _).bind fun _ => .pure _

end UCache
