/-
Module: UCache.Transpose.TreeSafe
Purpose: The walk over a tree's record reads nothing outside of it, whatever the record is, and the
  places it notes for later patches lie inside.
Trusted boundary: none
Main exports: Held, StaysIn, tree_blob_safe
-/
import UCache.Transpose.TreeMeta
import UCache.Transpose.TreeOverlay

namespace UCache

open Lib

/-! ### What is known of the cursor -/

variable {k : Nat}

/-- The cursor is not far behind the end of a record of `n` bytes, and unless the walk has failed its
position has `R`. -/
def Held (n : Nat) (R : Nat → Prop) (s : Cur) : Prop :=
  s.pos ≤ n + 2 ^ 32 ∧ (s.fail = false → R s.pos)

theorem Held.mono {n : Nat} {R R' : Nat → Prop} {s : Cur} (h : Held n R s)
    (himp : ∀ pos, R pos → R' pos) : Held n R' s :=
  ⟨h.1, fun hf => himp _ (h.2 hf)⟩

/-- A program that reads only the record and keeps near it, and undoes no failure. -/
def StaysIn {α : Type} (n : Nat) (p : Checked Cur α) : Prop :=
  ∀ R : Prop, Meets (Held n fun _ => R) p fun _ => Held n fun _ => R

namespace StaysIn

variable {α β : Type} {n : Nat} {p : Checked Cur α}

theorem iff_sticky : StaysIn n p ↔ Sticky (fun s => s.pos ≤ n + 2 ^ 32) Cur.fail p := Iff.rfl

protected theorem pure (a : α) : StaysIn n (pure a) := iff_sticky.2 (Sticky.pure a)

protected theorem bind {f : α → Checked Cur β} (hp : StaysIn n p) (hf : ∀ a, StaysIn n (f a)) :
    StaysIn n (p >>= f) :=
  iff_sticky.2 (Sticky.bind (iff_sticky.1 hp) fun a => iff_sticky.1 (hf a))

protected theorem ite {c : Prop} [Decidable c] {q : Checked Cur α} (hp : StaysIn n p)
    (hq : StaysIn n q) : StaysIn n (if c then p else q) :=
  iff_sticky.2 (Sticky.ite (iff_sticky.1 hp) (iff_sticky.1 hq))

end StaysIn

namespace Cur

theorem position_spec {P : Cur → Prop} :
    Meets P position fun here s => here = s.pos ∧ P s :=
  fun s hs => ⟨s.pos, s, rfl, rfl, hs⟩

theorem failed_spec {P : Cur → Prop} : Meets P failed fun bad s => bad = s.fail ∧ P s :=
  fun s hs => ⟨s.fail, s, rfl, rfl, hs⟩

theorem failed_stays (n : Nat) : StaysIn n failed :=
  fun _ => failed_spec.post fun _ _ h => h.2

theorem position_stays (n : Nat) : StaysIn n position :=
  fun _ => position_spec.post fun _ _ h => h.2

theorem reason_stays (n : Nat) : StaysIn n reason :=
  fun _ s hs => ⟨s.why, s, rfl, hs⟩

theorem failWith_spec {n : Nat} {R R' : Nat → Prop} (why : String) :
    Meets (Held n R) (failWith why) fun _ => Held n R' := by
  intro s hs
  exact ⟨(), _, rfl, hs.1, fun h => absurd h (by simp)⟩

theorem failWith_stays (n : Nat) (why : String) : StaysIn n (failWith why) :=
  fun _ => failWith_spec why

theorem jump_stays {n pos : Nat} (h : pos ≤ n + 2 ^ 32) : StaysIn n (jump pos) := by
  intro R s hs
  exact ⟨(), _, rfl, h, hs.2⟩

section Reads

variable {blob : Bytes} {P : Cur → Prop}

theorem beAt_spec {off : Nat} (h : off + k ≤ blob.length) :
    Meets P (beAt blob off k) fun v s => v < 256 ^ k ∧ P s := by
  intro s hs
  refine ⟨beGet blob off k, s, if_neg (by omega), ?_, hs⟩
  have := ofLe_lt (slice blob off k).reverse
  rw [List.length_reverse, length_slice, Nat.min_eq_left (by omega)] at this
  exact this

theorem copy_spec {off len : Nat} (h : off + len ≤ blob.length) :
    Meets P (copy blob off len) fun _ => P :=
  fun s hs => ⟨_, s, if_neg (by omega), hs⟩

theorem intsAt_spec {off m : Nat} (h : off + k * m ≤ blob.length) :
    Meets P (intsAt blob k off m) fun vs s => vs.length = m ∧ P s := by
  induction m generalizing off with
  | zero => exact Meets.pure fun s hs => ⟨rfl, hs⟩
  | succ m ih =>
      rw [Nat.mul_succ] at h
      refine (beAt_spec (by omega)).bind fun v => Meets.fact fun _ => ?_
      refine (ih (by omega)).bind fun vs => Meets.fact fun hvs => ?_
      exact Meets.pure fun s hs => ⟨by simp [hvs], hs⟩

end Reads

/-! ### The readers -/

section Readers

variable {blob : Bytes} (hsize : blob.length ≤ kMaxBuffer) {R : Nat → Prop}

include hsize

/-- A positive answer says that the bytes are there; after a negative one the walk has failed. -/
theorem need_spec (hk : k < 2 ^ 62) :
    Meets (Held blob.length R) (need blob k) fun ok s =>
      (ok = true → s.fail = false) ∧
        Held blob.length (fun pos => R pos ∧ ok = true ∧ pos + k ≤ blob.length) s := by
  unfold kMaxBuffer at hsize
  intro s hs
  unfold need
  split
  · refine ⟨false, _, rfl, by simp, ?_⟩
    split
    · exact ⟨hs.1, fun h => absurd h (by simp_all)⟩
    · exact ⟨hs.1, fun h => absurd h (by simp)⟩
  · rename_i hok
    rw [not_or, Bool.not_eq_true, Nat.not_lt] at hok
    have hpos := hs.1
    have hsum : add64 s.pos k = s.pos + k := Nat.mod_eq_of_lt (by omega)
    exact ⟨true, s, rfl, fun _ => hok.1, hs.1, fun h => ⟨hs.2 h, rfl, hsum ▸ hok.2⟩⟩

theorem getU_spec (hk : k < 2 ^ 62) :
    Meets (Held blob.length R) (getU blob k) fun v s =>
      v < 256 ^ k ∧ (v ≠ 0 → s.pos ≤ blob.length) ∧
        Held blob.length (fun pos => ∃ old, R old ∧ pos = old + k ∧ pos ≤ blob.length) s := by
  refine (need_spec hsize hk).bind fun ok => Meets.ite (fun hok => ?_) fun hno => ?_
  · intro s hs
    obtain ⟨hfail, hpos, hheld⟩ := hs
    obtain ⟨hR, -, hin⟩ := hheld (hfail hok)
    obtain ⟨v, s', hrun, hv, rfl⟩ := beAt_spec (P := (· = s)) hin s rfl
    refine ⟨v, { s' with pos := s'.pos + k }, ?_, hv, fun _ => hin, ?_⟩
    · show (beAt blob s'.pos k s').bind _ = _
      rw [hrun]
      rfl
    · exact ⟨by simp only; omega, fun _ => ⟨_, hR, rfl, hin⟩⟩
  · refine Meets.pure fun s hs => ⟨by positivity, fun h => absurd rfl h, hs.2.1, fun h => ?_⟩
    exact absurd (hs.2.2 h).2.1 hno

theorem skip_spec (hk : k < 2 ^ 62) :
    Meets (Held blob.length R) (skip blob k) fun _ =>
      Held blob.length fun pos => ∃ old, R old ∧ pos = old + k ∧ pos ≤ blob.length := by
  refine (need_spec hsize hk).bind fun ok => Meets.ite (fun hok => ?_) fun hno => ?_
  · intro s hs
    obtain ⟨hfail, hpos, hheld⟩ := hs
    obtain ⟨hR, -, hin⟩ := hheld (hfail hok)
    exact ⟨(), _, rfl, by simp only; omega, fun _ => ⟨_, hR, rfl, hin⟩⟩
  · refine Meets.pure fun s hs => ⟨hs.2.1, fun h => ?_⟩
    exact absurd (hs.2.2 h).2.1 hno

omit R

theorem getU_stays (hk : k < 2 ^ 62) : StaysIn blob.length (getU blob k) :=
  fun _ => (getU_spec hsize hk).post fun _ _ h => h.2.2.mono fun _ ⟨_, hR, _⟩ => hR

theorem getI_stays (hk : k < 2 ^ 62) : StaysIn blob.length (getI blob k) :=
  (getU_stays hsize hk).bind fun _ => StaysIn.pure _

theorem skip_stays (hk : k < 2 ^ 62) : StaysIn blob.length (skip blob k) :=
  fun _ => (skip_spec hsize hk).post fun _ _ h => h.mono fun _ ⟨_, hR, _⟩ => hR

omit hsize in
theorem need_stays (k : Nat) : StaysIn blob.length (need blob k) := by
  intro R s hs
  unfold need
  split
  · refine ⟨false, _, rfl, ?_⟩
    split
    · exact hs
    · exact ⟨hs.1, fun h => absurd h (by simp)⟩
  · exact ⟨true, s, rfl, hs⟩

theorem textLength_spec {R : Prop} : Meets (Held blob.length fun _ => R) (textLength blob)
    fun len s => len < 2 ^ 32 ∧ Held blob.length (fun _ => R) s := by
  refine (getU_spec hsize (by decide)).bind fun short => Meets.fact fun hshort =>
    Meets.ite (fun _ => ?_) fun _ => ?_
  · refine ((getU_spec (R := fun _ => R) hsize (by decide)).mono ?_ ?_)
    · exact fun s h => h.2.mono fun _ ⟨_, hR, _⟩ => hR
    · exact fun v s h => ⟨h.1, h.2.2.mono fun _ ⟨_, hR, _⟩ => hR⟩
  · refine Meets.pure fun s h => ⟨hshort.trans (by decide), h.2.mono fun _ ⟨_, hR, _⟩ => hR⟩

theorem tstring_stays : StaysIn blob.length (tstring blob) := by
  intro R
  refine (textLength_spec hsize).bind fun len => Meets.fact fun hlen => ?_
  refine (need_spec hsize (by omega)).bind fun ok => Meets.ite (fun hok => ?_) fun _ => ?_
  · intro s hs
    obtain ⟨hfail, hpos, hheld⟩ := hs
    obtain ⟨hR, -, hin⟩ := hheld (hfail hok)
    obtain ⟨v, s', hrun, rfl⟩ := copy_spec (P := (· = s)) hin s rfl
    refine ⟨v, { s' with pos := s'.pos + len }, ?_, ?_⟩
    · show (copy blob s'.pos len s').bind _ = _
      rw [hrun]
      rfl
    · exact ⟨by simp only; omega, fun _ => hR⟩
  · exact Meets.pure fun s hs => hs.2.mono fun _ h => h.1

/-- An object's end lies at most a byte count behind the record. -/
theorem objHeader_spec {R : Prop} (what : String) :
    Meets (Held blob.length fun _ => R) (objHeader blob what) fun r s =>
      r.2 ≤ blob.length + 2 ^ 32 ∧ Held blob.length (fun _ => R) s := by
  refine (getU_spec hsize (by decide)).bind fun bc => Meets.fact fun hbc =>
    Meets.ite (fun _ => ?_) fun hbit => ?_
  · refine ((@failWith_spec _ _ (fun _ => R) _).bind fun _ => ?_).pre fun s h => h.2
    exact Meets.pure fun s h => ⟨by simp only; omega, h⟩
  · have hne : bc ≠ 0 := by
      rintro rfl
      exact hbit (by decide)
    refine position_spec.bind fun here => ?_
    refine Meets.pre (P := fun s => here ≤ blob.length ∧ Held blob.length (fun _ => R) s)
      (Meets.fact fun hhere => ?_) ?_
    · refine (getU_stays hsize (by decide) R).bind fun ver => Meets.pure fun s h => ⟨?_, h⟩
      simp only
      omega
    · rintro s ⟨rfl, hpos, h⟩
      exact ⟨hpos hne, h.mono fun _ ⟨_, hR, _⟩ => hR⟩

theorem objHeader_stays (what : String) : StaysIn blob.length (objHeader blob what) :=
  fun _ => (objHeader_spec hsize what).post fun _ _ h => h.2

theorem skipObj_stays (what : String) : StaysIn blob.length (skipObj blob what) := by
  intro R
  refine (objHeader_spec hsize what).bind fun r => Meets.fact fun hstop => ?_
  refine (failed_stays _ R).bind fun bad => StaysIn.ite (StaysIn.pure _) ?_ R
  refine (position_stays _).bind fun here => (need_stays _).bind fun ok => ?_
  exact StaysIn.ite (jump_stays hstop) (StaysIn.pure _)

theorem tobject_stays : StaysIn blob.length (tobject blob) := by
  refine (getU_stays hsize (by decide)).bind fun _ => ?_
  refine (getU_stays hsize (by decide)).bind fun _ => ?_
  refine (getU_stays hsize (by decide)).bind fun bits => StaysIn.ite ?_ (StaysIn.pure _)
  exact (getU_stays hsize (by decide)).bind fun _ => StaysIn.pure _

omit hsize in
theorem className_stays (fuel : Nat) : StaysIn blob.length (className blob fuel) := by
  induction fuel with
  | zero => exact StaysIn.pure _
  | succ fuel ih =>
      refine (failed_stays _).bind fun bad => (position_stays _).bind fun here => fun R => ?_
      refine Meets.ite (fun _ => StaysIn.pure _ R) fun hin => ?_
      rw [not_or, Nat.not_le] at hin
      refine (beAt_spec hin.2).bind fun c => Meets.fact fun _ => ?_
      refine StaysIn.ite (StaysIn.pure _) ?_ R
      exact (jump_stays (by omega)).bind fun _ => ih.bind fun _ => StaysIn.pure _

end Readers

end Cur

/-! ### Streamed objects -/

variable {R : Prop}

section Streamed

open Cur

variable {blob : Bytes} (hsize : blob.length ≤ kMaxBuffer) (keylen : Nat)

theorem addClass_stays (n pos : Nat) (cls : Bytes) : StaysIn n (addClass pos cls) :=
  fun _ _ hs => ⟨(), _, rfl, hs⟩

theorem addLeaf_stays (n pos : Nat) (name : Bytes) : StaysIn n (addLeaf pos name) :=
  fun _ _ hs => ⟨(), _, rfl, hs⟩

theorem classAt_stays (n off : Nat) : StaysIn n (classAt keylen off) :=
  fun _ s hs => ⟨_, s, rfl, hs⟩

theorem leafAt_stays (n ref : Nat) : StaysIn n (leafAt keylen ref) :=
  fun _ s hs => ⟨_, s, rfl, hs⟩

include hsize

/-- An object's end lies at most a byte count behind the record. -/
theorem readAny_spec :
    Meets (Held blob.length fun _ => R) (readAny blob keylen) fun o s =>
      o.stop ≤ blob.length + 2 ^ 32 ∧ Held blob.length (fun _ => R) s := by
  refine (position_stays _ R).bind fun tagPos => ?_
  refine (getU_spec hsize (by decide)).bind fun first => Meets.fact fun hfirst => ?_
  have hheld : ∀ s, (first ≠ 0 → s.pos ≤ blob.length) ∧ Held blob.length
      (fun pos => ∃ old, R ∧ pos = old + 4 ∧ pos ≤ blob.length) s → Held blob.length (fun _ => R) s :=
    fun s h => h.2.mono fun _ ⟨_, hR, _⟩ => hR
  refine Meets.ite (fun _ => Meets.pure fun s h => ⟨Nat.zero_le _, hheld s h⟩) fun hne => ?_
  refine Meets.ite (fun _ => Meets.pure fun s h => ⟨Nat.zero_le _, hheld s h⟩) fun _ => ?_
  refine position_spec.bind fun here => ?_
  refine Meets.pre (P := fun s => here ≤ blob.length ∧ Held blob.length (fun _ => R) s)
    (Meets.fact fun hhere => ?_) (by
      rintro _ ⟨rfl, h⟩
      exact ⟨h.1 hne, hheld _ h⟩)
  have hstop : here + (first - kByteCountMask) ≤ blob.length + 2 ^ 32 := by omega
  refine (getU_stays hsize (by decide) R).bind fun tag => ?_
  refine Meets.ite (fun _ => ?_) fun _ => Meets.ite (fun _ => ?_) fun _ => ?_
  · refine (position_stays _ R).bind fun namePos => ?_
    refine (className_stays _ R).bind fun cls => ?_
    refine (skip_stays hsize (by decide) R).bind fun _ => ?_
    exact (addClass_stays _ _ _ R).bind fun _ => Meets.pure fun s h => ⟨hstop, h⟩
  · exact (classAt_stays keylen _ _ R).bind fun cls => Meets.pure fun s h => ⟨hstop, h⟩
  · exact (failWith_stays _ _ R).bind fun _ => Meets.pure fun s h => ⟨hstop, h⟩

/-- What an element of an array keeps of the value that is built, and of the record. -/
def ElementKeeps {β : Type} (n : Nat) (A : β → Prop) (element : Element β) : Prop :=
  ∀ (R : Prop) (acc : β) (o : AnyObj), A acc →
    Meets (Held n fun _ => R) (element acc o) fun r s => A r.2 ∧ Held n (fun _ => R) s

theorem objLoop_spec {β : Type} {A : β → Prop} {element : Element β}
    (helem : ElementKeeps blob.length A element) (n : Nat) {acc : β} (hacc : A acc) :
    Meets (Held blob.length fun _ => R) (objLoop blob keylen element n acc) fun r s =>
      A r.2 ∧ Held blob.length (fun _ => R) s := by
  induction n generalizing acc with
  | zero => exact Meets.pure fun s h => ⟨hacc, h⟩
  | succ n ih =>
      refine (failed_stays _ R).bind fun bad => ?_
      refine Meets.ite (fun _ => Meets.pure fun s h => ⟨hacc, h⟩) fun _ => ?_
      refine (readAny_spec hsize keylen).bind fun o => Meets.fact fun hstop => ?_
      refine Meets.ite (fun _ => ih hacc) fun _ => ?_
      refine (helem R acc o hacc).bind fun r => Meets.fact fun hr => ?_
      refine Meets.ite (fun _ => Meets.pure fun s h => ⟨hr, h⟩) fun _ => ?_
      refine (failed_stays _ R).bind fun bad => Meets.ite (fun _ => ih hr) fun _ => ?_
      exact (jump_stays hstop R).bind fun _ => ih hr

theorem objArray_spec {β : Type} {A : β → Prop} {element : Element β}
    (helem : ElementKeeps blob.length A element) (what : String) {acc : β} (hacc : A acc) :
    Meets (Held blob.length fun _ => R) (objArray blob keylen what element acc) fun r s =>
      A r.2 ∧ Held blob.length (fun _ => R) s := by
  refine (objHeader_spec hsize what).bind fun hd => Meets.fact fun hstop => ?_
  refine (failed_stays _ R).bind fun bad => ?_
  refine Meets.ite (fun _ => Meets.pure fun s h => ⟨hacc, h⟩) fun _ => ?_
  refine Meets.ite (fun _ => ?_) fun _ => ?_
  · exact (failWith_stays _ _ R).bind fun _ => Meets.pure fun s h => ⟨hacc, h⟩
  refine (tobject_stays hsize R).bind fun _ => (tstring_stays hsize R).bind fun _ => ?_
  refine (getI_stays hsize (by decide) R).bind fun size => ?_
  refine (getI_stays hsize (by decide) R).bind fun _ => ?_
  refine (objLoop_spec hsize keylen helem _ hacc).bind fun r => Meets.fact fun hr => ?_
  refine Meets.ite (fun _ => Meets.pure fun s h => ⟨hr, h⟩) fun _ => ?_
  refine (jump_stays hstop R).bind fun _ => (failed_stays _ R).bind fun bad => ?_
  exact Meets.pure fun s h => ⟨hr, h⟩

end Streamed

/-! ### Branches -/

/-- A branch's counts fit its arrays, and the places noted for later patches lie in a record of `n`
bytes. -/
structure BranchInside (n : Nat) (b : BranchInfo) : Prop where
  written : 0 ≤ b.writeBasket
  counted : b.writeBasket ≤ b.maxBaskets
  seeks : b.writeBasket.toNat ≤ b.basketSeek.length
  bytes : b.writeBasket.toNat ≤ b.basketBytes.length
  entries : b.writeBasket.toNat ≤ b.basketEntry.length
  bytesArray : b.bytesArrayOff + 4 * b.maxBaskets ≤ n
  seekArray : b.seekArrayOff + 8 * b.maxBaskets ≤ n
  zip : b.zipBytesOff = 0 ∨ b.zipBytesOff + 8 ≤ n

/-- The counts of a branch, and where its length is noted. -/
structure SameCounts (b b' : BranchInfo) : Prop where
  written : b'.writeBasket = b.writeBasket
  maxBaskets : b'.maxBaskets = b.maxBaskets
  zip : b'.zipBytesOff = b.zipBytesOff

section Branches

open Cur

variable {blob : Bytes} (hsize : blob.length ≤ kMaxBuffer) (keylen : Nat)

include hsize

/-- With a positive answer the bytes from the cursor on are there, and what is known of a walk that
has not failed holds. -/
theorem need_here {here : Nat} (hk : k < 2 ^ 62) :
    Meets (fun s => here = s.pos ∧ Held blob.length (fun _ => R) s) (need blob k) fun ok s =>
      (ok = true → R ∧ here + k ≤ blob.length) ∧ Held blob.length (fun _ => R) s := by
  refine (need_spec (R := fun pos => R ∧ here = pos) hsize hk).mono ?_ ?_
  · rintro _ ⟨hpos, hle, hR⟩
    exact ⟨hle, fun h => ⟨hR h, hpos⟩⟩
  · rintro ok _ ⟨hfail, hheld⟩
    refine ⟨fun hok => ?_, hheld.mono fun _ h => h.1.1⟩
    obtain ⟨⟨hR, rfl⟩, -, hin⟩ := hheld.2 (hfail hok)
    exact ⟨hR, hin⟩

theorem parseLeaf_keeps (b : BranchInfo) :
    ElementKeeps blob.length (SameCounts b) (parseLeaf blob keylen) := by
  intro R acc o hacc
  have hsame : ∀ b', b'.writeBasket = acc.writeBasket → b'.maxBaskets = acc.maxBaskets →
      b'.zipBytesOff = acc.zipBytesOff → SameCounts b b' := fun b' h1 h2 h3 =>
    ⟨h1.trans hacc.written, h2.trans hacc.maxBaskets, h3.trans hacc.zip⟩
  refine (objHeader_stays hsize _ R).bind fun _ => (objHeader_stays hsize _ R).bind fun _ => ?_
  refine (failed_stays _ R).bind fun bad => ?_
  refine Meets.ite (fun _ => Meets.pure fun s h => ⟨hsame _ rfl rfl rfl, h⟩) fun _ => ?_
  refine Meets.ite (fun _ => ?_) fun _ => ?_
  · exact (failWith_stays _ _ R).bind fun _ => Meets.pure fun s h => ⟨hsame _ rfl rfl rfl, h⟩
  refine (objHeader_stays hsize _ R).bind fun _ => (tobject_stays hsize R).bind fun _ => ?_
  refine (tstring_stays hsize R).bind fun _ => (tstring_stays hsize R).bind fun _ => ?_
  refine (addLeaf_stays _ _ _ R).bind fun _ => (skip_stays hsize (by decide) R).bind fun _ => ?_
  refine (readAny_spec hsize keylen).bind fun cnt => Meets.fact fun hstop => ?_
  refine Meets.ite (fun _ => ?_) fun _ => ?_
  · refine (leafAt_stays keylen _ _ R).bind fun _ => (failed_stays _ R).bind fun _ => ?_
    exact Meets.pure fun s h => ⟨hsame _ rfl rfl rfl, h⟩
  · refine (failed_stays _ R).bind fun bad => ?_
    refine Meets.ite (fun _ => Meets.pure fun s h => ⟨hsame _ rfl rfl rfl, h⟩) fun _ => ?_
    exact (jump_stays hstop R).bind fun _ => Meets.pure fun s h => ⟨hsame _ rfl rfl rfl, h⟩

omit hsize in
theorem subBranch_keeps : ElementKeeps blob.length (fun _ => True) subBranch :=
  fun R _ _ _ => (failWith_stays _ _ R).bind fun _ => Meets.pure fun _ h => ⟨trivial, h⟩

omit hsize in
theorem basketCounts_spec (b : BranchInfo) :
    Meets (Held blob.length fun _ => R) (basketCounts b) fun ok s =>
      (ok = true → b.maxBaskets ≤ 2 ^ 24 ∧ 0 ≤ b.writeBasket ∧ b.writeBasket ≤ b.maxBaskets) ∧
        Held blob.length (fun _ => R) s := by
  refine (failed_stays _ R).bind fun bad => Meets.ite (fun _ => ?_) fun hmax => ?_
  · refine (reason_stays _ R).bind fun _ => (failWith_stays _ _ R).bind fun _ => ?_
    exact Meets.pure fun s h => ⟨by simp, h⟩
  refine Meets.ite (fun _ => ?_) fun hwritten => ?_
  · exact (failWith_stays _ _ R).bind fun _ => Meets.pure fun s h => ⟨by simp, h⟩
  · rw [not_or, Nat.not_lt] at hmax
    exact Meets.pure fun s h => ⟨fun _ => ⟨hmax.1, by omega, by omega⟩, h⟩

/-- The walk has not failed, and `back` bytes of the record lie before the cursor. -/
structure Backed (n back : Nat) (s : Cur) : Prop where
  fine : s.fail = false
  before : back ≤ s.pos
  inside : s.pos ≤ n

omit hsize in
theorem beBefore_spec {back w : Nat} (hk : k ≤ back) (hw : w ≤ k) {P : Cur → Prop} :
    Meets (fun s => Backed blob.length back s ∧ P s) (beBefore blob k w) fun _ s =>
      Backed blob.length back s ∧ P s := by
  rintro s ⟨hb, hP⟩
  have h1 := hb.before
  have h2 := hb.inside
  refine ⟨beGet blob (s.pos - k) w, s, ?_, hb, hP⟩
  rw [beBefore, if_neg (by omega), beAt, if_neg (by omega)]

/-- After a skip that did not fail, the bytes that were skipped lie before the cursor. -/
theorem skip_failed {back : Nat} (hk : back < 2 ^ 62) {β : Type} {f : Bool → Checked Cur β}
    {Q : β → Cur → Prop} (hbad : Meets (Held blob.length fun _ => R) (f true) Q)
    (hok : Meets (fun s => Backed blob.length back s ∧ Held blob.length (fun _ => R) s) (f false) Q) :
    Meets (Held blob.length fun _ => R) (do
      skip blob back
      let bad ← failed
      f bad) Q := by
  refine (skip_spec hsize hk).bind fun _ => failed_spec.bind fun bad => ?_
  cases bad with
  | true => exact hbad.pre fun s h => h.2.mono fun _ ⟨_, hR, _⟩ => hR
  | false =>
      refine hok.pre ?_
      rintro s ⟨hfail, hheld⟩
      obtain ⟨old, -, hpos, hin⟩ := hheld.2 hfail.symm
      exact ⟨⟨hfail.symm, by omega, hin⟩, hheld.mono fun _ ⟨_, hR, _⟩ => hR⟩

theorem branchFields_spec (name : Bytes) :
    Meets (Held blob.length fun _ => R) (branchFields blob name) fun r s =>
      (∀ b, r = some b → b.zipBytesOff + 8 ≤ blob.length) ∧ Held blob.length (fun _ => R) s := by
  have hnone : Meets (Held blob.length fun _ => R) (pure none) fun (r : Option BranchInfo) s =>
      (∀ b, r = some b → b.zipBytesOff + 8 ≤ blob.length) ∧ Held blob.length (fun _ => R) s :=
    Meets.pure fun s h => ⟨by simp, h⟩
  refine (skipObj_stays hsize _ R).bind fun _ => skip_failed hsize (by decide) hnone ?_
  rw [if_neg (by decide)]
  refine (beBefore_spec (by decide) (by decide)).bind fun compress => ?_
  refine (beBefore_spec (by decide) (by decide)).bind fun writeBasket => ?_
  refine Meets.pre (P := Held blob.length fun _ => R) ?_ fun s h => h.2
  refine (skipObj_stays hsize _ R).bind fun _ => (skip_stays hsize (by decide) R).bind fun _ => ?_
  refine (getU_stays hsize (by decide) R).bind fun maxBaskets => ?_
  refine (skip_stays hsize (by decide) R).bind fun _ => ?_
  refine (getI_stays hsize (by decide) R).bind fun entries => ?_
  refine skip_failed hsize (by decide) hnone ?_
  rw [if_neg (by decide)]
  refine position_spec.bind fun here => ?_
  refine Meets.pre (P := fun s => (8 ≤ here ∧ here ≤ blob.length) ∧
    Backed blob.length (8 * 3) s ∧ Held blob.length (fun _ => R) s) (Meets.fact fun hhere => ?_) (by
      rintro _ ⟨rfl, hb, hheld⟩
      have h1 := hb.before
      exact ⟨⟨by omega, hb.inside⟩, hb, hheld⟩)
  refine (beBefore_spec (by decide) (by decide)).bind fun zipBytes => Meets.pure fun s h => ⟨?_, h.2⟩
  rintro b hb
  cases hb
  simp only
  omega

omit hsize in
theorem hasFileName_stays (fn stop : Nat) : StaysIn blob.length (hasFileName blob fn stop) := by
  intro R
  refine Meets.ite (fun h => ?_) fun _ => StaysIn.pure _ R
  exact (beAt_spec h.2).bind fun _ => Meets.fact fun _ => StaysIn.pure _ R

theorem basketArrays_spec {b : BranchInfo} (hmax : b.maxBaskets ≤ 2 ^ 24)
    (hwritten : 0 ≤ b.writeBasket) (hcounted : b.writeBasket ≤ b.maxBaskets)
    (hzip : b.zipBytesOff + 8 ≤ blob.length) (stop : Nat) :
    Meets (Held blob.length fun _ => R) (basketArrays blob b stop) fun r s =>
      (∀ b', r = some b' → BranchInside blob.length b') ∧ Held blob.length (fun _ => R) s := by
  have hnone : Meets (Held blob.length fun _ => R) (pure none) fun (r : Option BranchInfo) s =>
      (∀ b', r = some b' → BranchInside blob.length b') ∧ Held blob.length (fun _ => R) s :=
    Meets.pure fun s h => ⟨by simp, h⟩
  have hnb : b.writeBasket.toNat ≤ b.maxBaskets := by omega
  refine (skip_stays hsize (by decide) R).bind fun _ => position_spec.bind fun bytesArrayOff => ?_
  refine (need_here hsize (by omega)).bind fun ok => Meets.fact fun hbytes => ?_
  refine Meets.ite (fun _ => hnone) fun hok => ?_
  have hbytes := (hbytes (by simpa using hok)).2
  refine (intsAt_spec (by omega)).bind fun basketBytes => Meets.fact fun hlenBytes => ?_
  refine (skip_stays hsize (by omega) R).bind fun _ => ?_
  refine (skip_stays hsize (by decide) R).bind fun _ => position_spec.bind fun here => ?_
  refine (need_here hsize (by omega)).bind fun ok => Meets.fact fun hentries => ?_
  refine Meets.ite (fun _ => hnone) fun hok => ?_
  have hentries := (hentries (by simpa using hok)).2
  refine (intsAt_spec (by omega)).bind fun stored => Meets.fact fun hlenStored => ?_
  refine (skip_stays hsize (by omega) R).bind fun _ => ?_
  refine (skip_stays hsize (by decide) R).bind fun _ => position_spec.bind fun seekArrayOff => ?_
  refine (need_here hsize (by omega)).bind fun ok => Meets.fact fun hseeks => ?_
  refine Meets.ite (fun _ => hnone) fun hok => ?_
  have hseeks := (hseeks (by simpa using hok)).2
  refine (intsAt_spec (by omega)).bind fun basketSeek => Meets.fact fun hlenSeek => ?_
  refine (hasFileName_stays _ _ R).bind fun externalFile => Meets.pure fun s h => ⟨?_, h⟩
  intro b' hb'
  cases hb'
  refine ⟨hwritten, hcounted, hlenSeek.ge, hlenBytes.ge, ?_, hbytes, hseeks, .inr hzip⟩
  simp only
  split <;> simp [hlenStored]

/-- What is known of the description of the file while its branches are walked over. -/
structure TreeWalked (n : Nat) (fm₀ fm : FileMeta) : Prop where
  branches : ∀ b ∈ fm.branches, BranchInside n b
  zip : fm.zipBytesOff = fm₀.zipBytesOff
  autoFlush : fm.autoFlushOff = fm₀.autoFlushOff
  record : fm.treeBlob = fm₀.treeBlob

theorem parseBranch_spec {fm₀ fm : FileMeta} (hfm : TreeWalked blob.length fm₀ fm) :
    Meets (Held blob.length fun _ => R) (parseBranch blob keylen fm) fun r s =>
      TreeWalked blob.length fm₀ r.2 ∧ Held blob.length (fun _ => R) s := by
  have hsame : Meets (Held blob.length fun _ => R) (pure (false, fm)) fun (r : Bool × FileMeta) s =>
      TreeWalked blob.length fm₀ r.2 ∧ Held blob.length (fun _ => R) s :=
    Meets.pure fun s h => ⟨hfm, h⟩
  refine (objHeader_spec hsize _).bind fun hd => Meets.fact fun hstop => ?_
  refine (failed_stays _ R).bind fun bad => Meets.ite (fun _ => hsame) fun _ => ?_
  refine Meets.ite (fun _ => (failWith_stays _ _ R).bind fun _ => hsame) fun _ => ?_
  refine (objHeader_stays hsize _ R).bind fun _ => (tobject_stays hsize R).bind fun _ => ?_
  refine (tstring_stays hsize R).bind fun name => (tstring_stays hsize R).bind fun _ => ?_
  refine (branchFields_spec hsize name).bind fun r => Meets.fact fun hfields => ?_
  cases r with
  | none => exact hsame
  | some b =>
      have hzip := hfields b rfl
      refine (objArray_spec hsize keylen subBranch_keeps _ trivial).bind fun r => Meets.fact fun _ => ?_
      refine Meets.ite (fun _ => hsame) fun _ => ?_
      refine (objArray_spec hsize keylen (parseLeaf_keeps hsize keylen b) _ ⟨rfl, rfl, rfl⟩).bind
        fun r => Meets.fact fun hleaves => Meets.ite (fun _ => hsame) fun _ => ?_
      refine (skipObj_stays hsize _ R).bind fun _ => ?_
      refine (basketCounts_spec r.2).bind fun ok => Meets.fact fun hcounts => ?_
      refine Meets.ite (fun _ => hsame) fun hok => ?_
      obtain ⟨hmax, hwritten, hcounted⟩ := hcounts (by simpa using hok)
      refine (basketArrays_spec hsize hmax hwritten hcounted (by rw [hleaves.zip]; exact hzip)
        hd.2).bind fun r => Meets.fact fun hbranch => ?_
      cases r with
      | none => exact hsame
      | some b' =>
          refine (jump_stays hstop R).bind fun _ => Meets.pure fun s h => ⟨⟨?_, hfm.zip,
            hfm.autoFlush, hfm.record⟩, h⟩
          intro br hbr
          rcases List.mem_append.1 hbr with hbr | hbr
          · exact hfm.branches br hbr
          · obtain rfl : br = b' := by simpa using hbr
            exact hbranch _ rfl

theorem treeBranch_keeps {fm₀ : FileMeta} :
    ElementKeeps blob.length (TreeWalked blob.length fm₀) (treeBranch blob keylen) := by
  intro R fm o hfm
  refine Meets.ite (fun _ => parseBranch_spec hsize keylen hfm) fun _ => ?_
  exact (failWith_stays _ _ R).bind fun _ => Meets.pure fun _ h => ⟨hfm, h⟩

end Branches

/-! ### The tree -/

/-- The places noted in a tree's description lie in a record of `n` bytes. -/
structure TreeInside (n : Nat) (fm : FileMeta) : Prop where
  branches : ∀ b ∈ fm.branches, BranchInside n b
  zip : fm.zipBytesOff = 0 ∨ fm.zipBytesOff + 8 ≤ n
  autoFlush : fm.autoFlushOff = 0 ∨ fm.autoFlushOff + 8 ≤ n

section Tree

open Cur

variable {blob : Bytes} (hsize : blob.length ≤ kMaxBuffer) (keylen : Nat)

include hsize

theorem clusterArray_stays {n : Nat} (hn : n ≤ 2 ^ 20) :
    StaysIn blob.length (clusterArray blob n) := by
  intro R
  refine (skip_stays hsize (by decide) R).bind fun _ => position_spec.bind fun here => ?_
  refine (need_here hsize (by omega)).bind fun ok => Meets.fact fun hin => ?_
  refine Meets.ite (fun _ => StaysIn.pure _ R) fun hok => ?_
  have hin := (hin (by simpa using hok)).2
  refine (intsAt_spec (by omega)).bind fun out => Meets.fact fun _ => ?_
  exact (skip_stays hsize (by omega) R).bind fun _ => StaysIn.pure _ R

theorem treeZip_spec (fm : FileMeta) :
    Meets (Held blob.length fun _ => True) (treeZip blob fm) fun fm' s =>
      (fm'.branches = fm.branches ∧ fm'.treeBlob = fm.treeBlob) ∧
        Held blob.length (fun _ => fm'.zipBytesOff + 8 ≤ blob.length) s := by
  refine position_spec.bind fun here => (need_spec (R := fun pos => here = pos) hsize
    (by decide)).mono ?_ (fun _ _ h => h) |>.bind fun ok => Meets.ite (fun hok => ?_) fun hno => ?_
  · rintro _ ⟨hpos, hle, -⟩
    exact ⟨hle, fun _ => hpos⟩
  · refine Meets.pre (P := fun s => here + 16 ≤ blob.length ∧ Held blob.length (fun _ => True) s)
      (Meets.fact fun hin => ?_) ?_
    · refine (beAt_spec (by omega)).bind fun z => Meets.fact fun _ => Meets.pure fun s h => ⟨⟨rfl, rfl⟩, ?_⟩
      exact h.mono fun _ _ => by simp only; omega
    · rintro _ ⟨hfail, hheld⟩
      obtain ⟨rfl, -, hin⟩ := hheld.2 (hfail hok)
      exact ⟨hin, hheld.mono fun _ _ => trivial⟩
  · refine Meets.pure fun s h => ⟨⟨rfl, rfl⟩, h.2.1, fun hf => ?_⟩
    exact absurd (h.2.2 hf).2.1 hno

theorem treeFields_spec (fm : FileMeta) :
    Meets (Held blob.length fun _ => True) (treeFields blob fm) fun r s =>
      (r.1.branches = fm.branches ∧ r.1.treeBlob = fm.treeBlob) ∧ Held blob.length (fun _ =>
        r.1.zipBytesOff + 8 ≤ blob.length ∧ r.1.autoFlushOff + 8 ≤ blob.length) s := by
  refine (getI_stays hsize (by decide) _).bind fun entries => ?_
  refine (treeZip_spec hsize _).bind fun fm' => Meets.fact fun hsame => ?_
  refine (skip_stays hsize (by decide) _).bind fun _ => ?_
  refine (getU_stays hsize (by decide) _).bind fun nClusterRange => ?_
  refine (skip_stays hsize (by decide) _).bind fun _ => position_spec.bind fun off => ?_
  refine Meets.bind (Q := fun _ => Held blob.length fun _ =>
    fm'.zipBytesOff + 8 ≤ blob.length ∧ off + 8 ≤ blob.length) ?_ fun autoFlush => ?_
  · refine Meets.bind ((getU_spec (R := fun pos => fm'.zipBytesOff + 8 ≤ blob.length ∧ off = pos)
      hsize (by decide)).pre ?_) fun v => Meets.pure fun s h => ?_
    · rintro _ ⟨hpos, hle, hzip⟩
      exact ⟨hle, fun h => ⟨hzip h, hpos⟩⟩
    · refine h.2.2.mono ?_
      rintro pos ⟨_, ⟨hzip, rfl⟩, rfl, hin⟩
      exact ⟨hzip, hin⟩
  · exact (skip_stays hsize (by decide) _).bind fun _ => Meets.pure fun s h => ⟨hsame, h⟩

theorem walkTree_spec {fm : FileMeta} (hempty : fm.branches = []) :
    Meets (Held blob.length fun _ => True) (walkTree blob keylen fm) fun r _ =>
      ∀ fm', r = .ok fm' → TreeInside blob.length fm' ∧ fm'.treeBlob = fm.treeBlob := by
  have herror : ∀ {P : Cur → Prop} (why : String), Meets P (pure (.error why))
      fun (r : Except String FileMeta) _ =>
        ∀ fm', r = .ok fm' → TreeInside blob.length fm' ∧ fm'.treeBlob = fm.treeBlob :=
    fun why => Meets.pure fun _ _ _ h => by cases h
  have hreason : ∀ {R : Prop}, Meets (Held blob.length fun _ => R) (do
      let why ← reason
      pure (.error why)) fun (r : Except String FileMeta) _ =>
        ∀ fm', r = .ok fm' → TreeInside blob.length fm' ∧ fm'.treeBlob = fm.treeBlob :=
    fun {R} => (reason_stays _ R).bind herror
  refine (objHeader_stays hsize _ _).bind fun _ => (failed_stays _ _).bind fun _ => ?_
  refine Meets.ite (fun _ => hreason) fun _ => Meets.ite (fun _ => herror _) fun _ => ?_
  refine (skipObj_stays hsize _ _).bind fun _ => (skipObj_stays hsize _ _).bind fun _ => ?_
  refine (skipObj_stays hsize _ _).bind fun _ => (skipObj_stays hsize _ _).bind fun _ => ?_
  refine (treeFields_spec hsize fm).bind fun r => Meets.fact fun hsame => ?_
  refine Meets.ite (fun _ => herror _) fun hranges => ?_
  rw [Nat.not_lt] at hranges
  refine (clusterArray_stays hsize hranges _).bind fun ends => ?_
  refine (clusterArray_stays hsize hranges _).bind fun sizes => ?_
  refine (failed_stays _ _).bind fun _ => Meets.ite (fun _ => hreason) fun _ => ?_
  refine (skipObj_stays hsize _ _).bind fun _ => ?_
  have hstart : TreeWalked blob.length r.1
      { r.1 with clusterRangeEnd := ends, clusterSize := sizes } :=
    ⟨by simp [hsame.1, hempty], rfl, rfl, rfl⟩
  have hwalk := objArray_spec (R := r.1.zipBytesOff + 8 ≤ blob.length ∧
    r.1.autoFlushOff + 8 ≤ blob.length) hsize keylen (@treeBranch_keeps _ hsize keylen r.1)
      "fBranches" hstart
  refine hwalk.bind fun walked => Meets.fact fun hwalked => (reason_stays _ _).bind fun why => ?_
  refine Meets.ite (fun _ => herror _) fun _ => failed_spec.bind fun bad => ?_
  refine Meets.ite (fun _ => herror _) fun hok => Meets.pure fun s h fm' hfm' => ?_
  cases hfm'
  obtain ⟨hbad, hheld⟩ := h
  obtain ⟨hzip, hflush⟩ := hheld.2 (by rw [← hbad]; simpa using hok)
  exact ⟨⟨hwalked.branches, .inr (by rw [hwalked.zip]; exact hzip),
    .inr (by rw [hwalked.autoFlush]; exact hflush)⟩, hwalked.record.trans hsame.2⟩

/-- What a record that is accepted is known to be. -/
theorem parseTreeBlob_ok {fm fm' : FileMeta} (h : parseTreeBlob blob keylen fm = some (.ok fm')) :
    TreeInside blob.length fm' ∧ fm'.treeBlob = fm.treeBlob := by
  obtain ⟨r, s, hrun, hr⟩ := @walkTree_spec _ hsize keylen
    { fm with branches := [], clusterRangeEnd := [], clusterSize := [] } rfl {}
    ⟨Nat.zero_le _, fun _ => trivial⟩
  rw [parseTreeBlob, hrun] at h
  exact hr fm' (Option.some.inj h)

/-- The tree-record parser is safe on every record: it ends without a read outside of the record, and
when it accepts, the counts of every branch fit its arrays and every place it notes is inside. -/
theorem tree_blob_safe (fm : FileMeta) :
    ∃ r, parseTreeBlob blob keylen fm = some r ∧
      ∀ fm', r = .ok fm' → TreeInside blob.length fm' := by
  obtain ⟨r, s, hrun, hr⟩ := @walkTree_spec _ hsize keylen
    { fm with branches := [], clusterRangeEnd := [], clusterSize := [] } rfl {}
    ⟨Nat.zero_le _, fun _ => trivial⟩
  exact ⟨r, by rw [parseTreeBlob, hrun]; rfl, fun fm' h => (hr fm' h).1⟩

end Tree

/-- An object of version `ver` with these bytes. -/
def streamed (ver : Nat) (body : Bytes) : Bytes :=
  be 4 (kByteCountMask + 2 + body.length) ++ be 2 ver ++ body

/-- A streamed array of no objects. -/
def emptyArray : Bytes := streamed 3 (be 2 1 ++ be 4 0 ++ be 4 0 ++ [0] ++ be 4 0 ++ be 4 0)

namespace OneBasket

def basketAt : Nat := 520

/-- A branch of one basket of 48 bytes. -/
def branch : Bytes :=
  streamed 13 (streamed 1 [] ++ be 2 1 ++ be 4 0 ++ be 4 0 ++ [1] ++ ascii "b" ++ [0] ++
    streamed 1 [] ++ be 4 101 ++ be 4 0 ++ be 4 0 ++ be 4 1 ++ be 8 0 ++ streamed 1 [] ++ be 4 0 ++
      be 4 1 ++ be 4 0 ++ be 8 7 ++ be 8 0 ++ be 8 0 ++ be 8 0 ++ emptyArray ++ emptyArray ++
        streamed 3 [] ++ [1] ++ be 4 48 ++ [1] ++ be 8 0 ++ [1] ++ be 8 basketAt ++ [0])

/-- An object with the name of its class. -/
def object (cls : String) (body : Bytes) : Bytes :=
  be 4 (kByteCountMask + 4 + cls.length + 1 + body.length) ++ be 4 kNewClassTag ++ ascii cls ++
    [0] ++ body

def tree : Bytes :=
  streamed 20 (streamed 1 [] ++ streamed 1 [] ++ streamed 1 [] ++ streamed 1 [] ++
    be 8 7 ++ List.replicate 56 0 ++ be 4 0 ++ List.replicate 32 0 ++ be 8 3 ++ be 8 0 ++
      [0] ++ [0] ++ streamed 1 [] ++
        streamed 3 (be 2 1 ++ be 4 0 ++ be 4 0 ++ [0] ++ be 4 1 ++ be 4 0 ++
          object "TBranch" branch))

end OneBasket

/-- The record of a tree with one branch of one basket. -/
theorem one_branch_tree_safe : ∃ fm', parseTreeBlob OneBasket.tree 35 {} = some (.ok fm') ∧
    fm'.branches.length = 1 ∧ TreeInside OneBasket.tree.length fm' := by
  have hone : (parseTreeBlob OneBasket.tree 35 {}).map
      (fun r => r.toOption.map fun fm => fm.branches.length) = some (some 1) := by decide +kernel
  obtain ⟨r, hr, hinside⟩ := @tree_blob_safe OneBasket.tree (by decide +kernel) 35 {}
  rw [hr] at hone
  cases r with
  | error why => simp [Except.toOption] at hone
  | ok fm' => exact ⟨fm', hr, by simpa [Except.toOption] using hone, hinside fm' rfl⟩

end UCache
