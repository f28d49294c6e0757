/-
Module: UCache.Core.ReplicaAdopt
Purpose: What `openView` makes of a publication whose files are both in place, and which steps leave
  them there.
Trusted boundary: none
Main exports: InPlace, Adoptable, Sees
-/
import UCache.Core.ReplicaStore

namespace UCache

open Lib

variable {o : OriginData}

/-! ### The sidecar of a publication -/

theorem lt_npages {m : ReplicaMeta} (h : m.tdataBytes < 2 ^ 63) (i : Nat) :
    i < m.npages ↔ i * kOverlayPageSize < m.tdataBytes := by
  have hP : 0 < kOverlayPageSize := by decide
  have hsum : add64 m.tdataBytes (kOverlayPageSize - 1) = m.tdataBytes + (kOverlayPageSize - 1) := by
    have hsmall : kOverlayPageSize ≤ 2 ^ 62 := by decide
    exact Nat.mod_eq_of_lt (by omega)
  rw [ReplicaMeta.npages, hsum, ← Nat.succ_le_iff, Nat.le_div_iff_mul_le hP, Nat.succ_mul]
  generalize i * kOverlayPageSize = a
  generalize kOverlayPageSize = P at *
  omega

namespace Publication

theorem loads (p : Publication o) : ReplicaFile.deserialize (p.content .sidecar) = some p.stored :=
  ReplicaFile.deserialize_serialize p.fits p.accepted

theorem validates (p : Publication o) (mode : ValidateMode) : validates mode o p.stored = true := by
  obtain ⟨hsize, hmtime, hkind, hcksum⟩ := p.origin
  obtain ⟨hlow, hhigh⟩ := p.encoding
  simp [UCache.validates, stored, withIntegrity, hsize, hmtime, hkind, hcksum, hlow, hhigh]

/-- Every page of the payload has its CRC in the sidecar. -/
theorem pageCrc (p : Publication o) {i : Nat} (h : i * kOverlayPageSize < p.payload.length) :
    p.stored.pageCrcs[i]? =
      some (crc32c (slice p.payload (i * kOverlayPageSize) (p.stored.pageBytes i))) := by
  let m : ReplicaMeta := { p.given with key := o.key, tdataBytes := p.payload.length }
  have hpages : p.stored.pageBytes i = m.pageBytes i := by
    unfold ReplicaMeta.pageBytes
    rfl
  have hcrcs : p.stored.pageCrcs = (List.range m.npages).map fun i =>
      crc32c (slice p.payload (i * kOverlayPageSize) (m.pageBytes i)) := rfl
  have hlt : i < m.npages := (lt_npages p.payloadSize i).2 h
  rw [hcrcs, List.getElem?_map, List.getElem?_range hlt, hpages]
  rfl

end Publication

/-! ### `openView` alone -/

variable {p : Publication o} {fs : ReplicaFiles}

/-- Both files of a publication have their names. -/
def InPlace (fs : ReplicaFiles) (p : Publication o) : Prop :=
  ∀ h : ReplicaHalf, ∃ i, fs.inode h.path = some i ∧ fs.bytes i = p.content h

/-- An opening run alone returns a view of the publication, whatever the marker says. -/
def Adoptable (mode : ValidateMode) (fs : ReplicaFiles) (p : Publication o) : Prop :=
  ∀ hit, ∃ fuel v, openRun mode o hit fuel fs .stat = some (fs, some v) ∧ v.view = p.stored ∧
    fs.bytes v.ino = p.payload

/-- What an opening has read so far is the publication's. -/
def Sees (fs : ReplicaFiles) (p : Publication o) : OpenPc → Prop
  | .stat | .loadStat => True
  | .loadOpen size => size = (p.content .sidecar).length
  | .loadRead size ino => size = (p.content .sidecar).length ∧ fs.inode .tmeta = some ino
  | .openData m => m = p.stored
  | .fstat m ino | .tok m ino | .scan m ino _ => m = p.stored ∧ fs.inode .tdata = some ino
  | .drop _ => False

/-- The steps an opening has at most before it. -/
def OpenPc.left (npages : Nat) : OpenPc → Nat
  | .stat => npages + 8
  | .loadStat => npages + 7
  | .loadOpen _ => npages + 6
  | .loadRead _ _ => npages + 5
  | .openData _ => npages + 4
  | .fstat _ _ => npages + 3
  | .tok _ _ => npages + 2
  | .scan _ _ rf => npages - rf + 1
  | .drop _ => 0

/-- What comes of a step of an opening that sees a publication in place. -/
def Seen (fs : ReplicaFiles) (p : Publication o) (pc : OpenPc) : OpenNext → Prop
  | .goes pc' => Sees fs p pc' ∧ pc'.left p.stored.npages < pc.left p.stored.npages
  | .returns v => ∃ j, v = some { view := p.stored, ino := j } ∧ fs.inode .tdata = some j

theorem scanStep_seen {j : Nat} (hj : fs.inode .tdata = some j) (hbytes : fs.bytes j = p.payload)
    (rf : Nat) : Seen fs p (.scan p.stored j rf) (scanStep p.stored (fs.bytes j) j rf) := by
  unfold scanStep
  split
  · rename_i hlt
    have hrun := @ReplicaView.runEnd_spec p.stored rf (p.stored.npages - 1)
      (p.stored.npages - 1 - rf) rf (by omega)
    simp only
    generalize ReplicaView.runEnd p.stored rf (p.stored.npages - 1) _ rf = rl at *
    have hrl : rl * kOverlayPageSize < p.stored.tdataBytes :=
      (lt_npages p.payloadSize rl).1 (by omega)
    have hpass := @ReplicaView.verifyRun_file p.stored p.payload rfl (fun i => p.pageCrc) rf rl
      hrun.1 hrl
    rw [hbytes, if_pos hpass]
    exact ⟨⟨rfl, hj⟩, by simp only [OpenPc.left]; omega⟩
  · exact ⟨j, rfl, hj⟩

/-- An opening that sees a publication in place goes on to a view of it and leaves the files
alone. -/
theorem openStep_seen {mode : ValidateMode} {hit : Bool} {fs : ReplicaFiles} {p : Publication o}
    (hin : InPlace fs p) {pc : OpenPc} (h : Sees fs p pc) :
    (openStep mode o hit fs pc).1 = fs ∧ Seen fs p pc (openStep mode o hit fs pc).2 := by
  obtain ⟨i, hi, himage⟩ := hin .sidecar
  obtain ⟨j, hj, hpayload⟩ := hin .overlay
  simp only [ReplicaHalf.path] at hi hj
  cases pc with
  | stat => simp [openStep, hi, Seen, Sees, OpenPc.left]
  | loadStat =>
      have hlen : (p.content .sidecar).length ≠ 0 ∧ (p.content .sidecar).length ≤ 2 ^ 31 := by
        refine ⟨?_, p.imageSize⟩
        have hloads := p.loads
        intro hnil
        rw [List.length_eq_zero_iff.1 hnil] at hloads
        cases hloads
      have hfalse : ¬ ((p.content .sidecar).length = 0 ∨ 2 ^ 31 < (p.content .sidecar).length) := by
        omega
      simp only [openStep, hi, himage, if_neg hfalse]
      exact ⟨trivial, rfl, by simp [OpenPc.left]⟩
  | loadOpen size => simp [openStep, hi, Seen, OpenPc.left, show size = _ from h, Sees]
  | loadRead size ino =>
      have hsize : size = (p.content .sidecar).length := h.1
      have hino : i = ino := Option.some.inj (hi.symm.trans h.2)
      have hbuf : (fs.bytes ino).take size = p.content .sidecar := by
        rw [← hino, himage, hsize, List.take_length]
      have hread : ¬ (p.content .sidecar).length ≠ size := by simp [hsize]
      simp only [openStep, hbuf, if_neg hread, p.loads, p.validates mode, if_true]
      exact ⟨trivial, rfl, by simp [OpenPc.left]⟩
  | openData m => simp [openStep, hj, Seen, OpenPc.left, Sees, show m = _ from h]
  | fstat m ino =>
      obtain ⟨rfl, hino⟩ := h
      rw [hj] at hino
      cases hino
      have hsize : (fs.bytes j).length = p.stored.tdataBytes := congrArg List.length hpayload
      simp [openStep, hsize, Seen, Sees, hj, OpenPc.left]
  | tok m ino =>
      obtain ⟨rfl, hino⟩ := h
      cases hit <;> simp [openStep, Seen, Sees, hino, OpenPc.left]
  | scan m ino rf =>
      obtain ⟨rfl, hino⟩ := h
      rw [hj] at hino
      cases hino
      exact ⟨rfl, scanStep_seen hj hpayload rf⟩
  | drop rest => cases h

/-- What is in place is adopted. -/
theorem InPlace.adoptable (hin : InPlace fs p) (mode : ValidateMode) : Adoptable mode fs p := by
  intro hit
  obtain ⟨j, hj, hpayload⟩ := hin .overlay
  simp only [ReplicaHalf.path] at hj
  suffices hrun : ∀ n pc, pc.left p.stored.npages ≤ n → Sees fs p pc →
      ∃ fuel v, openRun mode o hit fuel fs pc = some (fs, some v) ∧ v.view = p.stored ∧
        fs.bytes v.ino = p.payload from hrun _ .stat (Nat.le_refl _) trivial
  intro n
  induction n with
  | zero =>
      intro pc hleft hsees
      cases pc <;> simp [OpenPc.left] at hleft
      cases hsees
  | succ n ih =>
      intro pc hleft hsees
      obtain ⟨hfiles, hnext⟩ := @openStep_seen o mode hit fs p hin pc hsees
      cases hstep : openStep mode o hit fs pc with
      | mk fs' next =>
          rw [hstep] at hfiles hnext
          simp only at hfiles hnext
          subst hfiles
          cases next with
          | goes pc' =>
              obtain ⟨fuel, v, hrun, hview⟩ := ih pc' (by have := hnext.2; omega) hnext.1
              exact ⟨fuel + 1, v, by rw [openRun, hstep]; exact hrun, hview⟩
          | returns v =>
              obtain ⟨j', rfl, hj'⟩ := hnext
              rw [hj] at hj'
              cases hj'
              exact ⟨1, _, by rw [openRun, hstep], rfl, hpayload⟩

/-! ### What a step leaves in place -/

/-- Every file has one name, and new files are new. -/
structure ReplicaFiles.Ok (fs : ReplicaFiles) : Prop where
  known : ∀ {p i}, fs.inode p = some i → i < fs.next
  apart : ∀ {p q i}, fs.inode p = some i → fs.inode q = some i → p = q

namespace ReplicaFiles

variable {fs fs' : ReplicaFiles}

theorem inode_unlink (fs : ReplicaFiles) (p q : ReplicaPath) :
    (fs.unlink p).inode q = if q = p then none else fs.inode q := by
  simp [unlink, Function.update_apply]

theorem Ok.unlink (h : fs.Ok) (p : ReplicaPath) : (fs.unlink p).Ok := by
  have hsub : ∀ {q i}, (fs.unlink p).inode q = some i → fs.inode q = some i := by
    intro q i hq
    rw [inode_unlink] at hq
    split at hq
    · cases hq
    · exact hq
  exact ⟨fun hq => h.known (hsub hq), fun hq hq' => h.apart (hsub hq) (hsub hq')⟩

theorem Ok.pwrite (h : fs.Ok) (i off : Nat) (data : Bytes) : (fs.pwrite i off data).Ok :=
  ⟨h.known, h.apart⟩

/-- A rename gives the new name to the file and takes the old one away. -/
theorem inode_rename {src dst : ReplicaPath} (h : fs.rename src dst = some fs') :
    ∃ i, fs.inode src = some i ∧ fs'.bytes = fs.bytes ∧ fs'.next = fs.next ∧
      ∀ q, fs'.inode q = if q = src then none else if q = dst then some i else fs.inode q := by
  unfold rename at h
  cases hsrc : fs.inode src with
  | none => simp [hsrc] at h
  | some i =>
      rw [hsrc, Option.map_some, Option.some.injEq] at h
      subst h
      refine ⟨i, rfl, rfl, rfl, ?_⟩
      intro q
      simp [Function.update_apply]

theorem Ok.rename (h : fs.Ok) {src dst : ReplicaPath} (hren : fs.rename src dst = some fs') :
    fs'.Ok := by
  obtain ⟨i, hsrc, -, hnext, hinode⟩ := inode_rename hren
  -- Whatever has a name afterwards had one before, and `dst` has the one of `src`.
  have hwas : ∀ {q k}, fs'.inode q = some k →
      q ≠ src ∧ fs.inode (if q = dst then src else q) = some k := by
    intro q k hq
    rw [hinode] at hq
    split at hq
    · cases hq
    · rename_i hne
      refine ⟨hne, ?_⟩
      split at hq
      · rename_i hdst
        rw [if_pos hdst, hsrc, hq]
      · rename_i hdst
        rwa [if_neg hdst]
  constructor
  · intro q k hq
    rw [hnext]
    exact h.known (hwas hq).2
  · intro q q' k hq hq'
    obtain ⟨hne, hk⟩ := hwas hq
    obtain ⟨hne', hk'⟩ := hwas hq'
    have hsame := h.apart hk hk'
    split at hsame <;> split at hsame
    · rename_i hd hd'
      exact hd.trans hd'.symm
    · exact absurd hsame.symm hne'
    · exact absurd hsame hne
    · exact hsame

/-- The file that is opened is empty and has no other name. -/
theorem create_spec (h : fs.Ok) (p : ReplicaPath) :
    (fs.create p).1.Ok ∧ (fs.create p).1.inode p = some (fs.create p).2 ∧
      (fs.create p).1.bytes (fs.create p).2 = [] ∧
        ∀ q, q ≠ p → (fs.create p).1.inode q = fs.inode q ∧
          ∀ i, fs.inode q = some i →
            i ≠ (fs.create p).2 ∧ (fs.create p).1.bytes i = fs.bytes i := by
  unfold create
  cases hp : fs.inode p with
  | some k =>
      refine ⟨⟨h.known, h.apart⟩, hp, by simp, ?_⟩
      intro q hq
      refine ⟨rfl, ?_⟩
      intro i hi
      have hne : i ≠ k := fun heq => hq (h.apart hi (heq ▸ hp))
      exact ⟨hne, Function.update_of_ne hne _ _⟩
  | none =>
      have hinode : ∀ q, q ≠ p → Function.update fs.inode p (some fs.next) q = fs.inode q :=
        fun q hq => Function.update_of_ne hq _ _
      have hold : ∀ {q i}, fs.inode q = some i → i ≠ fs.next := fun hq =>
        Nat.ne_of_lt (h.known hq)
      refine ⟨⟨?_, ?_⟩, by simp, by simp, ?_⟩
      · intro q i hq
        by_cases hqp : q = p
        · subst hqp
          simp only [Function.update_self, Option.some.injEq] at hq
          simp only
          omega
        · simp only [hinode q hqp] at hq
          exact Nat.lt_succ_of_lt (h.known hq)
      · intro q q' i hq hq'
        by_cases hqp : q = p <;> by_cases hqp' : q' = p
        · exact hqp.trans hqp'.symm
        · subst hqp
          simp only [Function.update_self, Option.some.injEq, hinode q' hqp'] at hq hq'
          exact absurd hq.symm (hold hq')
        · subst hqp'
          simp only [Function.update_self, Option.some.injEq, hinode q hqp] at hq hq'
          exact absurd hq'.symm (hold hq)
        · simp only [hinode q hqp, hinode q' hqp'] at hq hq'
          exact h.apart hq hq'
      · intro q hq
        refine ⟨hinode q hq, ?_⟩
        intro i hi
        exact ⟨hold hi, Function.update_of_ne (hold hi) _ _⟩

end ReplicaFiles

theorem ReplicaHalf.path_ne_tmp (h h' : ReplicaHalf) : h.path ≠ h'.tmp := by
  cases h <;> cases h' <;> decide

/-- The names of the two files and what they hold are as before. -/
def Keeps (fs fs' : ReplicaFiles) : Prop :=
  ∀ h : ReplicaHalf, fs'.inode h.path = fs.inode h.path ∧
    ∀ i, fs.inode h.path = some i → fs'.bytes i = fs.bytes i

/-- One file of a publication has its name. -/
def Holds (fs : ReplicaFiles) (p : Publication o) (h : ReplicaHalf) : Prop :=
  ∃ i, fs.inode h.path = some i ∧ fs.bytes i = p.content h

theorem Keeps.refl (fs : ReplicaFiles) : Keeps fs fs := fun _ => ⟨rfl, fun _ _ => rfl⟩

theorem Keeps.holds {fs' : ReplicaFiles} (hk : Keeps fs fs') {h : ReplicaHalf} :
    Holds fs' p h ↔ Holds fs p h := by
  unfold Holds
  rw [(hk h).1]
  constructor
  · rintro ⟨i, hi, hbytes⟩
    exact ⟨i, hi, ((hk h).2 i hi).symm.trans hbytes⟩
  · rintro ⟨i, hi, hbytes⟩
    exact ⟨i, hi, ((hk h).2 i hi).trans hbytes⟩

theorem Keeps.inPlace {fs' : ReplicaFiles} (hk : Keeps fs fs') : InPlace fs' p ↔ InPlace fs p :=
  forall_congr' fun _ => hk.holds

theorem Keeps.sees {fs' : ReplicaFiles} (hk : Keeps fs fs') {pc : OpenPc} :
    Sees fs' p pc ↔ Sees fs p pc := by
  have hmeta : fs'.inode .tmeta = fs.inode .tmeta := (hk .sidecar).1
  have hdata : fs'.inode .tdata = fs.inode .tdata := (hk .overlay).1
  cases pc <;> simp only [Sees, hmeta, hdata]

theorem keeps_create (h : fs.Ok) (k : ReplicaHalf) : Keeps fs (fs.create k.tmp).1 := by
  intro h'
  obtain ⟨-, -, -, hother⟩ := ReplicaFiles.create_spec h k.tmp
  obtain ⟨hinode, hbytes⟩ := hother h'.path (h'.path_ne_tmp k)
  exact ⟨hinode, fun i hi => (hbytes i hi).2⟩

theorem keeps_pwrite {ino off : Nat} {data : Bytes}
    (h : ∀ k : ReplicaHalf, fs.inode k.path ≠ some ino) : Keeps fs (fs.pwrite ino off data) := by
  intro k
  refine ⟨rfl, ?_⟩
  intro i hi
  have hne : i ≠ ino := by
    rintro rfl
    exact h k hi
  exact Function.update_of_ne hne _ _

theorem keeps_unlinkTmp (fs : ReplicaFiles) (k : ReplicaHalf) : Keeps fs (fs.unlink k.tmp) := by
  intro h
  rw [ReplicaFiles.inode_unlink, if_neg (h.path_ne_tmp k)]
  exact ⟨rfl, fun _ _ => rfl⟩

/-- Nothing is in place once one of the two files has lost its name. -/
theorem not_inPlace_unlink (fs : ReplicaFiles) (h : ReplicaHalf) (p : Publication o) :
    ¬ InPlace (fs.unlink h.path) p := by
  intro hin
  obtain ⟨i, hi, -⟩ := hin h
  rw [ReplicaFiles.inode_unlink, if_pos rfl] at hi
  cases hi

/-- What is in place after an unlink was in place before. -/
theorem keeps_of_inPlace_unlink {q : ReplicaPath} (h : InPlace (fs.unlink q) p) :
    Keeps fs (fs.unlink q) := by
  cases q with
  | tdata => exact absurd h (not_inPlace_unlink fs .overlay p)
  | tmeta => exact absurd h (not_inPlace_unlink fs .sidecar p)
  | tdataTmp => exact keeps_unlinkTmp fs .overlay
  | tmetaTmp => exact keeps_unlinkTmp fs .sidecar

end UCache
