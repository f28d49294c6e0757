/-
Module: UCache.Core.ReplicaPublish
Purpose: One step of a publication that has the files to itself: what it has achieved, and what it
  does to the two files that have their final names.
Trusted boundary: none
Main exports: Careful, PublishOk, publishStep_ok
-/
import UCache.Core.ReplicaAdopt

namespace UCache

open Lib

variable {o : OriginData}

/-! ### Publications that do not overlap -/

variable {p : Publication o} {fs fs' : ReplicaFiles}

/-- The publication has begun to write. -/
def PublishPc.busy : PublishPc → Bool
  | .checkStore | .openTmp .overlay => false
  | _ => true

/-- Both renames are done and the call has not returned. -/
def PublishPc.settling : PublishPc → Bool
  | .recheck | .withdrawMeta | .withdrawData | .mark => true
  | _ => false

/-- No other publication has begun to write. -/
def ReplicaWorld.Alone (s : ReplicaWorld o) (c : Nat) : Prop :=
  ∀ d p pc, d ≠ c → s.calls d = some (.publish p pc) → pc.busy = false

/-- The steps that keep a publication in place: a publication begins to write when no other has; its
overlay is not removed, and it does not end, between its two renames while another publication
stands; and an opening that drops what it found bad does so only when nothing was renamed since it
began, and it did not begin between two renames. -/
def Careful (s : ReplicaWorld o) : ReplicaAct o → Prop
  | .publishStep c _ => ∀ p pc, s.calls c = some (.publish p pc) →
      (pc = .openTmp .overlay → s.Alone c) ∧ (pc = .unlinkData → s.standing = none)
  | .crash c => ∀ p pc, s.calls c = some (.publish p pc) → pc.between = true → s.standing = none
  | .openStep c _ => ∀ q rest since, s.calls c = some (.openView (.drop (q :: rest)) since) →
      since = some s.epoch
  | _ => True

/-- What must be there for the rest of a publication to come out right. -/
def Before (fs : ReplicaFiles) (p : Publication o) : ReplicaHalf → Prop
  | .overlay => True
  | .sidecar => Holds fs p .overlay

/-- What a publication has achieved so far. -/
def PublishOk (fs : ReplicaFiles) (p : Publication o) : PublishPc → Prop
  | .openTmp h => Before fs p h
  | .write h ino done => Before fs p h ∧ done ≤ (p.content h).length ∧
      fs.bytes ino = (p.content h).take done ∧ (∀ q, q ≠ h.tmp → fs.inode q ≠ some ino) ∧
        ∀ i, fs.inode h.tmp = some i → i = ino
  | .rename h => Before fs p h ∧ ∀ i, fs.inode h.tmp = some i → fs.bytes i = p.content h
  | .recheck | .mark => InPlace fs p
  | _ => True

theorem Keeps.before (hk : Keeps fs fs') {h : ReplicaHalf} (hb : Before fs p h) :
    Before fs' p h := by
  cases h with
  | overlay => trivial
  | sidecar => exact hk.holds.2 hb

/-- The bytes after one more piece. -/
theorem patch_take {b : Bytes} {done n : Nat} (h : done + n ≤ b.length) :
    patch (b.take done ++
      List.replicate (done + (slice b done n).length - (b.take done).length) 0) done
        (slice b done n) = b.take (done + n) := by
  have hslice : (slice b done n).length = n := by
    rw [length_slice]
    omega
  have htake : (b.take done).length = done := by
    rw [List.length_take]
    omega
  have hlen : (b.take done ++ List.replicate n (0 : UInt8)).length = done + n := by
    simp [htake]
  rw [hslice, htake, Nat.add_sub_cancel_left, patch, hslice, List.drop_eq_nil_of_le (by omega),
    List.take_append_of_le_length (by omega), List.take_take, Nat.min_self, List.append_nil,
    slice, ← List.take_add]

theorem publishOk_rename {h : ReplicaHalf} (hok : PublishOk fs p (.rename h))
    (hren : fs.rename h.tmp h.path = some fs') :
    match h with
    | .overlay => Holds fs' p .overlay
    | .sidecar => InPlace fs' p := by
  obtain ⟨hbefore, hcontent⟩ := hok
  obtain ⟨i, hi, hbytes, -, hinode⟩ := ReplicaFiles.inode_rename hren
  have hnew : Holds fs' p h := by
    refine ⟨i, ?_, by rw [hbytes, hcontent i hi]⟩
    rw [hinode, if_neg (h.path_ne_tmp h), if_pos rfl]
  cases h with
  | overlay => exact hnew
  | sidecar =>
      intro h'
      cases h' with
      | sidecar => exact hnew
      | overlay =>
          obtain ⟨j, hj, hpayload⟩ := hbefore
          refine ⟨j, ?_, by rw [hbytes, hpayload]⟩
          rw [hinode]
          exact hj

/-- A publication's next step, taken with the files to itself. -/
theorem publishStep_ok {serving : Bool} {pc pc' : PublishPc} {choice : StepChoice} (hfs : fs.Ok)
    (hok : PublishOk fs p pc) (h : publishStep serving p fs pc choice = some (fs', .goes pc')) :
    PublishOk fs' p pc' := by
  cases pc with
  | checkStore =>
      cases choice <;> simp only [publishStep] at h
      · cases serving <;> simp at h
        obtain ⟨rfl, rfl⟩ := h
        trivial
      · cases h
      · cases h
  | openTmp half =>
      cases choice <;> simp only [publishStep] at h
      · simp only [Option.some.injEq, Prod.mk.injEq, PublishNext.goes.injEq] at h
        obtain ⟨rfl, rfl⟩ := h
        obtain ⟨-, hinode, hbytes, hother⟩ := ReplicaFiles.create_spec hfs half.tmp
        refine ⟨(keeps_create hfs half).before hok, Nat.zero_le _, by rw [hbytes]; rfl, ?_, ?_⟩
        · intro q hq heq
          rw [(hother q hq).1] at heq
          exact ((hother q hq).2 _ heq).1 rfl
        · intro i hi
          rw [hinode] at hi
          exact (Option.some.inj hi).symm
      · cases h
      · cases half <;> simp [PublishNext.noFile] at h
        obtain ⟨rfl, rfl⟩ := h
        trivial
  | write half ino done =>
      obtain ⟨hbefore, hdone, hbytes, hprivate, htmp⟩ := hok
      cases choice <;> simp only [publishStep] at h
      · split at h
        · rename_i hfull
          simp only [Option.some.injEq, Prod.mk.injEq, PublishNext.goes.injEq] at h
          obtain ⟨rfl, rfl⟩ := h
          refine ⟨hbefore, ?_⟩
          intro i hi
          rw [htmp i hi, hbytes, hfull, List.take_length]
        · cases h
      · split at h
        · rename_i hroom
          simp only [Option.some.injEq, Prod.mk.injEq, PublishNext.goes.injEq] at h
          obtain ⟨rfl, rfl⟩ := h
          refine ⟨(keeps_pwrite fun k => hprivate _ (k.path_ne_tmp half)).before hbefore, hroom.2, ?_,
            hprivate, htmp⟩
          simp only [ReplicaFiles.pwrite, Function.update_self, hbytes]
          exact patch_take hroom.2
        · cases h
      · cases h
        trivial
  | rename half =>
      cases choice <;> simp only [publishStep] at h
      · cases hren : fs.rename half.tmp half.path with
        | none =>
            rw [hren] at h
            cases h
            trivial
        | some fs₁ =>
            have hdone := publishOk_rename hok hren
            rw [hren] at h
            cases half <;> cases h <;> exact hdone
      · cases h
      · cases h
        trivial
  | unlinkTmp half =>
      cases choice <;> cases half <;> cases h <;> trivial
  | unlinkData => cases choice <;> cases h
  | recheck =>
      cases choice <;> simp only [publishStep] at h
      · cases serving <;> simp at h
        · obtain ⟨rfl, rfl⟩ := h
          exact hok
        · obtain ⟨rfl, rfl⟩ := h
          trivial
      · cases h
      · cases h
  | withdrawMeta => cases choice <;> cases h <;> trivial
  | withdrawData => cases choice <;> cases h
  | mark => cases choice <;> cases h

/-- What a step of a publication does to the two files, to where it stands, and whether it renamed
one of them. -/
inductive PublishMove (fs fs' : ReplicaFiles) : PublishPc → PublishNext → Bool → Prop
  | goes {pc pc' : PublishPc} (keeps : Keeps fs fs') (between : pc'.between = pc.between)
      (settling : pc'.settling = pc.settling)
      (busy : pc'.busy = true → pc.busy = true ∨ pc = .openTmp .overlay) :
      PublishMove fs fs' pc (.goes pc') false
  | overlay : PublishMove fs fs' (.rename .overlay) (.goes (.openTmp .sidecar)) true
  | sidecar : PublishMove fs fs' (.rename .sidecar) (.goes .recheck) true
  | withdraws (files : fs' = fs.unlink .tmeta) :
      PublishMove fs fs' .withdrawMeta (.goes .withdrawData) false
  | fails {pc : PublishPc} (keeps : Keeps fs fs') (at_ : pc.between = true → pc = .unlinkData) :
      PublishMove fs fs' pc (.returns false) false
  | removes {pc : PublishPc} (files : fs' = fs.unlink .tdata)
      (at_ : pc = .unlinkData ∨ pc = .withdrawData) :
      PublishMove fs fs' pc (.returns false) false
  | published (files : fs' = fs) : PublishMove fs fs' .mark (.returns true) false

theorem publishStep_move {serving : Bool} {pc : PublishPc} {choice : StepChoice}
    {next : PublishNext} (hfs : fs.Ok) (hok : PublishOk fs p pc)
    (h : publishStep serving p fs pc choice = some (fs', next)) :
    fs'.Ok ∧ PublishMove fs fs' pc next (ReplicaWorld.renames fs pc choice) := by
  cases pc with
  | checkStore =>
      cases choice <;> simp only [publishStep] at h
      · cases serving <;> cases h
        · exact ⟨hfs, .goes (.refl fs) rfl rfl (by decide)⟩
        · exact ⟨hfs, .fails (.refl fs) (by decide)⟩
      · cases h
      · cases h
        exact ⟨hfs, .fails (.refl fs) (by decide)⟩
  | openTmp half =>
      cases choice <;> simp only [publishStep] at h
      · cases h
        refine ⟨(ReplicaFiles.create_spec hfs half.tmp).1, .goes (keeps_create hfs half) ?_ ?_ ?_⟩
        · cases half <;> rfl
        · cases half <;> rfl
        · intro _
          cases half
          · exact Or.inr rfl
          · exact Or.inl rfl
      · cases h
      · cases half <;> cases h
        · exact ⟨hfs, .fails (.refl fs) (by decide)⟩
        · exact ⟨hfs, .goes (.refl fs) rfl rfl (by decide)⟩
  | write half ino done =>
      obtain ⟨-, -, -, hprivate, -⟩ := hok
      cases choice <;> simp only [publishStep] at h
      · split at h
        · cases h
          exact ⟨hfs, .goes (.refl fs) rfl rfl fun _ => Or.inl rfl⟩
        · cases h
      · split at h
        · cases h
          exact ⟨hfs.pwrite _ _ _, .goes (keeps_pwrite fun k => hprivate _ (k.path_ne_tmp half))
            rfl rfl fun _ => Or.inl rfl⟩
        · cases h
      · cases h
        exact ⟨hfs, .goes (.refl fs) rfl rfl fun _ => Or.inl rfl⟩
  | rename half =>
      cases choice <;> simp only [publishStep] at h
      · cases hren : fs.rename half.tmp half.path with
        | none =>
            have hnone : fs.inode half.tmp = none := by
              simpa [ReplicaFiles.rename] using hren
            rw [hren] at h
            cases h
            simp only [ReplicaWorld.renames, hnone, Option.isSome_none]
            exact ⟨hfs, .goes (.refl fs) rfl rfl fun _ => Or.inl rfl⟩
        | some fs₁ =>
            obtain ⟨i, hi, -⟩ := ReplicaFiles.inode_rename hren
            rw [hren] at h
            simp only [ReplicaWorld.renames, hi, Option.isSome_some]
            cases half <;> cases h
            · exact ⟨hfs.rename hren, .overlay⟩
            · exact ⟨hfs.rename hren, .sidecar⟩
      · cases h
      · cases h
        exact ⟨hfs, .goes (.refl fs) rfl rfl fun _ => Or.inl rfl⟩
  | unlinkTmp half =>
      have hgone := keeps_unlinkTmp fs half
      cases choice <;> cases half <;> cases h
      · exact ⟨hfs.unlink _, .fails hgone (by decide)⟩
      · exact ⟨hfs.unlink _, .goes hgone rfl rfl fun _ => Or.inl rfl⟩
      · exact ⟨hfs, .fails (.refl fs) (by decide)⟩
      · exact ⟨hfs, .goes (.refl fs) rfl rfl fun _ => Or.inl rfl⟩
  | unlinkData =>
      cases choice <;> cases h
      · exact ⟨hfs.unlink _, .removes rfl (Or.inl rfl)⟩
      · exact ⟨hfs, .fails (.refl fs) fun _ => rfl⟩
  | recheck =>
      cases choice <;> simp only [publishStep] at h
      · cases serving <;> cases h <;> exact ⟨hfs, .goes (.refl fs) rfl rfl fun _ => Or.inl rfl⟩
      · cases h
      · cases h
  | withdrawMeta =>
      cases choice <;> cases h
      · exact ⟨hfs.unlink _, .withdraws rfl⟩
      · exact ⟨hfs, .goes (.refl fs) rfl rfl fun _ => Or.inl rfl⟩
  | withdrawData =>
      cases choice <;> cases h
      · exact ⟨hfs.unlink _, .removes rfl (Or.inr rfl)⟩
      · exact ⟨hfs, .fails (.refl fs) (by decide)⟩
  | mark => cases choice <;> cases h <;> exact ⟨hfs, .published rfl⟩

end UCache
