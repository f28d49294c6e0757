/-
Module: UCache.Core.ReplicaRuns
Purpose: Publications and openings of one key in any order: what a view reads, and when a publication
  that has returned stays where an opening finds it.
Trusted boundary: none
Main exports: Steady, replica_stays_adoptable, replica_dropped_by_stale_opening
-/
import UCache.Core.ReplicaPublish

namespace UCache

open Lib

variable {o : OriginData}

/-! ### The invariant -/

variable {c d : Nat} {since : Option Nat} {p : Publication o} {pc : PublishPc} {fs : ReplicaFiles}
  {choice : StepChoice}

/-- The files and the calls of a run whose steps are careful. -/
structure Steady (s : ReplicaWorld o) : Prop where
  files : s.files.Ok
  one : ∀ {c d p q pc qc}, s.calls c = some (.publish p pc) → s.calls d = some (.publish q qc) →
    pc.busy = true → qc.busy = true → c = d
  publisher : ∀ {c p pc}, s.calls c = some (.publish p pc) → PublishOk s.files p pc
  window : ∀ {c p pc}, s.calls c = some (.publish p pc) → pc.between = true → s.between = true
  owner : s.between = true → ∃ c p pc, s.calls c = some (.publish p pc) ∧ pc.between = true
  settled : ∀ {p}, s.standing = some p → ∀ {c q qc}, s.calls c = some (.publish q qc) →
    qc.settling = false
  standing : ∀ {p}, s.standing = some p → s.between = false → InPlace s.files p
  opener : ∀ {c pc e}, s.calls c = some (.openView pc (some e)) → e ≤ s.epoch ∧
    (e = s.epoch → s.between = false ∧
      ∀ p : Publication o, InPlace s.files p → Sees s.files p pc)

theorem update_some {γ : Type} {f : Nat → Option γ} {new : Option γ} {x : γ}
    (h : Function.update f c new d = some x) : d = c ∧ new = some x ∨ d ≠ c ∧ f d = some x := by
  by_cases hd : d = c
  · subst hd
    exact Or.inl ⟨rfl, by simpa using h⟩
  · exact Or.inr ⟨hd, by simpa [hd] using h⟩

theorem PublishPc.busy_of_between (h : pc.between = true) : pc.busy = true := by
  cases pc with
  | openTmp half => cases half <;> first | rfl | cases h
  | _ => first | rfl | cases h

theorem PublishPc.busy_of_settling (h : pc.settling = true) : pc.busy = true := by
  cases pc with
  | openTmp half => cases h
  | _ => first | rfl | cases h

theorem PublishPc.not_busy (h : pc.busy = false) : pc = .checkStore ∨ pc = .openTmp .overlay := by
  cases pc with
  | checkStore => exact Or.inl rfl
  | openTmp half =>
      cases half with
      | overlay => exact Or.inr rfl
      | sidecar => cases h
  | _ => cases h

theorem publishOk_idle (h : pc.busy = false) : PublishOk fs p pc := by
  rcases PublishPc.not_busy h with rfl | rfl <;> trivial

theorem PublishMove.busy {fs' : ReplicaFiles} {pc' : PublishPc} {r : Bool}
    (h : PublishMove fs fs' pc (.goes pc') r) (hbusy : pc'.busy = true) :
    pc.busy = true ∨ pc = .openTmp .overlay := by
  cases h with
  | goes _ _ _ busy => exact busy hbusy
  | overlay => exact Or.inl rfl
  | sidecar => exact Or.inl rfl
  | withdraws => exact Or.inl rfl

namespace Steady

variable {s : ReplicaWorld o}

/-- A publication that writes or is about to is the only one. -/
theorem alone (h : Steady s) (hcall : s.calls c = some (.publish p pc))
    (hcond : pc = .openTmp .overlay → s.Alone c) (hbusy : pc.busy = true ∨ pc = .openTmp .overlay) :
    s.Alone c := by
  rcases hbusy with hbusy | hpc
  · intro d q qc hne hd
    cases hqc : qc.busy with
    | false => rfl
    | true => exact absurd (h.one hd hcall hqc hbusy) hne
  · exact hcond hpc

/-- A step of a publication leaves the others where they are. -/
theorem others (h : Steady s) (hcall : s.calls c = some (.publish p pc))
    (hcond : pc = .openTmp .overlay → s.Alone c) {next : PublishNext}
    (hstep : publishStep s.serving p s.files pc choice = some (fs, next)) {q : Publication o}
    {qc : PublishPc} (hne : d ≠ c) (hd : s.calls d = some (.publish q qc)) : PublishOk fs q qc := by
  cases hqc : qc.busy with
  | false => exact publishOk_idle hqc
  | true =>
      have hidle : pc.busy = false := by
        cases hpc : pc.busy with
        | false => rfl
        | true => exact absurd (h.one hd hcall hqc hpc) hne
      rcases PublishPc.not_busy hidle with rfl | rfl
      · have hsame : fs = s.files := by
          cases choice <;> cases hstep <;> rfl
        rw [hsame]
        exact h.publisher hd
      · rw [hcond rfl d q qc hne hd] at hqc
        cases hqc

/-- Where the calls stand after a step of a publication. -/
theorem calls_afterPublish {next : PublishNext} {call : ReplicaCall o}
    (h : (s.afterPublish c p pc choice fs next).calls d = some call) :
    (d = c ∧ ∃ pc', next = .goes pc' ∧ call = .publish p pc') ∨ (d ≠ c ∧ s.calls d = some call) := by
  rcases update_some h with ⟨hd, hnew⟩ | hold
  · cases next with
    | goes pc' =>
        cases hnew
        exact Or.inl ⟨hd, pc', rfl, rfl⟩
    | returns ok => cases hnew
  · exact Or.inr hold

/-- Between two renames after a step of a publication. -/
theorem between_afterPublish (h : Steady s) {c : Nat} {p : Publication o} {pc : PublishPc}
    (hcall : s.calls c = some (.publish p pc)) {choice : StepChoice} {fs : ReplicaFiles}
    {next : PublishNext} :
    ((s.afterPublish c p pc choice fs next).between = true ↔
      (∃ pc', next = .goes pc' ∧ pc'.between = true) ∨
        (pc.between = false ∧ s.between = true ∧ ∀ pc', next = .goes pc' → pc'.between = false)) := by
  have hwindow := h.window hcall
  cases next with
  | goes pc' =>
      cases hpc : pc.between <;> cases hpc' : pc'.between <;>
        simp_all [ReplicaWorld.afterPublish]
  | returns ok =>
      cases hpc : pc.between <;> simp [ReplicaWorld.afterPublish, hpc]

/-- A publication that stands has every other one settled. -/
theorem settled_afterPublish (h : Steady s) (hcall : s.calls c = some (.publish p pc))
    {next : PublishNext}
    (hmove : PublishMove s.files fs pc next (ReplicaWorld.renames s.files pc choice))
    {P : Publication o} (hP : (s.afterPublish c p pc choice fs next).standing = some P)
    {q : Publication o} {qc : PublishPc}
    (hd : (s.afterPublish c p pc choice fs next).calls d = some (.publish q qc)) :
    qc.settling = false := by
  have hcalls := calls_afterPublish hd
  generalize ReplicaWorld.renames s.files pc choice = r at hmove
  cases hmove with
  | @goes _ pc' _ _ hsettling _ =>
      have hold : s.standing = some P := by
        cases pc' <;> first | exact hP | cases hP
      rcases hcalls with ⟨-, pc'', hnext, hcall'⟩ | ⟨-, hd⟩
      · cases hnext
        cases hcall'
        rw [hsettling]
        exact h.settled hold hcall
      · exact h.settled hold hd
  | overlay =>
      rcases hcalls with ⟨-, pc', hnext, hcall'⟩ | ⟨-, hd⟩
      · cases hnext
        cases hcall'
        rfl
      · exact h.settled hP hd
  | sidecar => cases hP
  | withdraws => exact absurd (h.settled hP hcall) (by decide)
  | fails | removes =>
      rcases hcalls with ⟨-, pc', hnext, -⟩ | ⟨-, hd⟩
      · cases hnext
      · exact h.settled hP hd
  | published =>
      rcases hcalls with ⟨-, pc', hnext, -⟩ | ⟨hne, hd⟩
      · cases hnext
      · cases hqc : qc.settling with
        | false => rfl
        | true => exact absurd (h.one hd hcall (PublishPc.busy_of_settling hqc) rfl) hne

/-- The publication that stands is in place after a step of a publication. -/
theorem standing_afterPublish (h : Steady s) (hcall : s.calls c = some (.publish p pc))
    (hdata : pc = .unlinkData → s.standing = none) {next : PublishNext}
    (hmove : PublishMove s.files fs pc next (ReplicaWorld.renames s.files pc choice))
    {P : Publication o} (hP : (s.afterPublish c p pc choice fs next).standing = some P)
    (hb : (s.afterPublish c p pc choice fs next).between = false) : InPlace fs P := by
  generalize ReplicaWorld.renames s.files pc choice = r at hmove
  -- The overlay is not removed while another publication stands.
  have hkept : s.standing = some P → pc ≠ .unlinkData := by
    rintro hold rfl
    rw [hdata rfl] at hold
    cases hold
  cases hmove with
  | @goes _ pc' hk hbetween _ _ =>
      have hold : s.standing = some P := by
        cases pc' <;> first | exact hP | cases hP
      simp only [ReplicaWorld.afterPublish, hbetween, if_true] at hb
      exact hk.inPlace.2 (h.standing hold hb)
  | overlay => cases hb
  | sidecar => cases hP
  | withdraws => exact absurd (h.settled hP hcall) (by decide)
  | fails hk hat =>
      have hpc : pc.between ≠ true := fun hpc => hkept hP (hat hpc)
      simp only [ReplicaWorld.afterPublish, if_neg hpc] at hb
      exact hk.inPlace.2 (h.standing hP hb)
  | removes _ hat =>
      rcases hat with rfl | rfl
      · exact absurd rfl (hkept hP)
      · exact absurd (h.settled hP hcall) (by decide)
  | published hfiles =>
      cases hP
      rw [hfiles]
      exact h.publisher hcall

/-- What an opening has seen is still so after a step of a publication that renamed nothing. -/
theorem opener_afterPublish (h : Steady s) (hcall : s.calls c = some (.publish p pc))
    {next : PublishNext}
    (hmove : PublishMove s.files fs pc next (ReplicaWorld.renames s.files pc choice)) {dc : OpenPc}
    {e : Nat} (hd : (s.afterPublish c p pc choice fs next).calls d = some (.openView dc (some e))) :
    e ≤ (s.afterPublish c p pc choice fs next).epoch ∧
      (e = (s.afterPublish c p pc choice fs next).epoch →
        (s.afterPublish c p pc choice fs next).between = false ∧
          ∀ P : Publication o, InPlace fs P → Sees fs P dc) := by
  have hold : s.calls d = some (.openView dc (some e)) := by
    rcases calls_afterPublish hd with ⟨-, pc', -, hcall'⟩ | ⟨-, hd⟩
    · cases hcall'
    · exact hd
  obtain ⟨hle, hsees⟩ := h.opener hold
  cases hr : ReplicaWorld.renames s.files pc choice with
  | true =>
      simp only [ReplicaWorld.afterPublish, hr, if_true]
      omega
  | false =>
      rw [hr] at hmove
      have hepoch : (s.afterPublish c p pc choice fs next).epoch = s.epoch := by
        simp [ReplicaWorld.afterPublish, hr]
      rw [hepoch]
      refine ⟨hle, ?_⟩
      intro he
      obtain ⟨hclear, hall⟩ := hsees he
      have hkeep : Keeps s.files fs → ∀ P : Publication o, InPlace fs P → Sees fs P dc :=
        fun hk P hP => hk.sees.2 (hall P (hk.inPlace.1 hP))
      cases hmove with
      | goes hk hbetween _ _ =>
          refine ⟨?_, hkeep hk⟩
          simp only [ReplicaWorld.afterPublish, hbetween, if_true, hclear]
      | withdraws hfiles =>
          refine ⟨hclear, ?_⟩
          intro P hP
          rw [hfiles] at hP
          exact absurd hP (not_inPlace_unlink s.files .sidecar P)
      | fails hk _ =>
          refine ⟨?_, hkeep hk⟩
          simp [ReplicaWorld.afterPublish, hclear]
      | removes hfiles _ =>
          refine ⟨by simp [ReplicaWorld.afterPublish, hclear], ?_⟩
          intro P hP
          rw [hfiles] at hP
          exact absurd hP (not_inPlace_unlink s.files .overlay P)
      | published hfiles =>
          refine ⟨?_, hkeep (hfiles ▸ Keeps.refl _)⟩
          simpa [ReplicaWorld.afterPublish] using fun _ => hclear

/-- A careful step of a publication keeps the invariant. -/
theorem publishStep (h : Steady s) (hcall : s.calls c = some (.publish p pc))
    (hcond : pc = .openTmp .overlay → s.Alone c) (hdata : pc = .unlinkData → s.standing = none)
    {next : PublishNext} (hstep : publishStep s.serving p s.files pc choice = some (fs, next)) :
    Steady (s.afterPublish c p pc choice fs next) := by
  obtain ⟨hfs, hmove⟩ := publishStep_move h.files (h.publisher hcall) hstep
  have hbetween := @between_afterPublish _ _ h c p pc hcall choice fs next
  -- Whoever writes after the step was alone before it.
  have halone : ∀ pc', next = .goes pc' → pc'.busy = true → s.Alone c := by
    rintro pc' rfl hbusy
    exact h.alone hcall hcond (hmove.busy hbusy)
  constructor
  case files => exact hfs
  case one =>
      intro c₁ c₂ p₁ p₂ pc₁ pc₂ h1 h2 hb₁ hb₂
      rcases calls_afterPublish h1 with ⟨rfl, pc', hnext, hc₁⟩ | ⟨hne₁, hold₁⟩ <;>
        rcases calls_afterPublish h2 with ⟨rfl, pc'', hnext', hc₂⟩ | ⟨hne₂, hold₂⟩
      · rfl
      · cases hc₁
        rw [halone _ hnext hb₁ _ _ _ hne₂ hold₂] at hb₂
        cases hb₂
      · cases hc₂
        rw [halone _ hnext' hb₂ _ _ _ hne₁ hold₁] at hb₁
        cases hb₁
      · exact h.one hold₁ hold₂ hb₁ hb₂
  case publisher =>
      intro d q qc hd
      rcases calls_afterPublish hd with ⟨rfl, pc', rfl, hcall'⟩ | ⟨hne, hd⟩
      · cases hcall'
        exact publishStep_ok h.files (h.publisher hcall) hstep
      · exact h.others hcall hcond hstep hne hd
  case window =>
      intro d q qc hd hqc
      rw [hbetween]
      rcases calls_afterPublish hd with ⟨rfl, pc', hnext, hcall'⟩ | ⟨hne, hd⟩
      · cases hcall'
        exact Or.inl ⟨_, hnext, hqc⟩
      · have hbusy := PublishPc.busy_of_between hqc
        refine Or.inr ⟨?_, h.window hd hqc, ?_⟩
        · cases hpc : pc.between with
          | false => rfl
          | true => exact absurd (h.one hd hcall hbusy (PublishPc.busy_of_between hpc)) hne
        · intro pc' hnext
          cases hpc' : pc'.between with
          | false => rfl
          | true =>
              rw [halone _ hnext (PublishPc.busy_of_between hpc') _ _ _ hne hd] at hbusy
              cases hbusy
  case owner =>
      intro hb
      rw [hbetween] at hb
      rcases hb with ⟨pc', rfl, hpc'⟩ | ⟨hpc, hs, -⟩
      · exact ⟨c, p, pc', by simp [ReplicaWorld.afterPublish], hpc'⟩
      · obtain ⟨d, q, qc, hd, hqc⟩ := h.owner hs
        have hne : d ≠ c := by
          rintro rfl
          rw [hcall] at hd
          cases hd
          rw [hpc] at hqc
          cases hqc
        exact ⟨d, q, qc, by simpa [ReplicaWorld.afterPublish, hne] using hd, hqc⟩
  case settled => exact fun hP _ _ _ hd => h.settled_afterPublish hcall hmove hP hd
  case standing => exact fun hP hb => h.standing_afterPublish hcall hdata hmove hP hb
  case opener => exact fun hd => h.opener_afterPublish hcall hmove hd

/-- A publication that is not between its renames, and has not put its files in place, does not miss
a name that goes. -/
theorem publishOk_unlink (hok : PublishOk fs p pc) (hpc : pc.between = false)
    (hnot : ¬ InPlace fs p) (q : ReplicaPath) : PublishOk (fs.unlink q) p pc := by
  have hsub : ∀ {r i}, (fs.unlink q).inode r = some i → fs.inode r = some i := by
    intro r i hr
    rw [ReplicaFiles.inode_unlink] at hr
    split at hr
    · cases hr
    · exact hr
  cases pc with
  | openTmp half =>
      cases half with
      | overlay => trivial
      | sidecar => cases hpc
  | write half ino done =>
      cases half with
      | overlay =>
          obtain ⟨-, hdone, hbytes, hprivate, htmp⟩ := hok
          exact ⟨trivial, hdone, hbytes, fun r hr hr' => hprivate r hr (hsub hr'),
            fun i hi => htmp i (hsub hi)⟩
      | sidecar => cases hpc
  | rename half =>
      cases half with
      | overlay => exact ⟨trivial, fun i hi => hok.2 i (hsub hi)⟩
      | sidecar => cases hpc
  | recheck | mark => exact absurd hok hnot
  | checkStore | unlinkTmp _ | unlinkData | withdrawMeta | withdrawData => trivial

/-- Where the calls stand after a step of an opening. -/
theorem calls_afterOpen {pc : OpenPc} {next : OpenNext} {call : ReplicaCall o}
    (h : (s.afterOpen c pc since fs next).calls d = some call) :
    (d = c ∧ ∃ pc', next = .goes pc' ∧ call = .openView pc'
      (if pc = .stat then (if s.between then none else some s.epoch) else since)) ∨
        (d ≠ c ∧ s.calls d = some call) := by
  rcases update_some h with ⟨hd, hnew⟩ | hold
  · cases next with
    | goes pc' =>
        cases hnew
        exact Or.inl ⟨hd, pc', rfl, rfl⟩
    | returns v => cases hnew
  · exact Or.inr hold

/-- The publications after a step of an opening. -/
theorem publish_afterOpen {pc : OpenPc} {next : OpenNext}
    (hcall : s.calls c = some (.openView pc since)) {qc : PublishPc} :
    (s.afterOpen c pc since fs next).calls d = some (.publish p qc) ↔
      s.calls d = some (.publish p qc) := by
  constructor
  · intro hd
    rcases calls_afterOpen hd with ⟨-, pc', -, hcall'⟩ | ⟨-, hd⟩
    · cases hcall'
    · exact hd
  · intro hd
    have hne : d ≠ c := by
      rintro rfl
      rw [hcall] at hd
      cases hd
    simpa [ReplicaWorld.afterOpen, hne] using hd

/-- An opening that removes a name does so with nothing in place and no publication between its
renames. -/
theorem drop_clear (h : Steady s) {q : ReplicaPath} {rest : List ReplicaPath}
    (hcall : s.calls c = some (.openView (.drop (q :: rest)) (some s.epoch))) :
    s.between = false ∧ ∀ p : Publication o, ¬ InPlace s.files p := by
  obtain ⟨hbetween, hsees⟩ := (h.opener hcall).2 rfl
  exact ⟨hbetween, fun p hp => hsees p hp⟩

end Steady

theorem openStep_files (mode : ValidateMode) (hit : Bool) (fs : ReplicaFiles) (pc : OpenPc) :
    (openStep mode o hit fs pc).1 = fs ∨
      ∃ q rest, pc = .drop (q :: rest) ∧
        openStep mode o hit fs pc = (fs.unlink q, .goes (.drop rest)) := by
  cases pc with
  | drop rest =>
      cases rest with
      | nil => exact Or.inl rfl
      | cons q rest => exact Or.inr ⟨q, rest, rfl, rfl⟩
  | loadStat =>
      left
      simp only [openStep]
      split
      · split <;> rfl
      · rfl
  | loadOpen size =>
      left
      simp only [openStep]
      split <;> rfl
  | loadRead size ino =>
      left
      simp only [openStep]
      split
      · rfl
      · split <;> rfl
  | openData m =>
      left
      simp only [openStep]
      split <;> rfl
  | stat | fstat _ _ | tok _ _ | scan _ _ _ => exact Or.inl rfl

namespace Steady

variable {s : ReplicaWorld o}

/-- An opening that goes on sees what is in place. -/
theorem opener_self (h : Steady s) {mode : ValidateMode} {hit : Bool} {pc pc' : OpenPc}
    (hcall : s.calls c = some (.openView pc since))
    (hnext : (UCache.openStep mode o hit s.files pc).2 = .goes pc') {e : Nat}
    (hsince : (if pc = .stat then (if s.between then none else some s.epoch) else since) = some e) :
    e ≤ s.epoch ∧ (e = s.epoch → s.between = false ∧ ∀ p : Publication o,
      InPlace (UCache.openStep mode o hit s.files pc).1 p →
        Sees (UCache.openStep mode o hit s.files pc).1 p pc') := by
  by_cases hstat : pc = .stat
  · subst hstat
    have hload : pc' = .loadStat := by
      simp only [UCache.openStep] at hnext
      split at hnext
      · cases hnext
        rfl
      · cases hnext
    subst hload
    rw [if_pos rfl] at hsince
    cases hb : s.between with
    | true =>
        rw [hb] at hsince
        cases hsince
    | false =>
        rw [hb] at hsince
        cases hsince
        exact ⟨Nat.le_refl _, fun _ => ⟨rfl, fun _ _ => trivial⟩⟩
  · rw [if_neg hstat] at hsince
    subst hsince
    obtain ⟨hle, hsees⟩ := h.opener hcall
    refine ⟨hle, ?_⟩
    intro he
    obtain ⟨hb, hall⟩ := hsees he
    refine ⟨hb, ?_⟩
    intro p hp
    rcases openStep_files mode hit s.files pc with hsame | ⟨q, rest, rfl, hstep⟩
    · rw [hsame] at hp ⊢
      have hseen := (@openStep_seen o mode hit s.files p hp pc (hall p hp)).2
      rw [hnext] at hseen
      exact hseen.1
    · rw [hstep] at hp
      exact absurd (hall p ((keeps_of_inPlace_unlink hp).inPlace.1 hp)) id

/-- A careful step of an opening keeps the invariant. -/
theorem openStep (h : Steady s) (mode : ValidateMode) (hit : Bool) {pc : OpenPc}
    (hcall : s.calls c = some (.openView pc since))
    (hcond : ∀ q rest, pc = .drop (q :: rest) → since = some s.epoch) :
    Steady (s.afterOpen c pc since (openStep mode o hit s.files pc).1
      (openStep mode o hit s.files pc).2) := by
  -- What the publications did is not undone, and what openings have seen is still so.
  have hkept : ((UCache.openStep mode o hit s.files pc).1.Ok ∧
      (∀ {d p qc}, s.calls d = some (.publish p qc) →
        PublishOk (UCache.openStep mode o hit s.files pc).1 p qc) ∧
      (∀ {P : Publication o}, s.standing = some P → s.between = false →
        InPlace (UCache.openStep mode o hit s.files pc).1 P) ∧
      (∀ {d dc e}, s.calls d = some (.openView dc (some e)) → e = s.epoch → ∀ P : Publication o,
        InPlace (UCache.openStep mode o hit s.files pc).1 P →
          Sees (UCache.openStep mode o hit s.files pc).1 P dc)) := by
    rcases openStep_files mode hit s.files pc with hsame | ⟨q, rest, hpc, hstep⟩
    · rw [hsame]
      exact ⟨h.files, h.publisher, h.standing, fun hd he => ((h.opener hd).2 he).2⟩
    · rw [hstep]
      rw [hcond q rest hpc, hpc] at hcall
      obtain ⟨hbetween, hnone⟩ := h.drop_clear hcall
      refine ⟨h.files.unlink q, ?_, ?_, ?_⟩
      · intro d p qc hd
        refine publishOk_unlink (h.publisher hd) ?_ (hnone p) q
        cases hqc : qc.between with
        | false => rfl
        | true =>
            rw [h.window hd hqc] at hbetween
            cases hbetween
      · intro P hP hb
        exact absurd (h.standing hP hb) (hnone P)
      · intro d dc e _ _ P hP
        exact absurd ((keeps_of_inPlace_unlink hP).inPlace.1 hP) (hnone P)
  obtain ⟨hfiles, hpublisher, hstanding, hopener⟩ := hkept
  constructor
  case files => exact hfiles
  case one =>
      intro c₁ c₂ p₁ p₂ pc₁ pc₂ h1 h2
      exact h.one ((publish_afterOpen hcall).1 h1) ((publish_afterOpen hcall).1 h2)
  case publisher => exact fun hd => hpublisher ((publish_afterOpen hcall).1 hd)
  case window => exact fun hd => h.window ((publish_afterOpen hcall).1 hd)
  case owner =>
      intro hb
      obtain ⟨d, p, qc, hd, hqc⟩ := h.owner hb
      exact ⟨d, p, qc, (publish_afterOpen hcall).2 hd, hqc⟩
  case settled => exact fun hP _ _ _ hd => h.settled hP ((publish_afterOpen hcall).1 hd)
  case standing => exact fun hP hb => hstanding hP hb
  case opener =>
      intro d dc e hd
      rcases calls_afterOpen hd with ⟨-, pc', hnext, hcall'⟩ | ⟨-, hold⟩
      · simp only [ReplicaCall.openView.injEq] at hcall'
        obtain ⟨rfl, hsince⟩ := hcall'
        exact h.opener_self hcall hnext hsince.symm
      · obtain ⟨hle, hsees⟩ := h.opener hold
        exact ⟨hle, fun he => ⟨(hsees he).1, hopener hold he⟩⟩

/-- The end of a process keeps the invariant. -/
theorem crash (h : Steady s) (hcall : s.calls c = some (.publish p pc))
    (hcond : pc.between = true → s.standing = none) :
    Steady { s.setCall c none with between := if pc.between then false else s.between } := by
  have hcalls : ∀ {d call}, Function.update s.calls c none d = some call →
      d ≠ c ∧ s.calls d = some call := by
    intro d call hd
    rcases update_some hd with ⟨-, hnew⟩ | hold
    · cases hnew
    · exact hold
  constructor
  case files => exact h.files
  case one => exact fun h1 h2 => h.one (hcalls h1).2 (hcalls h2).2
  case publisher => exact fun hd => h.publisher (hcalls hd).2
  case window =>
      intro d q qc hd hqc
      obtain ⟨hne, hold⟩ := hcalls hd
      have hpc : ¬ pc.between = true := fun hpc =>
        hne (h.one hold hcall (PublishPc.busy_of_between hqc) (PublishPc.busy_of_between hpc))
      simp only [if_neg hpc]
      exact h.window hold hqc
  case owner =>
      intro hb
      cases hpc : pc.between with
      | true => simp [hpc] at hb
      | false =>
          simp only [hpc] at hb
          obtain ⟨d, q, qc, hd, hqc⟩ := h.owner hb
          have hne : d ≠ c := by
            rintro rfl
            rw [hcall] at hd
            cases hd
            rw [hpc] at hqc
            cases hqc
          exact ⟨d, q, qc, by simpa [ReplicaWorld.setCall, hne] using hd, hqc⟩
  case settled => exact fun hP _ _ _ hd => h.settled hP (hcalls hd).2
  case standing =>
      intro P hP hb
      have hpc : ¬ pc.between = true := by
        intro hpc
        rw [show s.standing = some P from hP] at hcond
        cases hcond hpc
      simp only [if_neg hpc] at hb
      exact h.standing hP hb
  case opener =>
      intro d dc e hd
      obtain ⟨hle, hsees⟩ := h.opener (hcalls hd).2
      refine ⟨hle, fun he => ⟨?_, (hsees he).2⟩⟩
      simp [(hsees he).1]

/-- A call that begins with nothing done, or an opening that ends, keeps the invariant. -/
theorem setCall (h : Steady s) {c : Nat} (hcall : ∀ p pc, s.calls c ≠ some (.publish p pc))
    {call : Option (ReplicaCall o)}
    (hnew : ∀ x, call = some x → (∃ p, x = .publish p .checkStore) ∨ x = .openView .stat none) :
    Steady (s.setCall c call) := by
  have hpublish : ∀ {d p pc}, Function.update s.calls c call d = some (.publish p pc) →
      pc = .checkStore ∨ s.calls d = some (.publish p pc) := by
    intro d p pc hd
    rcases update_some hd with ⟨-, hx⟩ | ⟨-, hold⟩
    · rcases hnew _ hx with ⟨q, hq⟩ | hx
      · cases hq
        exact Or.inl rfl
      · cases hx
    · exact Or.inr hold
  constructor
  case files => exact h.files
  case one =>
      intro c₁ c₂ p₁ p₂ pc₁ pc₂ h1 h2 hb₁ hb₂
      rcases hpublish h1 with rfl | h1
      · cases hb₁
      · rcases hpublish h2 with rfl | h2
        · cases hb₂
        · exact h.one h1 h2 hb₁ hb₂
  case publisher =>
      intro d p pc hd
      rcases hpublish hd with rfl | hd
      · trivial
      · exact h.publisher hd
  case window =>
      intro d p pc hd hpc
      rcases hpublish hd with rfl | hd
      · cases hpc
      · exact h.window hd hpc
  case owner =>
      intro hb
      obtain ⟨d, p, pc, hd, hpc⟩ := h.owner hb
      have hne : d ≠ c := by
        rintro rfl
        exact hcall p pc hd
      exact ⟨d, p, pc, by simpa [ReplicaWorld.setCall, hne] using hd, hpc⟩
  case settled =>
      intro P hP d q qc hd
      rcases hpublish hd with rfl | hd
      · rfl
      · exact h.settled hP hd
  case standing => exact h.standing
  case opener =>
      intro d pc e hd
      rcases update_some hd with ⟨-, hx⟩ | ⟨-, hold⟩
      · rcases hnew _ hx with ⟨q, hq⟩ | hx
        · cases hq
        · cases hx
      · exact h.opener hold

/-- A careful step keeps the invariant. -/
theorem step (h : Steady s) {mode : ValidateMode} {a : ReplicaAct o} {t : ReplicaWorld o}
    (hcond : Careful s a) (hstep : s.step mode a = some t) : Steady t := by
  cases a with
  | publish c p =>
      simp only [ReplicaWorld.step] at hstep
      split at hstep
      · rename_i hidle
        cases hstep
        have hnext := @setCall _ _ h c (by simp [hidle]) (some (.publish p .checkStore))
          (fun x hx => Or.inl ⟨p, (Option.some.inj hx).symm⟩)
        exact ⟨hnext.files, hnext.one, hnext.publisher, hnext.window, hnext.owner, hnext.settled,
          hnext.standing, hnext.opener⟩
      · cases hstep
  | openView c =>
      simp only [ReplicaWorld.step] at hstep
      split at hstep
      · rename_i hidle
        cases hstep
        exact h.setCall (by simp [hidle]) fun x hx => Or.inr (Option.some.inj hx).symm
      · cases hstep
  | publishStep c choice =>
      simp only [ReplicaWorld.step] at hstep
      split at hstep
      · rename_i p pc hcall
        obtain ⟨⟨fs, next⟩, hpub, rfl⟩ := Option.map_eq_some_iff.1 hstep
        obtain ⟨halone, hdata⟩ := hcond p pc hcall
        exact h.publishStep hcall halone hdata hpub
      · cases hstep
  | openStep c hit =>
      simp only [ReplicaWorld.step] at hstep
      split at hstep
      · rename_i pc since hcall
        cases hstep
        exact h.openStep mode hit hcall fun q rest hpc => hcond q rest since (hpc ▸ hcall)
      · cases hstep
  | crash c =>
      simp only [ReplicaWorld.step] at hstep
      split at hstep
      · rename_i p pc hcall
        cases hstep
        exact h.crash hcall (hcond p pc hcall)
      · rename_i pc since hcall
        cases hstep
        exact h.setCall (by simp [hcall]) fun x hx => by cases hx
      · cases hstep
  | store serving =>
      cases hstep
      exact ⟨h.files, h.one, h.publisher, h.window, h.owner, h.settled, h.standing, h.opener⟩

end Steady

/-! ### What a view reads -/

/-- CRCs tell the pages that were read from the pages of the publication: a page of the same length
and with the same CRC is the page. -/
def TellsPages (p : Publication o) (pread : Nat → Nat → Bytes) : Prop :=
  ∀ rf rl i, rf ≤ i → i ≤ rl → rl * kOverlayPageSize < p.payload.length →
    let read := slice (ReplicaView.runData p.stored pread rf rl) ((i - rf) * kOverlayPageSize)
      (p.stored.pageBytes i)
    let page := slice p.payload (i * kOverlayPageSize) (p.stored.pageBytes i)
    read.length = page.length → crc32c read = crc32c page → read = page

/-- A view reads the payload of the publication it was opened with, whatever the disk answers. -/
theorem read_payload {pread : Nat → Nat → Bytes} (h : TellsPages p pread) {tdataOff len : Nat}
    {out out' : Bytes} (hout : out.length = len)
    (hread : ReplicaView.read p.stored pread tdataOff len out = some out') :
    out' = slice p.payload tdataOff len := by
  have hdelivers : ReplicaView.Delivers p.stored pread p.payload := by
    apply ReplicaView.delivers_of_pages
    intro rf rl i hlo hhi hrl hlen hcrc
    have hmul : i * kOverlayPageSize ≤ rl * kOverlayPageSize := Nat.mul_le_mul_right _ hhi
    have hlt : i * kOverlayPageSize < p.stored.tdataBytes := Nat.lt_of_le_of_lt hmul hrl
    have hend := ReplicaView.page_end hlt
    rw [p.pageCrc hlt, Option.some.injEq] at hcrc
    refine h rf rl i hlo hhi hrl ?_ hcrc.symm
    have hroom : p.stored.pageBytes i ≤ p.payload.length - i * kOverlayPageSize := by
      have hsize : p.stored.tdataBytes = p.payload.length := rfl
      rw [hsize] at hend
      have hle : i * kOverlayPageSize + p.stored.pageBytes i ≤ p.payload.length :=
        hend ▸ Nat.min_le_right _ _
      exact Nat.le_sub_of_add_le' hle
    rw [length_slice, length_slice, Nat.min_eq_left hroom,
      Nat.min_eq_left (Nat.le_sub_of_add_le' hlen)]
  obtain ⟨hlen, hbytes⟩ := ReplicaView.read_spec hdelivers hout hread
  apply List.ext_getElem?
  intro k
  rw [getElem?_slice]
  split
  · rename_i hk
    exact hbytes k hk
  · rename_i hk
    exact List.getElem?_eq_none (by omega)

/-- The sidecar an opening has read. -/
def OpenPc.loaded : OpenPc → Option ReplicaMeta
  | .openData m | .fstat m _ | .tok m _ | .scan m _ _ => some m
  | _ => none

/-- CRCs tell the sidecars apart: an image that is accepted is one of a publication. -/
def ImagesTold (s : ReplicaWorld o) : ReplicaAct o → Prop
  | .openStep c _ => ∀ size ino since m,
      s.calls c = some (.openView (.loadRead size ino) since) →
        ReplicaFile.deserialize ((s.files.bytes ino).take size) = some m →
          ∃ p ∈ s.begun, p.stored = m
  | _ => True

/-- Every sidecar in use is one of a publication. -/
structure Known (s : ReplicaWorld o) : Prop where
  views : ∀ v ∈ s.views, ∃ p ∈ s.begun, p.stored = v.view
  calls : ∀ {c pc since m}, s.calls c = some (.openView pc since) → pc.loaded = some m →
    ∃ p ∈ s.begun, p.stored = m

def OpenNext.loaded : OpenNext → Option ReplicaMeta
  | .goes pc => pc.loaded
  | .returns v => v.map OpenedView.view

/-- Where the sidecar of an opening comes from. -/
theorem openStep_loaded {mode : ValidateMode} {hit : Bool} {pc : OpenPc} {m : ReplicaMeta}
    (h : (openStep mode o hit fs pc).2.loaded = some m) :
    pc.loaded = some m ∨ ∃ size ino, pc = .loadRead size ino ∧
      ReplicaFile.deserialize ((fs.bytes ino).take size) = some m := by
  cases pc with
  | stat =>
      simp only [openStep] at h
      split at h <;> cases h
  | loadStat =>
      simp only [openStep] at h
      split at h
      · split at h <;> cases h
      · cases h
  | loadOpen size =>
      simp only [openStep] at h
      split at h <;> cases h
  | loadRead size ino =>
      right
      refine ⟨size, ino, rfl, ?_⟩
      simp only [openStep] at h
      split at h
      · cases h
      · split at h
        · rename_i m' hload
          split at h
          · cases h
            exact hload
          · cases h
        · cases h
  | openData m' =>
      simp only [openStep] at h
      split at h
      · exact Or.inl h
      · cases h
  | fstat m' ino =>
      simp only [openStep] at h
      split at h
      · exact Or.inl h
      · cases h
  | tok m' ino =>
      cases hit <;> exact Or.inl h
  | scan m' ino rf =>
      simp only [openStep, scanStep] at h
      split at h
      · split at h
        · exact Or.inl h
        · cases h
      · exact Or.inl h
  | drop rest => cases rest <;> cases h

namespace Known

variable {s : ReplicaWorld o}

theorem setCall (h : Known s) {c : Nat} {call : Option (ReplicaCall o)}
    (hnew : ∀ pc since, call = some (.openView pc since) → pc.loaded = none) :
    Known (s.setCall c call) := by
  refine ⟨h.views, ?_⟩
  intro d pc since m hd hm
  rcases update_some hd with ⟨-, hx⟩ | ⟨-, hold⟩
  · rw [hnew pc since hx] at hm
    cases hm
  · exact h.calls hold hm

theorem begin (h : Known s) (p : Publication o) : Known { s with begun := p :: s.begun } := by
  have hmore : ∀ {m}, (∃ q ∈ s.begun, q.stored = m) → ∃ q ∈ p :: s.begun, q.stored = m := by
    rintro m ⟨q, hq, hm⟩
    exact ⟨q, List.mem_cons_of_mem p hq, hm⟩
  exact ⟨fun v hv => hmore (h.views v hv), fun hcall hm => hmore (h.calls hcall hm)⟩

theorem step (h : Known s) {mode : ValidateMode} {a : ReplicaAct o} {t : ReplicaWorld o}
    (hcond : ImagesTold s a) (hstep : s.step mode a = some t) : Known t := by
  cases a with
  | publish c p =>
      simp only [ReplicaWorld.step] at hstep
      split at hstep
      · cases hstep
        exact (h.setCall (by simp)).begin p
      · cases hstep
  | openView c =>
      simp only [ReplicaWorld.step] at hstep
      split at hstep
      · cases hstep
        exact h.setCall (by simp [OpenPc.loaded])
      · cases hstep
  | publishStep c choice =>
      simp only [ReplicaWorld.step] at hstep
      split at hstep
      · rename_i p pc hcall
        obtain ⟨⟨fs, next⟩, -, rfl⟩ := Option.map_eq_some_iff.1 hstep
        refine ⟨h.views, ?_⟩
        intro d dc since m hd
        rcases Steady.calls_afterPublish hd with ⟨-, pc', -, hcall'⟩ | ⟨-, hold⟩
        · cases hcall'
        · exact h.calls hold
      · cases hstep
  | openStep c hit =>
      simp only [ReplicaWorld.step] at hstep
      split at hstep
      · rename_i pc since hcall
        cases hstep
        have hknown : ∀ {m}, (UCache.openStep mode o hit s.files pc).2.loaded = some m →
            ∃ p ∈ s.begun, p.stored = m := by
          intro m hm
          rcases openStep_loaded hm with hold | ⟨size, ino, rfl, hload⟩
          · exact h.calls hcall hold
          · exact hcond size ino since m hcall hload
        constructor
        · intro v hv
          simp only [ReplicaWorld.afterOpen] at hv
          split at hv
          · rename_i w hw
            rcases List.mem_cons.1 hv with rfl | hv
            · exact hknown (by rw [hw]; rfl)
            · exact h.views v hv
          · exact h.views v hv
        · intro d dc since' m hd hm
          rcases Steady.calls_afterOpen hd with ⟨-, pc', hnext, hcall'⟩ | ⟨-, hold⟩
          · cases hcall'
            exact hknown (by rw [hnext]; exact hm)
          · exact h.calls hold hm
      · cases hstep
  | crash c =>
      simp only [ReplicaWorld.step] at hstep
      split at hstep
      · cases hstep
        have hnext := @setCall _ _ h c none (by simp)
        exact ⟨hnext.views, hnext.calls⟩
      · cases hstep
        exact h.setCall (by simp)
      · cases hstep
  | store serving =>
      cases hstep
      exact ⟨h.views, h.calls⟩

end Known

/-! ### Runs -/

variable {s : ReplicaWorld o}

namespace ReplicaWorld

/-- Any files, no call under way. -/
structure Start (s : ReplicaWorld o) : Prop where
  files : s.files.Ok
  calls : ∀ c, s.calls c = none
  views : s.views = []
  between : s.between = false
  standing : s.standing = none

/-- Some publication is between its two renames. -/
def Replacing (s : ReplicaWorld o) : Prop :=
  ∃ c p pc, s.calls c = some (.publish p pc) ∧ pc.between = true

end ReplicaWorld

/-- No publication replaces one that stands. -/
def FirstOnly (s : ReplicaWorld o) : ReplicaAct o → Prop
  | .publishStep c .go => ∀ p, s.calls c = some (.publish p (.rename .overlay)) → s.standing = none
  | _ => True

theorem ReplicaWorld.Start.steady (h : s.Start) : Steady s where
  files := h.files
  one := by simp [h.calls]
  publisher := by simp [h.calls]
  window := by simp [h.calls]
  owner := by simp [h.between]
  settled := by simp [h.calls]
  standing := by simp [h.standing]
  opener := by simp [h.calls]

theorem ReplicaWorld.Start.known (h : s.Start) : Known s where
  views := by simp [h.views]
  calls := by simp [h.calls]

namespace Steady

variable {s : ReplicaWorld o}

/-- What stands is adoptable, unless it is being replaced. -/
theorem adoptable (h : Steady s) (mode : ValidateMode) (hp : s.standing = some p)
    (hnot : ¬ s.Replacing) : Adoptable mode s.files p := by
  refine (h.standing hp ?_).adoptable mode
  cases hb : s.between with
  | false => rfl
  | true => exact absurd (h.owner hb) hnot

/-- A careful step of an opening leaves in place what is in place. -/
theorem openStep_inPlace (h : Steady s) {mode : ValidateMode} {hit : Bool} {t : ReplicaWorld o}
    (hcond : Careful s (.openStep c hit)) (hstep : s.step mode (.openStep c hit) = some t)
    (hp : InPlace s.files p) : InPlace t.files p := by
  simp only [ReplicaWorld.step] at hstep
  split at hstep
  · rename_i pc since hcall
    cases hstep
    rcases @openStep_files o mode hit s.files pc with hsame | ⟨q, rest, rfl, -⟩
    · simp only [ReplicaWorld.afterOpen, hsame]
      exact hp
    · rw [hcond q rest since hcall] at hcall
      exact absurd hp ((h.drop_clear hcall).2 p)
  · cases hstep

theorem notReplacing_publish (h : Steady s) {q : Publication o}
    (hcall : s.calls c = some (.publish q pc)) {next : PublishNext}
    (hmove : PublishMove s.files fs pc next (ReplicaWorld.renames s.files pc choice))
    (hnot : ∀ p, s.standing = some p → s.between = false)
    (hfirst : pc = .rename .overlay → choice = .go → s.standing = none)
    (hp : (s.afterPublish c q pc choice fs next).standing = some p) :
    (s.afterPublish c q pc choice fs next).between = false := by
  -- A publication that still stands was not being replaced before the step.
  have hold : s.standing = some p → s.between = true → False := by
    intro hs hb
    rw [hnot p hs] at hb
    cases hb
  cases hb : (s.afterPublish c q pc choice fs next).between with
  | false => rfl
  | true =>
      rw [h.between_afterPublish hcall] at hb
      cases hr : ReplicaWorld.renames s.files pc choice with
      | true =>
          rw [hr] at hmove
          cases hmove with
          | overlay =>
              cases choice with
              | go =>
                  rw [show s.standing = some p from hp] at hfirst
                  cases hfirst rfl rfl
              | piece n => cases hr
              | fail => cases hr
          | sidecar => cases hp
      | false =>
          rw [hr] at hmove
          cases hmove with
          | @goes _ pc' _ hbetween _ _ =>
              have hs : s.standing = some p := by
                cases pc' <;> first | exact hp | cases hp
              rcases hb with ⟨pc'', hnext, hpc''⟩ | ⟨-, hs', -⟩
              · cases hnext
                exact (hold hs (h.window hcall (hbetween ▸ hpc''))).elim
              · exact (hold hs hs').elim
          | withdraws => exact absurd (h.settled hp hcall) (by decide)
          | fails | removes =>
              rcases hb with ⟨pc'', hnext, -⟩ | ⟨-, hs', -⟩
              · cases hnext
              · exact (hold hp hs').elim
          | published =>
              rcases hb with ⟨pc'', hnext, -⟩ | ⟨-, hs', -⟩
              · cases hnext
              · obtain ⟨d, p', pc', hd, hpc'⟩ := h.owner hs'
                have hsame := h.one hd hcall (PublishPc.busy_of_between hpc') rfl
                subst hsame
                rw [hcall] at hd
                cases hd
                cases hpc'

/-- Nothing that stands is being replaced, as long as no publication renames over it. -/
theorem notReplacing_step (h : Steady s) {mode : ValidateMode} {a : ReplicaAct o}
    {t : ReplicaWorld o} (hnot : ∀ p, s.standing = some p → s.between = false)
    (hfirst : FirstOnly s a) (hstep : s.step mode a = some t) :
    ∀ p, t.standing = some p → t.between = false := by
  cases a with
  | publishStep c choice =>
      simp only [ReplicaWorld.step] at hstep
      split at hstep
      · rename_i q pc hcall
        obtain ⟨⟨fs, next⟩, hpub, rfl⟩ := Option.map_eq_some_iff.1 hstep
        obtain ⟨-, hmove⟩ := publishStep_move h.files (h.publisher hcall) hpub
        intro p hp
        exact h.notReplacing_publish hcall hmove hnot
          (by rintro rfl rfl; exact hfirst q hcall) hp
      · cases hstep
  | publish c p =>
      simp only [ReplicaWorld.step] at hstep
      split at hstep
      · cases hstep
        exact hnot
      · cases hstep
  | openView c =>
      simp only [ReplicaWorld.step] at hstep
      split at hstep
      · cases hstep
        exact hnot
      · cases hstep
  | openStep c hit =>
      simp only [ReplicaWorld.step] at hstep
      split at hstep
      · cases hstep
        exact hnot
      · cases hstep
  | crash c =>
      simp only [ReplicaWorld.step] at hstep
      split at hstep
      · cases hstep
        intro p hp
        simp [hnot p hp]
      · cases hstep
        exact hnot
      · cases hstep
  | store serving =>
      cases hstep
      exact hnot

end Steady

/-- **A replica that was published stays adoptable.**  A view reads the payload of the publication
whose sidecar it was opened with.  In a run of careful steps, what a publication left that returned
is adoptable until it is replaced, except between the renames of the one that replaces it, and no
opening removes a publication that is in place; where no publication renames over one that stands,
what stands is adoptable in every state. -/
theorem replica_stays_adoptable (mode : ValidateMode) {s₀ s : ReplicaWorld o}
    {as : List (ReplicaAct o)} (hstart : s₀.Start)
    (hrun : exec (ReplicaWorld.step mode) s₀ as = some s) :
    (Along (ReplicaWorld.step mode) ImagesTold s₀ as → ∀ v ∈ s.views,
      ∃ p ∈ s.begun, v.view = p.stored ∧ ∀ pread tdataOff len out out', TellsPages p pread →
        out.length = len → ReplicaView.read v.view pread tdataOff len out = some out' →
          out' = slice p.payload tdataOff len) ∧
    (Along (ReplicaWorld.step mode) Careful s₀ as →
      (∀ p, s.standing = some p → ¬ s.Replacing → Adoptable mode s.files p) ∧
      (∀ past c hit rest mid after, as = past ++ .openStep c hit :: rest →
        exec (ReplicaWorld.step mode) s₀ past = some mid →
          mid.step mode (.openStep c hit) = some after →
            ∀ p : Publication o, InPlace mid.files p → InPlace after.files p) ∧
      (Along (ReplicaWorld.step mode) FirstOnly s₀ as →
        ∀ p, s.standing = some p → Adoptable mode s.files p)) := by
  refine ⟨?_, ?_⟩
  · intro htold v hv
    have hknown := exec_invariant_along Known (fun s a t h hc hs => h.step hc hs) hstart.known htold
      hrun
    obtain ⟨p, hp, hview⟩ := hknown.views v hv
    refine ⟨p, hp, hview.symm, ?_⟩
    intro pread tdataOff len out out' htells hout hread
    rw [← hview] at hread
    exact read_payload htells hout hread
  · intro hcareful
    have hkeep : ∀ (s : ReplicaWorld o) a t, Steady s → Careful s a →
        ReplicaWorld.step mode s a = some t → Steady t := fun s a t h hc hs => h.step hc hs
    have hsteady := exec_invariant_along Steady hkeep hstart.steady hcareful hrun
    refine ⟨fun p hp => hsteady.adoptable mode hp, ?_, ?_⟩
    · rintro past c hit rest mid after rfl hpast hstep p hp
      obtain ⟨hbefore, hcond⟩ := hcareful.split hpast
      exact (exec_invariant_along Steady hkeep hstart.steady hbefore hpast).openStep_inPlace hcond
        hstep hp
    · intro hfirst p hp
      have hboth := exec_invariant_along
        (fun s => Steady s ∧ ∀ p, s.standing = some p → s.between = false)
        (fun s a t h hc hs => ⟨h.1.step hc.1 hs, h.1.notReplacing_step h.2 hc.2 hs⟩)
        ⟨hstart.steady, by simp [hstart.standing]⟩ (hcareful.and hfirst) hrun
      exact (hboth.1.standing hp (hboth.2 p hp)).adoptable mode

/-! ### A publication, and an opening that is overtaken -/

/-- The process an action is of. -/
def ReplicaAct.call : ReplicaAct o → Option Nat
  | .publish c _ | .openView c | .publishStep c _ | .openStep c _ | .crash c => some c
  | .store _ => none

theorem ReplicaWorld.step_calls {mode : ValidateMode} {t : ReplicaWorld o} {a : ReplicaAct o}
    (h : s.step mode a = some t) (hd : a.call ≠ some d) : t.calls d = s.calls d := by
  cases a with
  | store serving =>
      cases h
      rfl
  | publishStep c choice =>
      have hne : d ≠ c := fun hdc => hd (congrArg some hdc.symm)
      simp only [step] at h
      split at h
      · obtain ⟨r, -, rfl⟩ := Option.map_eq_some_iff.1 h
        exact Function.update_of_ne hne _ _
      · cases h
  | publish c p =>
      have hne : d ≠ c := fun hdc => hd (congrArg some hdc.symm)
      simp only [step] at h
      split at h
      · cases h
        exact Function.update_of_ne hne _ _
      · cases h
  | openView c | openStep c hit =>
      have hne : d ≠ c := fun hdc => hd (congrArg some hdc.symm)
      simp only [step] at h
      split at h
      · cases h
        exact Function.update_of_ne hne _ _
      · cases h
  | crash c =>
      have hne : d ≠ c := fun hdc => hd (congrArg some hdc.symm)
      simp only [step] at h
      split at h
      · cases h
        exact Function.update_of_ne hne _ _
      · cases h
        exact Function.update_of_ne hne _ _
      · cases h

/-- Calls of processes 0 and 1 start no other. -/
theorem ReplicaWorld.calls_outside {mode : ValidateMode} (s : ReplicaWorld o) (a : ReplicaAct o)
    (t : ReplicaWorld o) (hs : ∀ c ∉ [0, 1], s.calls c = none)
    (ha : ∀ c, a.call = some c → c ∈ [0, 1]) (hstep : s.step mode a = some t) :
    ∀ c ∉ [0, 1], t.calls c = none := by
  intro c hc
  rw [step_calls hstep fun hcall => hc (ha c hcall)]
  exact hs c hc

/-- The conditions of a run of processes 0 and 1, checked: nothing stands before a publication's
step, nothing is dropped, and what is read is one of the publications. -/
def replicaCheck (s : ReplicaWorld o) : ReplicaAct o → Bool
  | .publishStep c _ =>
      s.standing.isNone && [0, 1].all fun d => d == c ||
        match s.calls d with
        | some (.publish _ pc) => !pc.busy
        | _ => true
  | .openStep c _ =>
      match s.calls c with
      | some (.openView (.drop _) _) => false
      | some (.openView (.loadRead size ino) _) =>
          match ReplicaFile.deserialize ((s.files.bytes ino).take size) with
          | some m => s.begun.any fun p => decide (p.stored = m)
          | none => true
      | _ => true
  | .crash _ => false
  | _ => true

theorem replicaCheck_sound {a : ReplicaAct o} (hs : ∀ c ∉ [0, 1], s.calls c = none)
    (h : replicaCheck s a = true) : (Careful s a ∧ FirstOnly s a) ∧ ImagesTold s a := by
  cases a with
  | publishStep c choice =>
      simp only [replicaCheck, Bool.and_eq_true, Option.isNone_iff_eq_none] at h
      obtain ⟨hstanding, hall⟩ := h
      have halone : s.Alone c := by
        intro d p pc hne hd
        have hmem : d ∈ [0, 1] := by
          by_contra hout
          rw [hs d hout] at hd
          cases hd
        have hidle := List.all_eq_true.1 hall d hmem
        simpa [hne, hd] using hidle
      refine ⟨⟨fun p pc _ => ⟨fun _ => halone, fun _ => hstanding⟩, ?_⟩, trivial⟩
      cases choice <;> first | exact fun p _ => hstanding | trivial
  | openStep c hit =>
      simp only [replicaCheck] at h
      refine ⟨⟨?_, trivial⟩, ?_⟩
      · intro q rest since hcall
        rw [hcall] at h
        cases h
      · intro size ino since m hcall hm
        rw [hcall] at h
        simp only [hm, List.any_eq_true, decide_eq_true_eq] at h
        exact h
  | crash c => cases h
  | publish c p => exact ⟨⟨trivial, trivial⟩, trivial⟩
  | openView c => exact ⟨⟨trivial, trivial⟩, trivial⟩
  | store serving => exact ⟨⟨trivial, trivial⟩, trivial⟩

theorem along_replicaCheck {mode : ValidateMode} {s : ReplicaWorld o} {as : List (ReplicaAct o)}
    (hs : ∀ c, s.calls c = none) (hcalls : ∀ a ∈ as, ∀ c, a.call = some c → c ∈ [0, 1])
    (h : alongB (ReplicaWorld.step mode) replicaCheck s as = true) :
    Along (ReplicaWorld.step mode) (fun s a => (Careful s a ∧ FirstOnly s a) ∧ ImagesTold s a) s
      as := by
  exact along_of_check (fun s => ∀ c ∉ [0, 1], s.calls c = none)
    (fun a => ∀ c, a.call = some c → c ∈ [0, 1]) ReplicaWorld.calls_outside
    (fun _ _ hs _ => replicaCheck_sound hs) (fun c _ => hs c) hcalls h

/-- An origin of four bytes. -/
def fourByteOrigin : OriginData :=
  { key := [107]
    originSize := 4 }

/-- A sidecar for it that maps nothing. -/
def unmappedMeta : ReplicaMeta :=
  { originSize := 4
    virtualSize := 4 }

set_option maxRecDepth 20000 in
def onePayload : Publication fourByteOrigin where
  given := unmappedMeta
  payload := [1]
  fits := by constructor <;> decide +kernel
  accepted := by decide +kernel
  origin := by decide
  encoding := by decide
  payloadSize := by decide
  imageSize := by decide +kernel

set_option maxRecDepth 20000 in
def twoPayload : Publication fourByteOrigin where
  given := unmappedMeta
  payload := [2, 3]
  fits := by constructor <;> decide +kernel
  accepted := by decide +kernel
  origin := by decide
  encoding := by decide
  payloadSize := by decide
  imageSize := by decide +kernel

/-- The steps of a publication that goes through. -/
def publishRun (c : Nat) (p : Publication o) : List (ReplicaAct o) :=
  [.publish c p, .publishStep c .go, .publishStep c .go, .publishStep c (.piece p.payload.length),
    .publishStep c .go, .publishStep c .go, .publishStep c .go,
    .publishStep c (.piece (p.content .sidecar).length), .publishStep c .go, .publishStep c .go,
    .publishStep c .go, .publishStep c .go]

/-- No files and no calls. -/
def emptyWorld : ReplicaWorld fourByteOrigin :=
  { files :=
      { inode := fun _ => none
        bytes := fun _ => []
        next := 0 } }

theorem emptyWorld_start : emptyWorld.Start where
  files := ⟨by simp [emptyWorld], by simp [emptyWorld]⟩
  calls := fun _ => rfl
  views := rfl
  between := rfl
  standing := rfl

/-- A publication, then an opening that finds its marker. -/
def adoptRun : List (ReplicaAct fourByteOrigin) :=
  publishRun 0 onePayload ++ .openView 1 :: List.replicate 7 (.openStep 1 true)

set_option maxRecDepth 20000 in
/-- One payload is published and adopted. -/
theorem replica_stays_adoptable_small :
    ∃ s v, exec (ReplicaWorld.step .size) emptyWorld adoptRun = some s ∧
      s.standing = some onePayload ∧ v ∈ s.views ∧ Adoptable .size s.files onePayload ∧
      ∃ p ∈ s.begun, v.view = p.stored ∧ ∀ pread tdataOff len out out', TellsPages p pread →
        out.length = len → ReplicaView.read v.view pread tdataOff len out = some out' →
          out' = slice p.payload tdataOff len := by
  have hobs : (exec (ReplicaWorld.step .size) emptyWorld adoptRun).map
      (fun s => decide (s.standing = some onePayload) && !s.views.isEmpty) = some true := by
    decide +kernel
  obtain ⟨s, hs, hobs⟩ := Option.map_eq_some_iff.1 hobs
  simp only [Bool.and_eq_true, decide_eq_true_eq] at hobs
  obtain ⟨hstanding, hviews⟩ := hobs
  have halong := @along_replicaCheck _ .size emptyWorld adoptRun (fun _ => rfl)
    (by decide +kernel) (by decide +kernel)
  obtain ⟨hread, hcareful⟩ := replica_stays_adoptable .size emptyWorld_start hs
  cases hv : s.views with
  | nil => simp [hv] at hviews
  | cons v rest =>
      have hmem : v ∈ s.views := by simp [hv]
      exact ⟨s, v, hs, hstanding, hmem,
        (hcareful (halong.imp fun _ _ h => h.1.1)).2.2 (halong.imp fun _ _ h => h.1.2) _ hstanding,
        hread (halong.imp fun _ _ h => h.2) v hmem⟩

theorem not_adoptable_of_absent {mode : ValidateMode} (h : fs.inode .tmeta = none)
    (p : Publication o) : ¬ Adoptable mode fs p := by
  intro hadopt
  obtain ⟨fuel, v, hrun, -⟩ := hadopt false
  cases fuel with
  | zero => cases hrun
  | succ fuel =>
      simp only [openRun, openStep, h] at hrun
      cases hrun

/-- An opening reads the sidecar of the first publication; the second replaces both files and
returns; the opening finds an overlay of another size and drops what is there. -/
def staleRun : List (ReplicaAct fourByteOrigin) :=
  publishRun 0 onePayload ++ (.openView 1 :: List.replicate 4 (.openStep 1 false)) ++
    publishRun 0 twoPayload ++ List.replicate 7 (.openStep 1 false)

set_option maxRecDepth 20000 in
/-- An opening that judged the older pair unlinks the newer `.tmeta`. -/
theorem replica_dropped_by_stale_opening :
    ∃ s, emptyWorld.Start ∧ exec (ReplicaWorld.step .size) emptyWorld staleRun = some s ∧
      s.standing = some twoPayload ∧ (∀ c, s.calls c = none) ∧
        ¬ Adoptable .size s.files twoPayload := by
  have hobs : (exec (ReplicaWorld.step .size) emptyWorld staleRun).map
      (fun s => decide (s.standing = some twoPayload) && (s.files.inode .tmeta).isNone &&
        ((s.calls 0).isNone && (s.calls 1).isNone)) = some true := by
    decide +kernel
  obtain ⟨s, hs, hobs⟩ := Option.map_eq_some_iff.1 hobs
  simp only [Bool.and_eq_true, decide_eq_true_eq, Option.isNone_iff_eq_none] at hobs
  obtain ⟨⟨hstanding, habsent⟩, h0, h1⟩ := hobs
  have hothers : ∀ c ∉ [0, 1], s.calls c = none := by
    have hcalls : ∀ a ∈ staleRun, ∀ c, a.call = some c → c ∈ [0, 1] := by decide +kernel
    exact exec_invariant_along _ ReplicaWorld.calls_outside (fun _ _ => rfl)
      (along_of_forall fun a ha _ => hcalls a ha) hs
  refine ⟨s, emptyWorld_start, hs, hstanding, ?_, not_adoptable_of_absent habsent _⟩
  intro c
  by_cases hc : c ∈ [0, 1]
  · rcases List.mem_cons.1 hc with rfl | hc
    · exact h0
    · rw [List.mem_singleton.1 hc]
      exact h1
  · exact hothers c hc

end UCache
