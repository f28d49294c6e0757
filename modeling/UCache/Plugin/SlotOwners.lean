/-
Module: UCache.Plugin.SlotOwners
Purpose: Which request holds the claim of a slot.  The claim is not recorded with the slot: it ends
  behind its holder's back when an entry of another process makes the slot ready and the slot is
  then forgotten.
Trusted boundary: none
Main exports: Obeys, slot_claim_exclusive, slot_claimed_twice_after_forget
-/
import UCache.Plugin.SlotClaims

namespace UCache

open Lib

/-! ### What a request does -/

/-- The claim that a section gives up. -/
def SlotSection.ends : SlotSection → Option (Nat × Nat)
  | .staging r i _ _ => some (r, i)
  | .storing r i _ => some (r, i)
  | .abandoning r i => some (r, i)
  | _ => none

def SlotPhase.ends : SlotPhase → Option (Nat × Nat)
  | .blocked sec => sec.ends
  | _ => none

namespace ClaimWorld

/-- The claim that thread `t` is giving up. -/
def ending (s : ClaimWorld) (t : Nat) : Option (Nat × Nat) :=
  match s.threads t with
  | .locked => s.mu.bind fun p => if p.1 = t then p.2.ends else none
  | p => p.ends

end ClaimWorld

/-- [SRC ColdRun.cc:1049-1061, 1192-1195] A request stages or abandons a slot it claimed, once: the
slots it never staged are abandoned when it fails. -/
def Obeys (s : ClaimWorld) : ClaimAct → Prop
  | .start _ call =>
      ∀ k, call.phase.ends = some k → k ∈ s.claims ∧ ∀ t, s.ending t ≠ some k
  | _ => True

/-- A slot that is forgotten is claimed by no request that is not finished with it. -/
def ForgetsUnclaimed (s : ClaimWorld) : ClaimAct → Prop
  | .run t => ∀ i, (s.mu = some (t, .forgetting i) ∨
      ∃ r j drop keep, s.mu = some (t, .staging r j (i :: drop) keep)) →
      s.state i = .ready → ∀ r, (r, i) ∉ s.claims
  | _ => True

/-- At most one request holds the claim of a slot, and who is about to take a slot out of `kFetching`
by `abandon` holds it. -/
def ExclusiveClaims (s : ClaimWorld) : Prop :=
  (s.claims.map Prod.snd).Nodup ∧ ∀ t r i, s.mu = some (t, .abandoning r i) → (r, i) ∈ s.claims

/-! ### The invariant -/

structure ClaimInv (s : ClaimWorld) : Prop where
  nodup : (s.claims.map Prod.snd).Nodup
  /-- A slot that is claimed is not absent: nobody else can claim it. -/
  live : ∀ k ∈ s.claims, s.state k.2 ≠ .absent
  held : ∀ t k, s.ending t = some k → k ∈ s.claims
  once : ∀ t t' k, s.ending t = some k → s.ending t' = some k → t = t'

namespace ClaimInv

variable {s s' : ClaimWorld}

/-- The claims stay, and thread `t` gives up what it was giving up, or nothing. -/
theorem keep (h : ClaimInv s) {t : Nat} (hclaims : s'.claims = s.claims)
    (hlive : ∀ k ∈ s.claims, s'.state k.2 ≠ .absent)
    (hother : ∀ t', t' ≠ t → s'.ending t' = s.ending t')
    (hself : s'.ending t = s.ending t ∨ s'.ending t = none) : ClaimInv s' := by
  have hsub : ∀ t' k, s'.ending t' = some k → s.ending t' = some k := by
    intro t' k hk
    by_cases ht : t' = t
    · subst ht
      rcases hself with hself | hself
      · rw [← hself]
        exact hk
      · rw [hself] at hk
        cases hk
    · rw [← hother t' ht]
      exact hk
  refine ⟨by rw [hclaims]; exact h.nodup, by rw [hclaims]; exact hlive, ?_, ?_⟩
  · intro t' k hk
    rw [hclaims]
    exact h.held t' k (hsub t' k hk)
  · exact fun t₁ t₂ k h1 h2 => h.once t₁ t₂ k (hsub t₁ k h1) (hsub t₂ k h2)

/-- A claim of a slot that is absent. -/
theorem claim (h : ClaimInv s) {t r i : Nat} (hi : s.state i = .absent)
    (hclaims : s'.claims = s.claims ++ [(r, i)])
    (hstate : s'.state = Function.update s.state i .fetching)
    (hother : ∀ t', t' ≠ t → s'.ending t' = s.ending t') (hself : s'.ending t = none) :
    ClaimInv s' := by
  have hnot : i ∉ s.claims.map Prod.snd := by
    intro hmem
    obtain ⟨k, hk, rfl⟩ := List.mem_map.1 hmem
    exact h.live k hk hi
  have hsub : ∀ t' k, s'.ending t' = some k → s.ending t' = some k := by
    intro t' k hk
    by_cases ht : t' = t
    · subst ht
      rw [hself] at hk
      cases hk
    · rw [← hother t' ht]
      exact hk
  refine ⟨?_, ?_, ?_, fun t₁ t₂ k h1 h2 => h.once t₁ t₂ k (hsub t₁ k h1) (hsub t₂ k h2)⟩
  · rw [hclaims, List.map_append, List.nodup_append]
    refine ⟨h.nodup, by simp, ?_⟩
    rintro a ha b hb rfl
    obtain rfl : a = i := by simpa using hb
    exact hnot ha
  · intro k hk
    rw [hclaims] at hk
    rw [hstate]
    by_cases hki : k.2 = i
    · simp [hki]
    · rw [Function.update_of_ne hki]
      rcases List.mem_append.1 hk with hk | hk
      · exact h.live k hk
      · obtain rfl : k = (r, i) := by simpa using hk
        exact absurd rfl hki
  · intro t' k hk
    rw [hclaims]
    exact List.mem_append_left _ (h.held t' k (hsub t' k hk))

/-- The claim that thread `t` was giving up ends. -/
theorem release (h : ClaimInv s) {t r i : Nat} (hend : s.ending t = some (r, i))
    (hclaims : s'.claims = s.claims.erase (r, i))
    (hstate : ∀ j, j ≠ i → s'.state j = s.state j)
    (hother : ∀ t', t' ≠ t → s'.ending t' = s.ending t') (hself : s'.ending t = none) :
    ClaimInv s' := by
  have hmem := h.held t (r, i) hend
  -- nobody else holds a claim of the slot
  have hne : ∀ k ∈ s.claims.erase (r, i), k.2 ≠ i := by
    intro k hk hki
    have hperm := (List.perm_cons_erase hmem).map Prod.snd
    have hnodup := hperm.nodup_iff.1 h.nodup
    rw [List.map_cons, List.nodup_cons] at hnodup
    exact hnodup.1 (List.mem_map.2 ⟨k, hk, hki⟩)
  refine ⟨?_, ?_, ?_, ?_⟩
  · rw [hclaims]
    exact h.nodup.sublist ((List.erase_sublist).map Prod.snd)
  · intro k hk
    rw [hclaims] at hk
    rw [hstate k.2 (hne k hk)]
    exact h.live k (List.mem_of_mem_erase hk)
  · intro t' k hk
    have ht : t' ≠ t := by
      rintro rfl
      rw [hself] at hk
      cases hk
    rw [hother t' ht] at hk
    have hkne : k ≠ (r, i) := by
      rintro rfl
      exact ht (h.once t' t _ hk hend)
    rw [hclaims]
    exact (List.mem_erase_of_ne hkne).2 (h.held t' k hk)
  · intro t₁ t₂ k h1 h2
    have ht₁ : t₁ ≠ t := by
      rintro rfl
      rw [hself] at h1
      cases h1
    have ht₂ : t₂ ≠ t := by
      rintro rfl
      rw [hself] at h2
      cases h2
    rw [hother t₁ ht₁] at h1
    rw [hother t₂ ht₂] at h2
    exact h.once t₁ t₂ k h1 h2

/-- A thread begins to give up a claim. -/
theorem start (h : ClaimInv s) {t : Nat} (hclaims : s'.claims = s.claims)
    (hstate : s'.state = s.state) (hother : ∀ t', t' ≠ t → s'.ending t' = s.ending t')
    (hself : ∀ k, s'.ending t = some k → k ∈ s.claims ∧ ∀ t', s.ending t' ≠ some k) :
    ClaimInv s' := by
  refine ⟨by rw [hclaims]; exact h.nodup, by rw [hclaims, hstate]; exact h.live, ?_, ?_⟩
  · intro t' k hk
    rw [hclaims]
    by_cases ht : t' = t
    · subst ht
      exact (hself k hk).1
    · rw [hother t' ht] at hk
      exact h.held t' k hk
  · intro t₁ t₂ k h1 h2
    by_cases ht₁ : t₁ = t
    · by_cases ht₂ : t₂ = t
      · rw [ht₁, ht₂]
      · rw [ht₁] at h1
        rw [hother t₂ ht₂] at h2
        exact absurd h2 ((hself k h1).2 t₂)
    · by_cases ht₂ : t₂ = t
      · rw [ht₂] at h2
        rw [hother t₁ ht₁] at h1
        exact absurd h1 ((hself k h2).2 t₁)
      · rw [hother t₁ ht₁] at h1
        rw [hother t₂ ht₂] at h2
        exact h.once t₁ t₂ k h1 h2

end ClaimInv

/-! ### One step -/

namespace ClaimWorld

variable {s s' : ClaimWorld} {t : Nat} {sec : SlotSection}

/-- A thread that does not have the mutex gives up what its phase says. -/
theorem ending_goto_self (s : ClaimWorld) (t : Nat) {p : SlotPhase} (hp : p ≠ .locked) :
    (s.goto t p).ending t = p.ends := by
  unfold ending goto
  simp only [Function.update_self]

theorem ending_goto_other (s : ClaimWorld) {t' : Nat} (p : SlotPhase) (h : t' ≠ t) :
    (s.goto t p).ending t' = s.ending t' := by
  unfold ending goto
  simp only [Function.update_of_ne h]

/-- The holder of the mutex gives up what its section says. -/
theorem ending_holder (ht : s.threads t = .locked) (hmu : s.mu = some (t, sec)) :
    s.ending t = sec.ends := by
  simp [ending, ht, hmu]

/-- Another thread is none the wiser when the holder goes on or lets go. -/
theorem ending_other {t' : Nat} (hmu : s.mu = some (t, sec))
    (hmu' : s'.mu = none ∨ ∃ sec', s'.mu = some (t, sec')) (hne : t' ≠ t)
    (hthreads : s'.threads t' = s.threads t') : s'.ending t' = s.ending t' := by
  unfold ending
  rw [hthreads]
  cases s.threads t' with
  | locked =>
      have hnone : (s.mu.bind fun p => if p.1 = t' then p.2.ends else none) = none := by
        simp [hmu, Ne.symm hne]
      have hnone' : (s'.mu.bind fun p => if p.1 = t' then p.2.ends else none) = none := by
        rcases hmu' with hmu' | ⟨sec', hmu'⟩ <;> simp [hmu', Ne.symm hne]
      exact hnone'.trans hnone.symm
  | _ => rfl

/-- Where a section stands after its next step. -/
theorem runLocked_next (s : ClaimWorld) (t : Nat) (sec : SlotSection) :
    (s.runLocked t sec).mu = none ∨ ∃ sec', (s.runLocked t sec).mu = some (t, sec') := by
  by_cases hdone : sec = .done
  · subst hdone
    exact Or.inl rfl
  · exact Or.inr (runLocked_stays s t hdone).2

theorem runLocked_ending_other (hmu : s.mu = some (t, sec)) {t' : Nat} (hne : t' ≠ t) :
    (s.runLocked t sec).ending t' = s.ending t' := by
  refine ending_other hmu (runLocked_next s t sec) hne ?_
  rw [runLocked_threads]
  split
  · exact Function.update_of_ne hne _ _
  · rfl

/-- The claim the holder gives up, after a step that does not let go of the mutex. -/
theorem runLocked_ending_self {sec' : SlotSection} (ht : s.threads t = .locked)
    (hdone : sec ≠ .done) (hmu' : (s.runLocked t sec).mu = some (t, sec')) :
    (s.runLocked t sec).ending t = sec'.ends := by
  refine ending_holder ?_ hmu'
  rw [runLocked_threads, if_neg hdone]
  exact ht

theorem forgetState_claims (s : ClaimWorld) (i : Nat) : (s.forgetState i).claims = s.claims := by
  unfold forgetState
  split <;> rfl

theorem forgetState_live {i : Nat} (h : ClaimInv s)
    (hfree : s.state i = .ready → ∀ r, (r, i) ∉ s.claims) :
    ∀ k ∈ s.claims, (s.forgetState i).state k.2 ≠ .absent := by
  intro k hk
  unfold forgetState
  split
  · rename_i hready
    have hne : k.2 ≠ i := by
      rintro rfl
      exact hfree hready k.1 hk
    simpa [hne] using h.live k hk
  · exact h.live k hk

/-- A step of the holder of the mutex. -/
theorem runLocked_claimInv (h : ClaimInv s) (ht : s.threads t = .locked)
    (hmu : s.mu = some (t, sec)) (hforget : ForgetsUnclaimed s (.run t)) :
    ClaimInv (s.runLocked t sec) := by
  have hother : ∀ t', t' ≠ t → (s.runLocked t sec).ending t' = s.ending t' :=
    fun t' hne => runLocked_ending_other hmu hne
  have hself : ∀ {q : SlotSection}, sec ≠ .done → (s.runLocked t sec).mu = some (t, q) →
      (s.runLocked t sec).ending t = q.ends :=
    fun hdone hq => runLocked_ending_self ht hdone hq
  have hend : s.ending t = sec.ends := ending_holder ht hmu
  cases sec with
  | claim r i w =>
      cases hi : s.state i with
      | absent =>
          have hrun : s.runLocked t (.claim r i w) = (s.claim r i).next t .done := by
            simp only [runLocked, hi]
          rw [hrun] at hother hself ⊢
          exact h.claim hi rfl rfl hother (hself (by simp) rfl)
      | ready =>
          have hrun : s.runLocked t (.claim r i w) = s.next t .done := by
            simp only [runLocked, hi]
          rw [hrun] at hother hself ⊢
          exact h.keep rfl h.live hother (Or.inr (hself (by simp) rfl))
      | fetching =>
          have hrun : s.runLocked t (.claim r i w) = s.next t (.register i w) := by
            simp only [runLocked, hi]
          rw [hrun] at hother hself ⊢
          exact h.keep rfl h.live hother (Or.inr (hself (by simp) rfl))
  | register i w => exact h.keep rfl h.live hother (Or.inr (hself (by simp) rfl))
  | staging r i drop keep =>
      cases drop with
      | nil => exact h.keep rfl h.live hother (Or.inl ((hself (by simp) rfl).trans hend.symm))
      | cons j drop =>
          refine h.keep (forgetState_claims s j) ?_ hother
            (Or.inl ((hself (by simp) rfl).trans hend.symm))
          exact forgetState_live h (hforget j (Or.inr ⟨r, i, drop, keep, hmu⟩))
  | storing r i keep =>
      refine h.release hend rfl (fun j hj => ?_) hother (hself (by simp) rfl)
      exact Function.update_of_ne hj _ _
  | applying slots =>
      cases slots with
      | nil => exact h.keep rfl h.live hother (Or.inr (hself (by simp) rfl))
      | cons i slots =>
          by_cases hi : s.state i = .ready
          · have hrun : s.runLocked t (.applying (i :: slots)) =
                { s with isOpen := Function.update s.isOpen i false }.next t (.applying slots) := by
              simp only [runLocked, if_pos hi]
            rw [hrun] at hother hself ⊢
            exact h.keep rfl h.live hother (Or.inr (hself (by simp) rfl))
          · have hrun : s.runLocked t (.applying (i :: slots)) = s.next t (.readying i slots) := by
              simp only [runLocked, if_neg hi]
            rw [hrun] at hother hself ⊢
            exact h.keep rfl h.live hother (Or.inr (hself (by simp) rfl))
  | readying i slots =>
      refine h.keep rfl (fun k hk => ?_) hother (Or.inr (hself (by simp) rfl))
      change Function.update s.state i .ready k.2 ≠ .absent
      by_cases hki : k.2 = i
      · simp [hki]
      · rw [Function.update_of_ne hki]
        exact h.live k hk
  | waking i op slots => exact h.keep rfl h.live hother (Or.inr (hself (by simp) rfl))
  | abandoning r i =>
      by_cases hi : s.state i = .fetching
      · have hrun : s.runLocked t (.abandoning r i) =
            { s.leave t .abandon i .absent with claims := s.claims.erase (r, i) }.next t
              (.waking i .abandon []) := by
          simp only [runLocked, if_pos hi]
        rw [hrun] at hother hself ⊢
        refine h.release hend rfl (fun j hj => ?_) hother (hself (by simp) rfl)
        exact Function.update_of_ne hj _ _
      · have hrun : s.runLocked t (.abandoning r i) =
            { s with isOpen := Function.update s.isOpen i false,
                     claims := s.claims.erase (r, i) }.next t (.waking i .abandon []) := by
          simp only [runLocked, if_neg hi]
        rw [hrun] at hother hself ⊢
        exact h.release hend rfl (fun _ _ => rfl) hother (hself (by simp) rfl)
  | forgetting i =>
      refine h.keep (forgetState_claims s i) ?_ hother (Or.inr (hself (by simp) rfl))
      exact forgetState_live h (hforget i (Or.inl hmu))
  | done =>
      exact h.keep rfl h.live hother (Or.inr (by simp [runLocked, ending, goto, SlotPhase.ends]))

theorem step_claimInv (h : ClaimInv s) {a : ClaimAct}
    (hcond : Obeys s a ∧ ForgetsUnclaimed s a) (hstep : s.step a = some s') : ClaimInv s' := by
  obtain ⟨hobeys, hforget⟩ := hcond
  -- a thread that gives up no claim, before the step or after it
  have hmoved {t : Nat} {p : SlotPhase} (hp : p ≠ .locked) (hends : p.ends = none) :
      ClaimInv (s.goto t p) :=
    h.keep rfl h.live (fun t' hne => ending_goto_other s _ hne)
      (Or.inr ((ending_goto_self s t hp).trans hends))
  cases step_stepped hstep with
  | @start t call hidle =>
      have hp : call.phase ≠ .locked := by cases call <;> simp [SlotCall.phase]
      refine h.start rfl rfl (fun t' hne => ending_goto_other s _ hne) ?_
      rw [ending_goto_self s t hp]
      exact hobeys
  | call hmem => exact ⟨h.nodup, h.live, h.held, h.once⟩
  | @claim t r i w ht hi =>
      refine h.claim hi rfl rfl (fun t' hne => ?_) (ending_goto_self (s.claim r i) t (by simp))
      exact ending_goto_other (s.claim r i) .idle hne
  | claimLater ht => exact hmoved (by simp) rfl
  | @look t i gone ht => exact hmoved (by simp) (by cases gone <;> rfl)
  | pass ht => exact hmoved (by simp) rfl
  | @lock t sec ht hfree =>
      refine @ClaimInv.keep s _ h t rfl h.live (fun t' hne => ?_) (Or.inl ?_)
      · unfold ending goto next
        simp only [Function.update_of_ne hne]
        cases s.threads t' <;> simp [hfree, Ne.symm hne]
      · simp [ending, goto, next, ht, SlotPhase.ends]
  | locked ht hmu => exact runLocked_claimInv h ht hmu hforget

end ClaimWorld

/-- In every run of requests in which no slot is forgotten that an unfinished request has claimed,
at any time at most one request holds the claim of a slot, and a slot leaves `kFetching` by `abandon`
only through it. -/
theorem slot_claim_exclusive (acts : List ClaimAct) (s : ClaimWorld)
    (hrun : exec ClaimWorld.step {} acts = some s)
    (hcond : Along ClaimWorld.step (fun s a => Obeys s a ∧ ForgetsUnclaimed s a) {} acts) :
    ExclusiveClaims s := by
  have hstart : ClaimInv {} := ⟨by simp, by simp, by simp [ClaimWorld.ending, SlotPhase.ends],
    by simp [ClaimWorld.ending, SlotPhase.ends]⟩
  have hinv : s.Inv ∧ ClaimInv s :=
    exec_invariant_along (fun s => s.Inv ∧ ClaimInv s)
      (fun _ _ _ h hc hstep => ⟨ClaimWorld.step_inv h.1 hstep,
        ClaimWorld.step_claimInv h.2 hc hstep⟩)
      ⟨ClaimWorld.empty_inv, hstart⟩ hcond hrun
  refine ⟨hinv.2.nodup, fun t r i hmu => ?_⟩
  exact hinv.2.held t (r, i) (ClaimWorld.ending_holder (hinv.1.holder t _ hmu) hmu)

/-- Request 1 claims a slot and fetches it; the entry of another process makes it ready; its record
turns out unreadable and is forgotten; request 2 claims it; the fetch of request 1 fails. -/
def claimedTwice : List ClaimAct :=
  [.start 1 (.claimOrWait 1 0 10), .run 1, .start 3 (.apply [0]), .run 3, .run 3, .run 3, .run 3,
    .run 3, .run 3, .start 4 (.forget 0), .run 4, .run 4, .run 4, .start 2 (.claimOrWait 2 0 20),
    .run 2, .start 1 (.abandon 1 0), .run 1]

def ClaimAct.thread : ClaimAct → Nat
  | .start t _ => t
  | .run t => t
  | .call t => t

/-- A step moves its own thread only. -/
theorem ClaimWorld.step_threads {s s' : ClaimWorld} {a : ClaimAct} (hstep : s.step a = some s')
    {t : Nat} (hne : t ≠ a.thread) : s'.threads t = s.threads t := by
  cases step_stepped hstep with
  | call hmem => rfl
  | locked ht hmu =>
      rw [runLocked_threads]
      split
      · exact Function.update_of_ne hne _ _
      · rfl
  | _ => exact Function.update_of_ne hne _ _

/-- `Obeys`, checked for the threads below `n`. -/
def obeysB (n : Nat) (s : ClaimWorld) : ClaimAct → Bool
  | .start _ call =>
      match call.phase.ends with
      | none => true
      | some k => s.claims.contains k && (List.range n).all fun t => decide (s.ending t ≠ some k)
  | _ => true

theorem obeys_of_check {n : Nat} {acts : List ClaimAct} (hacts : ∀ a ∈ acts, a.thread < n)
    (h : alongB ClaimWorld.step (obeysB n) {} acts = true) :
    Along ClaimWorld.step Obeys {} acts := by
  refine along_of_check (fun s => ∀ t, n ≤ t → s.threads t = .idle) (fun a => a.thread < n)
    ?_ ?_ (fun _ _ => rfl) hacts h
  · intro s a s' hidle ha hstep t ht
    rw [ClaimWorld.step_threads hstep (by omega)]
    exact hidle t ht
  · intro s a hidle ha hcheck
    cases a with
    | start t call =>
        intro k hk
        simp only [obeysB, hk, Bool.and_eq_true, List.contains_iff_mem, decide_eq_true_eq,
          List.all_eq_true, List.mem_range] at hcheck
        refine ⟨hcheck.1, fun t' hend => ?_⟩
        by_cases ht' : t' < n
        · exact hcheck.2 t' ht' hend
        · rw [ClaimWorld.ending, hidle t' (by omega)] at hend
          cases hend
    | _ => trivial

/-- Both requests hold the claim, and request 1 is about to take the slot out of `kFetching`, where
the claim of request 2 has put it. -/
theorem slot_claimed_twice_after_forget :
    Along ClaimWorld.step Obeys {} claimedTwice ∧
      ∃ s, exec ClaimWorld.step {} claimedTwice = some s ∧ s.claims = [(1, 0), (2, 0)] ∧
        s.mu = some (1, .abandoning 1 0) ∧ s.state 0 = .fetching ∧ ¬ ExclusiveClaims s := by
  refine ⟨obeys_of_check (n := 5) (by decide) (by decide +kernel), ?_⟩
  have hobs : (exec ClaimWorld.step {} claimedTwice).map
      (fun s => decide (s.claims = [(1, 0), (2, 0)]) && decide (s.mu = some (1, .abandoning 1 0)) &&
        decide (s.state 0 = .fetching)) = some true := by decide +kernel
  obtain ⟨s, hrun, hobs⟩ := Option.map_eq_some_iff.1 hobs
  simp only [Bool.and_eq_true, decide_eq_true_eq] at hobs
  obtain ⟨⟨hclaims, hmu⟩, hstate⟩ := hobs
  refine ⟨s, hrun, hclaims, hmu, hstate, fun hexcl => ?_⟩
  have hnodup := hexcl.1
  rw [hclaims] at hnodup
  simp at hnodup

/-- `ForgetsUnclaimed`, checked. -/
def forgetsB (s : ClaimWorld) : ClaimAct → Bool
  | .run _ =>
      match s.mu with
      | some (_, .forgetting i) => s.claims.all fun k => decide (k.2 ≠ i)
      | some (_, .staging _ _ (i :: _) _) => s.claims.all fun k => decide (k.2 ≠ i)
      | _ => true
  | _ => true

theorem forgetsUnclaimed_of_check {s : ClaimWorld} {a : ClaimAct} (h : forgetsB s a = true) :
    ForgetsUnclaimed s a := by
  cases a with
  | run t =>
      rintro i (hmu | ⟨r, j, drop, keep, hmu⟩) - r' hmem <;>
        · simp only [forgetsB, hmu, List.all_eq_true, decide_eq_true_eq] at h
          exact h _ hmem rfl
  | _ => trivial

/-- Request 1 gives its claim back, and request 2, which waited, claims the slot. -/
def claimAfterAbandon : List ClaimAct :=
  waitAndAbandon ++ [.start 1 (.claimOrWait 2 0 20), .run 1]

/-- A slot claimed again once it was abandoned. -/
theorem slot_claim_exclusive_after_abandon :
    ∃ s, exec ClaimWorld.step {} claimAfterAbandon = some s ∧ s.claims = [(2, 0)] ∧
      ExclusiveClaims s := by
  have hobs : (exec ClaimWorld.step {} claimAfterAbandon).map
      (fun s => decide (s.claims = [(2, 0)])) = some true := by decide +kernel
  obtain ⟨s, hrun, hobs⟩ := Option.map_eq_some_iff.1 hobs
  have hobeys : Along ClaimWorld.step Obeys {} claimAfterAbandon :=
    obeys_of_check (n := 5) (by decide) (by decide +kernel)
  have hforget : Along ClaimWorld.step ForgetsUnclaimed {} claimAfterAbandon :=
    along_of_check (fun _ => True) (fun _ => True) (fun _ _ _ _ _ _ => trivial)
      (fun _ _ _ _ hcheck => forgetsUnclaimed_of_check hcheck) trivial (fun _ _ => trivial)
      (by decide +kernel : alongB ClaimWorld.step forgetsB {} claimAfterAbandon = true)
  exact ⟨s, hrun, by simpa using hobs, slot_claim_exclusive _ s hrun (hobeys.and hforget)⟩

end UCache
