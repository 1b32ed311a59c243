import OpenUH.Libcaf.TeamBarrierRoles

/-!
# What one action of a team barrier changes

Every action moves one image to its next phase and writes at most one flag.
The lemmas say which, and how the number of barriers in which an image got
past a milestone grows.
-/

namespace OpenUH.Libcaf.TeamBarrier

open Foundation
open Libcaf.TeamFormation

variable {team : Formation} {state : State} {proc : Nat}

/-! ## Images -/

@[simp]
theorem State.modify_apply (change : Image → Image) (other : Nat) :
    state.modify proc change other =
      if other = proc then change (state proc) else state other := by
  unfold State.modify
  by_cases same : other = proc
  · subst same
    simp
  · simp [same]

/-- A write that keeps what a view shows of an image. -/
theorem State.modify_view {View : Type} (view : Image → View)
    {change : Image → Image} (keeps : ∀ image, view (change image) = view image)
    (state : State) (proc other : Nat) :
    view (state.modify proc change other) = view (state other) := by
  rw [State.modify_apply]
  split
  · rename_i same
    rw [same, keeps]
  · rfl

/-! ## Phases -/

/-- The phases an image can be in, by its role and the algorithm. -/
def Fits (team : Formation) (proc : Nat) : Phase → Prop
  | .outside => True
  | .notifying => team.leads proc = false
  | .awaitingLeader => team.leads proc = false
  | .clearing =>
      team.leads proc = false ∧ team.algorithm = .twoLevelSharedcounter
  | .gathering index =>
      team.leads proc = true ∧ team.algorithm = .twoLevelMultiflag ∧
        index < (team.nonleaders proc).length
  | .counting =>
      team.leads proc = true ∧ team.algorithm = .twoLevelSharedcounter
  | .resetting =>
      team.leads proc = true ∧ team.algorithm = .twoLevelSharedcounter
  | .putting round => team.leads proc = true ∧ round < team.roundBound
  | .polling round => team.leads proc = true ∧ round < team.roundBound
  | .toggling => team.leads proc = true
  | .releasing index =>
      team.leads proc = true ∧ index < (team.nonleaders proc).length

theorem fits_roundFrom (leads : team.leads proc = true) (round : Nat) :
    Fits team proc (roundFrom team round) := by
  unfold roundFrom
  split
  · exact ⟨leads, by assumption⟩
  · exact leads

theorem fits_gatherFrom (leads : team.leads proc = true)
    (multiflag : team.algorithm = .twoLevelMultiflag) (index : Nat) :
    Fits team proc (gatherFrom team proc index) := by
  unfold gatherFrom
  split
  · exact ⟨leads, multiflag, by assumption⟩
  · exact fits_roundFrom leads 0

theorem fits_releaseFrom (leads : team.leads proc = true) (index : Nat) :
    Fits team proc (releaseFrom team proc index) := by
  unfold releaseFrom
  split
  · exact ⟨leads, by assumption⟩
  · trivial

theorem fits_firstPhase (team : Formation) (proc : Nat) :
    Fits team proc (firstPhase team proc) := by
  unfold firstPhase
  by_cases leads : team.leads proc = true
  · rw [if_pos leads]
    cases algorithm : team.algorithm with
    | dissem => exact fits_roundFrom leads 0
    | twoLevelMultiflag => exact fits_gatherFrom leads algorithm 0
    | twoLevelSharedcounter => exact ⟨leads, algorithm⟩
  · rw [if_neg leads]
    exact Bool.eq_false_iff.mpr leads

theorem fits_nextPhase {phase : Phase} (fits : Fits team proc phase) :
    Fits team proc (nextPhase team proc phase) := by
  cases phase with
  | outside => exact fits_firstPhase team proc
  | notifying | counting | putting => exact fits
  | awaitingLeader =>
      unfold nextPhase
      cases algorithm : team.algorithm with
      | dissem => trivial
      | twoLevelMultiflag => trivial
      | twoLevelSharedcounter => exact ⟨fits, algorithm⟩
  | clearing => trivial
  | gathering index => exact fits_gatherFrom fits.1 fits.2.1 _
  | resetting | polling => exact fits_roundFrom fits.1 _
  | toggling => exact fits_releaseFrom fits _
  | releasing index => exact fits_releaseFrom fits.1 _

/-! ## The effect of an action -/

/-- A view that no write of a flag or of the barrier record changes. -/
theorem write_view {View : Type} (view : Image → View)
    (intranode : ∀ image value, view (Image.setIntranodeFlag image value) = view image)
    (local' : ∀ image round parity value,
      view (Image.setLocalFlag image round parity value) = view image)
    (toggle : ∀ image, view (Image.toggle image) = view image)
    (team : Formation) (state : State) (proc other : Nat) :
    view (write team state proc other) = view (state other) := by
  unfold write
  cases (state proc).phase with
  | notifying =>
      cases team.algorithm <;>
        exact State.modify_view view (fun image => intranode image _) _ _ _
  | putting round =>
      exact State.modify_view view (fun image => local' image _ _ _) _ _ _
  | toggling => exact State.modify_view view toggle _ _ _
  | clearing | resetting | releasing =>
      exact State.modify_view view (fun image => intranode image _) _ _ _
  | outside | awaitingLeader | gathering | counting | polling => rfl

/-- Writing moves no image. -/
theorem write_position (team : Formation) (state : State) (proc other : Nat) :
    (write team state proc other).phase = (state other).phase ∧
      (write team state proc other).entered = (state other).entered :=
  ⟨write_view Image.phase (fun _ _ => rfl) (fun _ _ _ _ => rfl)
      (fun _ => rfl) team state proc other,
    write_view Image.entered (fun _ _ => rfl) (fun _ _ _ _ => rfl)
      (fun _ => rfl) team state proc other⟩

/-- What only moving on would change is what the write left. -/
theorem act_view {View : Type} (view : Image → View)
    (keeps : ∀ image phase, view (Image.goto image phase) = view image)
    (team : Formation) (state : State) (proc other : Nat) :
    view (act team state proc other) = view (write team state proc other) :=
  State.modify_view view (fun image => keeps image _) _ _ _

theorem act_phase (team : Formation) (state : State) (proc other : Nat) :
    (act team state proc other).phase =
      if other = proc then
        nextPhase team proc (state proc).phase
      else
        (state other).phase := by
  rw [act, State.modify_apply]
  split
  · rfl
  · exact (write_position team state proc other).1

theorem act_entered (team : Formation) (state : State) (proc other : Nat) :
    (act team state proc other).entered =
      if other = proc ∧ (state proc).phase = .outside then
        (state other).entered + 1
      else
        (state other).entered := by
  rw [act, State.modify_apply]
  by_cases same : other = proc
  · subst same
    simp only [Image.goto, write_position, true_and, if_true]
  · simp only [same, false_and, if_false, write_position]

/-- Only the end of the rounds turns the parity and the sense. -/
theorem act_toggles (team : Formation) (state : State) (proc other : Nat) :
    ((act team state proc other).parity, (act team state proc other).sense) =
      if other = proc ∧ (state proc).phase = .toggling then
        ((state other).toggle.parity, (state other).toggle.sense)
      else
        ((state other).parity, (state other).sense) := by
  have moved := act_view (fun image => (image.parity, image.sense))
    (fun _ _ => rfl) team state proc other
  rw [moved, write]
  cases here : (state proc).phase with
  | notifying =>
      rw [if_neg (by simp)]
      cases team.algorithm <;>
        · refine State.modify_view (fun image => (image.parity, image.sense)) ?_ _ _ _
          exact fun _ => rfl
  | toggling =>
      dsimp only
      rw [State.modify_apply]
      by_cases same : other = proc
      · subst same
        simp
      · simp [same]
  | clearing | resetting | releasing | putting =>
      rw [if_neg (by simp)]
      refine State.modify_view (fun image => (image.parity, image.sense)) ?_ _ _ _
      exact fun _ => rfl
  | outside | awaitingLeader | gathering | counting | polling =>
      rw [if_neg (by simp)]

/-- Only a put writes the flags of the rounds. -/
theorem act_localFlag (team : Formation) (state : State) (proc other : Nat) :
    (act team state proc other).localFlag =
      match (state proc).phase with
      | .putting round =>
          if other = team.target proc round then
            ((state other).setLocalFlag round (state proc).parity (state proc).barSense).localFlag
          else
            (state other).localFlag
      | _ => (state other).localFlag := by
  rw [act_view Image.localFlag (fun _ _ => rfl), write]
  cases here : (state proc).phase with
  | putting round =>
      dsimp only
      rw [State.modify_apply]
      split
      · rename_i same
        rw [same]
      · rfl
  | notifying =>
      cases team.algorithm <;>
        · refine State.modify_view Image.localFlag ?_ _ _ _
          exact fun _ => rfl
  | clearing | resetting | toggling | releasing =>
      refine State.modify_view Image.localFlag ?_ _ _ _
      exact fun _ => rfl
  | outside | awaitingLeader | gathering | counting | polling => rfl

/-- Who writes the node flags, and what. -/
theorem act_intranodeFlag (team : Formation) (state : State) (proc other : Nat) :
    (act team state proc other).intranodeFlag =
      match (state proc).phase with
      | .notifying =>
          match team.algorithm with
          | .twoLevelSharedcounter =>
              if other = team.getLeader proc then
                toChar ((state other).intranodeFlag + 1)
              else
                (state other).intranodeFlag
          | _ => if other = proc then 1 else (state other).intranodeFlag
      | .clearing => if other = proc then 0 else (state other).intranodeFlag
      | .resetting => if other = proc then 0 else (state other).intranodeFlag
      | .releasing index =>
          if other = (team.nonleaders proc).getD index proc then
            match team.algorithm with
            | .twoLevelSharedcounter => 1
            | _ => 0
          else
            (state other).intranodeFlag
      | _ => (state other).intranodeFlag := by
  rw [act_view Image.intranodeFlag (fun _ _ => rfl), write]
  cases here : (state proc).phase with
  | notifying =>
      cases team.algorithm <;>
        · dsimp only
          rw [State.modify_apply]
          split <;> simp_all [Image.setIntranodeFlag]
  | clearing | resetting =>
      dsimp only
      rw [State.modify_apply]
      split <;> simp_all [Image.setIntranodeFlag]
  | releasing index =>
      dsimp only
      rw [State.modify_apply]
      split
      · cases team.algorithm <;> rfl
      · rfl
  | putting | toggling =>
      refine State.modify_view Image.intranodeFlag ?_ _ _ _
      exact fun _ => rfl
  | outside | awaitingLeader | gathering | counting | polling => rfl

/-! ## Milestones -/

/--
A point every barrier of an image passes once: `before` holds of the phases
ahead of it, and `here` of the phase whose action passes it.
-/
structure Milestone (team : Formation) (proc : Nat)
    (before here : Phase → Bool) : Prop where
  outside : before .outside = false
  first : before (firstPhase team proc) = true
  pass : ∀ phase, phase ≠ .outside → Fits team proc phase →
    before phase = (before (nextPhase team proc phase) || here phase)
  once : ∀ phase, phase ≠ .outside → Fits team proc phase →
    here phase = true → before (nextPhase team proc phase) = false

/-- An action passes a milestone of its image, and of no other. -/
theorem times_act {before here : Phase → Bool} {other : Nat}
    (milestone : Milestone team other before here) (fits : Fits team other (state other).phase)
    (begun : (state other).phase ≠ .outside → 0 < (state other).entered) :
    (act team state proc other).times before =
      (state other).times before +
        if other = proc ∧ (state proc).phase ≠ .outside ∧
            here (state proc).phase = true then 1 else 0 := by
  unfold Image.times
  rw [act_phase, act_entered]
  by_cases same : other = proc
  · subst same
    by_cases out : (state other).phase = .outside
    · rw [out]
      simp [nextPhase, milestone.first, milestone.outside]
    · have positive := begun out
      have pass := milestone.pass _ out fits
      have once := milestone.once _ out fits
      simp only [if_true, out, and_false, if_false, true_and, ne_eq, not_false_eq_true]
      cases passes : here (state other).phase with
      | true =>
          rw [once passes]
          rw [passes, once passes] at pass
          simp only [pass, Bool.or_true, Bool.toNat_true, Bool.toNat_false, if_true]
          omega
      | false =>
          rw [passes, Bool.or_false] at pass
          rw [pass]
          simp
  · simp [same]

end OpenUH.Libcaf.TeamBarrier
