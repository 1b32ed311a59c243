import Mathlib.Algebra.Order.BigOperators.Group.Finset

/-!
# Reachable states and invariant rules

A transition system is a predicate of initial states and a step relation.
The component models of this development instantiate the definitions below
with their own states; the rules turn a fact about one step into a fact
about every run.
-/

namespace OpenUH.Foundation.Transition

universe u v

variable {State : Type u} {Label : Type v}

/-- The states reached from an initial state by finitely many steps. -/
inductive Reachable
    (initial : State → Prop) (step : State → State → Prop) :
    State → Prop where
  | start {state : State} (isInitial : initial state) : Reachable initial step state
  | tail {before after : State}
      (reached : Reachable initial step before)
      (moved : step before after) :
      Reachable initial step after

namespace Reachable

variable {initial : State → Prop} {step : State → State → Prop}

/-- A predicate true initially and kept by every step holds everywhere. -/
theorem invariant {Inv : State → Prop} (base : ∀ state, initial state → Inv state)
    (preserved : ∀ before after, Inv before → step before after → Inv after) {state : State}
    (reached : Reachable initial step state) :
    Inv state := by
  induction reached with
  | start isInitial => exact base _ isInitial
  | tail _ moved ih =>
      exact preserved _ _ ih moved

/--
Where every step lowers a measure, the steps lead from any reachable state to
a reachable state without a step.
-/
theorem exists_terminal (measure : State → Nat)
    (decreases :
      ∀ before after, Reachable initial step before → step before after →
        measure after < measure before)
    {state : State}
    (reached : Reachable initial step state) :
    ∃ last, Reachable initial step last ∧ ∀ after, ¬ step last after := by
  induction bound : measure state using Nat.strong_induction_on generalizing state with
  | _ value ih =>
      by_cases stuck : ∀ after, ¬ step state after
      · exact ⟨state, reached, stuck⟩
      · obtain ⟨after, moved⟩ := not_forall_not.mp stuck
        exact ih (measure after)
          (bound ▸ decreases state after reached moved)
          (reached.tail moved) rfl

/--
Where every step lowers a measure, a run that moves on while it can comes to a
state without a step.
-/
theorem exists_stuck (measure : State → Nat)
    (decreases :
      ∀ before after, Reachable initial step before → step before after →
        measure after < measure before)
    {run : Nat → State} (starts : initial (run 0))
    (movesOn : ∀ time, (∃ after, step (run time) after) → step (run time) (run (time + 1))) :
    ∃ time, Reachable initial step (run time) ∧ ∀ after, ¬ step (run time) after := by
  by_contra! moving
  have falls : ∀ time, Reachable initial step (run time) ∧
      measure (run time) + time ≤ measure (run 0) := by
    intro time
    induction time with
    | zero => exact ⟨.start starts, le_rfl⟩
    | succ time ih =>
        have moved := movesOn time (moving time ih.1)
        have lower := decreases _ _ ih.1 moved
        exact ⟨ih.1.tail moved, by omega⟩
  have bound := (falls (measure (run 0) + 1)).2
  omega

end Reachable

/-- From every state there is a run that moves on while it can. -/
theorem exists_run (step : State → State → Prop) (first : State) :
    ∃ run : Nat → State, run 0 = first ∧
      ∀ time, (∃ after, step (run time) after) → step (run time) (run (time + 1)) := by
  have follows : ∀ before, ∃ after, (∃ other, step before other) → step before after := by
    intro before
    by_cases moves : ∃ other, step before other
    · exact ⟨moves.choose, fun _ => moves.choose_spec⟩
    · exact ⟨before, fun other => absurd other moves⟩
  choose next follows using follows
  refine ⟨fun time => next^[time] first, rfl, fun time moves => ?_⟩
  have moved := follows _ moves
  rwa [← Function.iterate_succ_apply' next] at moved

/-! ## Runs that are carried out -/

/-- Make the moves of a list one after the other. -/
def runAll (move : State → Label → Option State) :
    State → List Label → Option State
  | state, [] => some state
  | state, label :: labels =>
      (move state label).bind fun next => runAll move next labels

/-- A run from a reachable state ends in a reachable state. -/
theorem Reachable.runAll {initial : State → Prop} {step : State → State → Prop}
    {move : State → Label → Option State}
    (moves : ∀ before label after, move before label = some after → step before after)
    {labels : List Label} {state last : State}
    (reached : Reachable initial step state)
    (ran : runAll move state labels = some last) :
    Reachable initial step last := by
  induction labels generalizing state with
  | nil =>
      cases ran
      exact reached
  | cons label labels ih =>
      obtain ⟨next, moved, runs⟩ := Option.bind_eq_some_iff.mp ran
      exact ih (reached.tail (moves _ _ _ moved)) runs

/-! ## Labelled runs -/

/-- The steps with the labels of a list lead from one state to another. -/
inductive Run (step : State → Label → State → Prop) :
    State → List Label → State → Prop where
  | nil (state : State) : Run step state [] state
  | cons {before next last : State} {label : Label} {labels : List Label}
      (moved : step before label next) (rest : Run step next labels last) :
      Run step before (label :: labels) last

/-- Where each step is answered by one of another system, so is each run. -/
theorem Run.simulates {State' : Type*} {step : State → Label → State → Prop}
    {step' : State' → Label → State' → Prop} {Related : State → State' → Prop}
    (answers : ∀ {before after label before'}, Related before before' →
      step before label after → ∃ after', step' before' label after' ∧ Related after after')
    {before last : State} {labels : List Label} (run : Run step before labels last) :
    ∀ {before' : State'}, Related before before' →
      ∃ last', Run step' before' labels last' ∧ Related last last' := by
  induction run with
  | nil state => exact fun related => ⟨_, .nil _, related⟩
  | cons moved _ ih =>
      intro before' related
      obtain ⟨next', moved', nextRelated⟩ := answers related moved
      obtain ⟨last', run', lastRelated⟩ := ih nextRelated
      exact ⟨last', .cons moved' run', lastRelated⟩

/-! ## Measures of systems with many components -/

/-- A component that changes by `amount` changes the sum by it. -/
theorem sum_eq_of_component {Component : Type u} [DecidableEq Component]
    {components : Finset Component} (component : Component) (member : component ∈ components)
    {before after : Component → Nat} {amount : Nat}
    (others : ∀ other ∈ components, other ≠ component → after other = before other)
    (here : before component = after component + amount) :
    ∑ other ∈ components, before other = (∑ other ∈ components, after other) + amount := by
  have rest : ∑ other ∈ components.erase component, after other =
      ∑ other ∈ components.erase component, before other := by
    apply Finset.sum_congr rfl
    intro other inRest
    exact others other (Finset.mem_of_mem_erase inRest) (Finset.ne_of_mem_erase inRest)
  rw [← Finset.add_sum_erase components before member,
    ← Finset.add_sum_erase components after member, rest, here]
  omega

end OpenUH.Foundation.Transition
