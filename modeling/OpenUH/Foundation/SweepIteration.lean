import Mathlib.Algebra.Order.BigOperators.Group.Finset
import OpenUH.Foundation.Fallible

/-!
# Sweeps until nothing changes

An iteration to a fixed point visits a list of places again and again, each of which may
change the state in place, until a sweep over the whole list has changed nothing.
-/

namespace OpenUH.Foundation.SweepIteration

open Foundation.Fallible

variable {α σ : Type*}

/-! ## Sweeps -/

/-- The state after a sweep, and whether a visit changed it. -/
def sweep (visit : α → σ → Option σ) : List α → σ → σ × Bool
  | [], state => (state, false)
  | place :: rest, state =>
      (visit place state).elim (sweep visit rest state) fun next =>
        ((sweep visit rest next).1, true)

/-- The state after the first sweep without a change; nothing if there is none in time. -/
def untilStable (visit : α → σ → Option σ) (places : List α) : Nat → σ → Option σ
  | 0, _ => none
  | fuel + 1, state =>
      if (sweep visit places state).2 then
        untilStable visit places fuel (sweep visit places state).1
      else
        some (sweep visit places state).1

/-- A sweep keeps what every visit keeps, and changes nothing or takes a measure down. -/
theorem sweep_spec {visit : α → σ → Option σ} {places : List α}
    (holds : σ → Prop) (measure : σ → Nat)
    (step : ∀ place ∈ places, ∀ state next, holds state → visit place state = some next →
      holds next ∧ measure next < measure state)
    {state : σ} (held : holds state) :
    holds (sweep visit places state).1 ∧
      if (sweep visit places state).2 then measure (sweep visit places state).1 < measure state
      else (sweep visit places state).1 = state ∧ ∀ place ∈ places, visit place state = none := by
  induction places generalizing state with
  | nil => exact ⟨held, rfl, nofun⟩
  | cons place rest ih =>
      have later : ∀ place ∈ rest, ∀ state next, holds state → visit place state = some next →
          holds next ∧ measure next < measure state :=
        fun other member => step other (List.mem_cons_of_mem _ member)
      cases visited : visit place state with
      | none =>
          have unchanged : sweep visit (place :: rest) state = sweep visit rest state := by
            rw [sweep, visited, Option.elim_none]
          obtain ⟨kept, outcome⟩ := ih later held
          rw [unchanged]
          refine ⟨kept, ?_⟩
          split_ifs at outcome ⊢ with changed
          · exact outcome
          · exact ⟨outcome.1, List.forall_mem_cons.2 ⟨visited, outcome.2⟩⟩
      | some next =>
          have changed : sweep visit (place :: rest) state = ((sweep visit rest next).1, true) := by
            rw [sweep, visited, Option.elim_some]
          obtain ⟨held', less⟩ := step place List.mem_cons_self state next held visited
          obtain ⟨kept, outcome⟩ := ih later held'
          rw [changed, if_pos rfl]
          refine ⟨kept, ?_⟩
          split_ifs at outcome with changed'
          · exact outcome.trans less
          · rw [outcome.1]
            exact less

/-- An iteration every change of which takes a measure down comes to a state that no visit
changes. -/
theorem untilStable_settles {visit : α → σ → Option σ} {places : List α}
    (holds : σ → Prop) (measure : σ → Nat)
    (step : ∀ place ∈ places, ∀ state next, holds state → visit place state = some next →
      holds next ∧ measure next < measure state)
    {state : σ} (held : holds state) :
    ∃ last, Settles (fun fuel => untilStable visit places fuel state) last ∧ holds last ∧
      ∀ place ∈ places, visit place last = none := by
  induction bound : measure state using Nat.strong_induction_on generalizing state with
  | _ size ih =>
      obtain ⟨kept, outcome⟩ := sweep_spec holds measure step held
      split_ifs at outcome with changed
      · obtain ⟨last, ⟨enough, settled⟩, held', stable⟩ :=
          ih _ (bound ▸ outcome) kept rfl
        refine ⟨last, ⟨enough + 1, ?_⟩, held', stable⟩
        rintro (_ | fuel) most
        · exact absurd most (Nat.not_succ_le_zero _)
        · show untilStable visit places (fuel + 1) state = some last
          rw [untilStable, if_pos changed]
          exact settled fuel (Nat.le_of_succ_le_succ most)
      · refine ⟨state, ⟨1, ?_⟩, held, outcome.2⟩
        rintro (_ | fuel) most
        · exact absurd most (Nat.not_succ_le_zero _)
        · show untilStable visit places (fuel + 1) state = some state
          rw [untilStable, if_neg changed, outcome.1]

/-! ## Values that are recomputed in place -/

section Refresh

variable [DecidableEq α] {β : Type*} [DecidableEq β]

/-- A place gets the value that its neighbours give it, if this is a new one. -/
def refresh (value : α → (α → β) → β) (place : α) (values : α → β) : Option (α → β) :=
  if value place values = values place then none
  else some (Function.update values place (value place values))

theorem refresh_none {value : α → (α → β) → β} {place : α} {values : α → β}
    (stable : refresh value place values = none) :
    value place values = values place := by
  by_contra changed
  rw [refresh, if_neg changed] at stable
  cases stable

theorem refresh_some {value : α → (α → β) → β} {place : α} {values next : α → β}
    (changed : refresh value place values = some next) :
    value place values ≠ values place ∧
      next = Function.update values place (value place values) := by
  unfold refresh at changed
  split_ifs at changed with same
  exact ⟨same, (Option.some.inj changed).symm⟩

end Refresh

/-! ## Sets that shrink or grow -/

section Sets

variable [DecidableEq α] {γ : Type*} [DecidableEq γ]
  {value : α → (α → Finset γ) → Finset γ} {places : List α}

/-- Sets that are recomputed in place and only shrink come to a fixed point. -/
theorem shrinking_settles (holds : (α → Finset γ) → Prop)
    (step : ∀ place ∈ places, ∀ sets, holds sets →
      value place sets ⊆ sets place ∧ holds (Function.update sets place (value place sets)))
    {sets : α → Finset γ} (held : holds sets) :
    ∃ last, Settles (fun fuel => untilStable (refresh value) places fuel sets) last ∧
      holds last ∧ ∀ place ∈ places, value place last = last place := by
  obtain ⟨last, settles, held', stable⟩ := @untilStable_settles α _ (refresh value) places holds
    (fun sets => ∑ place ∈ places.toFinset, (sets place).card) (by
      intro place member sets next held visited
      obtain ⟨changed, rfl⟩ := refresh_some visited
      obtain ⟨less, held'⟩ := step place member sets held
      refine ⟨held', Finset.sum_lt_sum ?_ ⟨place, List.mem_toFinset.2 member, ?_⟩⟩
      · intro other inPlaces
        by_cases same : other = place
        · rw [same, Function.update_self]
          exact Finset.card_le_card less
        · rw [Function.update_of_ne same]
      · rw [Function.update_self]
        exact Finset.card_lt_card (Finset.ssubset_iff_subset_ne.2 ⟨less, changed⟩)) sets held
  exact ⟨last, settles, held', fun place member => refresh_none (stable place member)⟩

/-- Sets that are recomputed in place and only grow, within a largest one, come to a fixed
point. -/
theorem growing_settles (holds : (α → Finset γ) → Prop) (largest : Finset γ)
    (step : ∀ place ∈ places, ∀ sets, holds sets →
      sets place ⊆ value place sets ∧ value place sets ⊆ largest ∧
        holds (Function.update sets place (value place sets)))
    {sets : α → Finset γ} (held : holds sets) :
    ∃ last, Settles (fun fuel => untilStable (refresh value) places fuel sets) last ∧
      holds last ∧ ∀ place ∈ places, value place last = last place := by
  obtain ⟨last, settles, held', stable⟩ := @untilStable_settles α _ (refresh value) places holds
    (fun sets => ∑ place ∈ places.toFinset, (largest.card - (sets place).card)) (by
      intro place member sets next held visited
      obtain ⟨changed, rfl⟩ := refresh_some visited
      obtain ⟨more, most, held'⟩ := step place member sets held
      refine ⟨held', Finset.sum_lt_sum ?_ ⟨place, List.mem_toFinset.2 member, ?_⟩⟩
      · intro other inPlaces
        by_cases same : other = place
        · rw [same, Function.update_self]
          exact Nat.sub_le_sub_left (Finset.card_le_card more) _
        · rw [Function.update_of_ne same]
      · rw [Function.update_self]
        have larger : (sets place).card < (value place sets).card :=
          Finset.card_lt_card (Finset.ssubset_iff_subset_ne.2 ⟨more, fun same => changed same.symm⟩)
        exact Nat.sub_lt_sub_left (larger.trans_le (Finset.card_le_card most)) larger) sets held
  exact ⟨last, settles, held', fun place member => refresh_none (stable place member)⟩

end Sets

end OpenUH.Foundation.SweepIteration
