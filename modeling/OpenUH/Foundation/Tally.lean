import Mathlib.Data.Finset.Card

/-!
# Tallies

A shared counter is meant to be the number of things that satisfy some
predicate.  The lemmas say how the tally moves when one thing comes or goes,
and what it means for the counter to be zero.
-/

namespace OpenUH.Foundation

universe u

variable {Thing : Type u} {chosen chosen' : Thing → Prop} {count : Int}

/-- The number counts the things that satisfy the predicate. -/
def Tally (chosen : Thing → Prop) (count : Int) : Prop :=
  ∃ things : Finset Thing,
    (∀ thing, thing ∈ things ↔ chosen thing) ∧ count = things.card

namespace Tally

/-- Nothing is counted as zero. -/
theorem none (empty : ∀ thing, ¬ chosen thing) : Tally chosen 0 :=
  ⟨∅, fun thing => by simp [empty thing], by simp⟩

section

variable (tally : Tally chosen count)

include tally

theorem congr (same : ∀ thing, chosen' thing ↔ chosen thing) :
    Tally chosen' count := by
  obtain ⟨things, members, counted⟩ := tally
  exact ⟨things, fun thing => by rw [members, same], counted⟩

/-- One thing comes. -/
theorem add [DecidableEq Thing] {thing : Thing}
    (absent : ¬ chosen thing) (same : ∀ other, chosen' other ↔ other = thing ∨ chosen other) :
    Tally chosen' (count + 1) := by
  obtain ⟨things, members, counted⟩ := tally
  refine ⟨insert thing things, fun other => ?_, ?_⟩
  · rw [Finset.mem_insert, members, same]
  · rw [Finset.card_insert_of_notMem (by rw [members]; exact absent), counted]
    push_cast
    rfl

/-- One thing goes. -/
theorem remove [DecidableEq Thing] {thing : Thing} (present : chosen thing)
    (same : ∀ other, chosen' other ↔ other ≠ thing ∧ chosen other) :
    Tally chosen' (count - 1) := by
  obtain ⟨things, members, counted⟩ := tally
  have inside : thing ∈ things := (members thing).2 present
  refine ⟨things.erase thing, fun other => ?_, ?_⟩
  · rw [Finset.mem_erase, members, same]
  · have positive : 0 < things.card := Finset.card_pos.2 ⟨thing, inside⟩
    rw [Finset.card_erase_of_mem inside, counted]
    omega

/-- The counter is zero where nothing is chosen. -/
theorem eq_zero_iff : count = 0 ↔ ∀ thing, ¬ chosen thing := by
  obtain ⟨things, members, counted⟩ := tally
  rw [counted]
  constructor
  · intro zero thing isChosen
    have inside := (members thing).2 isChosen
    have empty : things = ∅ := Finset.card_eq_zero.1 (by omega)
    rw [empty] at inside
    exact absurd inside (Finset.notMem_empty _)
  · intro empty
    have none : things = ∅ :=
      Finset.eq_empty_of_forall_notMem fun thing inside =>
        empty thing ((members thing).1 inside)
    simp [none]

theorem nonneg : 0 ≤ count := by
  obtain ⟨things, -, counted⟩ := tally
  omega

/-- A counter of things of a list is at most its length. -/
theorem le_length [DecidableEq Thing]
    {list : List Thing} (listed : ∀ thing, chosen thing → thing ∈ list) :
    count ≤ list.length := by
  obtain ⟨things, members, counted⟩ := tally
  have inside : things ⊆ list.toFinset := fun thing present =>
    List.mem_toFinset.mpr (listed thing ((members thing).1 present))
  have bound := (Finset.card_le_card inside).trans list.toFinset_card_le
  omega

/-- It is the length when everything in the list is chosen, and only then. -/
theorem eq_length_iff [DecidableEq Thing]
    {list : List Thing} (nodup : list.Nodup) (listed : ∀ thing, chosen thing → thing ∈ list) :
    count = list.length ↔ ∀ thing ∈ list, chosen thing := by
  obtain ⟨things, members, counted⟩ := tally
  have inside : things ⊆ list.toFinset := fun thing present =>
    List.mem_toFinset.mpr (listed thing ((members thing).1 present))
  have size : list.toFinset.card = list.length := List.toFinset_card_of_nodup nodup
  constructor
  · intro full thing present
    have same : things = list.toFinset := Finset.eq_of_subset_of_card_le inside (by omega)
    rw [← members, same]
    exact List.mem_toFinset.mpr present
  · intro all
    have same : things = list.toFinset := by
      apply Finset.Subset.antisymm inside
      intro thing present
      rw [members]
      exact all thing (List.mem_toFinset.mp present)
    rw [counted, same, size]

/-- Something is chosen where the counter is not zero. -/
theorem exists_of_ne_zero (some : count ≠ 0) :
    ∃ thing, chosen thing := by
  by_contra nothing
  exact some (tally.eq_zero_iff.2 (not_exists.1 nothing))

end

end Tally

end OpenUH.Foundation
