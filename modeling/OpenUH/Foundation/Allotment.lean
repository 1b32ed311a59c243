import Mathlib.Data.List.Pairwise

/-!
# Allotments

The numbers below a total are handed out in half-open ranges, and a predicate
says which of them are taken.
-/

namespace OpenUH.Foundation

/-- The number is in the half-open range. -/
def InRange (range : Nat × Nat) (number : Nat) : Prop :=
  range.1 ≤ number ∧ number < range.2

/-- The ranges have nothing in common and hold what is taken. -/
structure Allotted (taken : Nat → Prop) (total : Nat)
    (ranges : List (Nat × Nat)) : Prop where
  inside : ∀ range ∈ ranges, range.1 ≤ total ∧ range.2 ≤ total
  disjoint : ranges.Pairwise fun earlier later =>
    ∀ number, ¬ (InRange earlier number ∧ InRange later number)
  covered : ∀ number < total,
    taken number ↔ ∃ range ∈ ranges, InRange range number

namespace Allotted

variable {taken taken' : Nat → Prop} {total : Nat}
  {ranges : List (Nat × Nat)} {range : Nat × Nat}

theorem none (empty : ∀ number < total, ¬ taken number) :
    Allotted taken total [] where
  inside := by simp
  disjoint := .nil
  covered := fun number below => by simp [empty number below]

theorem congr (allotted : Allotted taken total ranges)
    (same : ∀ number < total, taken' number ↔ taken number) :
    Allotted taken' total ranges where
  inside := allotted.inside
  disjoint := allotted.disjoint
  covered := fun number below =>
    (same number below).trans (allotted.covered number below)

/-- One more range, of numbers that were not taken. -/
theorem add (allotted : Allotted taken total ranges)
    (ordered : range.1 ≤ range.2) (inside : range.2 ≤ total)
    (free : ∀ number < total, InRange range number → ¬ taken number)
    (becomes : ∀ number < total, taken' number ↔ taken number ∨ InRange range number) :
    Allotted taken' total (ranges ++ [range]) where
  inside := by
    intro other member
    rw [List.mem_append, List.mem_singleton] at member
    rcases member with before | rfl
    · exact allotted.inside other before
    · exact ⟨Nat.le_trans ordered inside, inside⟩
  disjoint := by
    rw [List.pairwise_append]
    refine ⟨allotted.disjoint, List.pairwise_singleton _ _, ?_⟩
    intro other member last isLast number both
    rw [List.mem_singleton] at isLast
    subst isLast
    have below : number < total := Nat.lt_of_lt_of_le both.2.2 inside
    exact free number below both.2 ((allotted.covered number below).2 ⟨other, member, both.1⟩)
  covered := by
    intro number below
    rw [becomes number below, allotted.covered number below]
    constructor
    · rintro (⟨other, member, inOther⟩ | here)
      · exact ⟨other, List.mem_append_left _ member, inOther⟩
      · exact ⟨range, List.mem_append_right _ (List.mem_singleton_self _), here⟩
    · rintro ⟨other, member, inOther⟩
      rw [List.mem_append, List.mem_singleton] at member
      rcases member with before | rfl
      · exact Or.inl ⟨other, before, inOther⟩
      · exact Or.inr inOther

end Allotted

end OpenUH.Foundation
