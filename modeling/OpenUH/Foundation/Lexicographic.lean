import Mathlib.Algebra.Order.Group.Defs
import Mathlib.Order.Fin.Basic

/-!
# Lexicographic sign of a vector

A vector is lexicographically positive when its first component that is not
zero is positive.  Every vector is zero, positive or the negation of a
positive one, and the sign is settled at the first such component.
-/

namespace OpenUH.Foundation.Lexicographic

variable {α : Type*} [AddCommGroup α]
variable {dim : Nat}

/-! ## Leading zeros -/

/-- The components before a given one are zero. -/
def ZeroBefore (first : Nat) (vector : Fin dim → α) : Prop :=
  ∀ index : Fin dim, index.val < first → vector index = 0

variable {vector : Fin dim → α}

theorem ZeroBefore.succ {first : Nat} (zero : ZeroBefore first vector)
    (inside : first < dim) (next : vector ⟨first, inside⟩ = 0) :
    ZeroBefore (first + 1) vector := by
  intro index below
  rcases Nat.lt_succ_iff_lt_or_eq.1 below with earlier | equal
  · exact zero index earlier
  · have same : index = ⟨first, inside⟩ := Fin.ext equal
    rw [same, next]

/-- Zero before the end is zero. -/
theorem ZeroBefore.eq_zero (zero : ZeroBefore dim vector) : vector = 0 := by
  ext index
  exact zero index index.isLt

theorem ZeroBefore.neg {first : Nat} (zero : ZeroBefore first vector) :
    ZeroBefore first (-vector) := by
  intro index below
  simp [zero index below]

/-! ## The sign of a vector -/

variable [LinearOrder α]

/-- The first component that is not zero is positive. -/
def Positive (vector : Fin dim → α) : Prop :=
  ∃ index, (∀ before, before < index → vector before = 0) ∧ 0 < vector index

/-- The first component that is not zero is negative. -/
def Negative (vector : Fin dim → α) : Prop :=
  ∃ index, (∀ before, before < index → vector before = 0) ∧ vector index < 0

theorem not_positive_zero : ¬ Positive (0 : Fin dim → α) := by
  rintro ⟨index, -, positive⟩
  exact lt_irrefl _ positive

theorem not_negative_zero : ¬ Negative (0 : Fin dim → α) := by
  rintro ⟨index, -, negative⟩
  exact lt_irrefl _ negative

/-- The sign is settled at the first component that is not zero. -/
theorem positive_iff_of_zeroBefore {first : Nat}
    (zero : ZeroBefore first vector) (inside : first < dim) (nonzero : vector ⟨first, inside⟩ ≠ 0) :
    Positive vector ↔ 0 < vector ⟨first, inside⟩ := by
  constructor
  · rintro ⟨index, before, positive⟩
    rcases lt_trichotomy index ⟨first, inside⟩ with below | equal | above
    · rw [zero index below] at positive
      exact absurd positive (lt_irrefl 0)
    · rwa [equal] at positive
    · exact absurd (before _ above) nonzero
  · intro positive
    exact ⟨⟨first, inside⟩, fun index below => zero index below, positive⟩

/-- A vector has at most one sign. -/
theorem Positive.not_negative (positive : Positive vector) :
    ¬ Negative vector := by
  obtain ⟨index, zero, above⟩ := positive
  rintro ⟨other, zero', below⟩
  rcases lt_trichotomy index other with before | same | after
  · exact above.ne' (zero' index before)
  · exact lt_asymm above (same ▸ below)
  · exact below.ne (zero other after)

variable [IsOrderedAddMonoid α]

theorem negative_iff : Negative vector ↔ Positive (-vector) := by
  simp [Negative, Positive]

/-- The sign is settled at the first component that is not zero. -/
theorem negative_iff_of_zeroBefore {first : Nat}
    (zero : ZeroBefore first vector) (inside : first < dim) (nonzero : vector ⟨first, inside⟩ ≠ 0) :
    Negative vector ↔ vector ⟨first, inside⟩ < 0 := by
  rw [negative_iff, positive_iff_of_zeroBefore zero.neg inside (by simpa using nonzero)]
  simp

end OpenUH.Foundation.Lexicographic
