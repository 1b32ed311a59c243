import Mathlib.Algebra.Order.Field.Basic
import Mathlib.Tactic.Linarith
import Mathlib.Tactic.Ring
import OpenUH.Foundation.LinearRow

/-!
# Linear inequalities with integer coefficients

An inequality bounds the value of a row from above.  It is read at points of
any ordered ring, so that integer and rational solutions are instances of one
notion.  Over a field a variable is eliminated exactly by pairing each upper
bound on it with each lower bound.
-/

namespace OpenUH.Foundation

open LinearRow

/-- `coeff 0 * x 0 + coeff 1 * x 1 + … ≤ bound`. -/
structure Inequality where
  coeff : Nat → Int
  bound : Int

namespace Inequality

section Ring

variable {R : Type*} [CommRing R] {width column : Nat} {p q : Inequality}
  {point other : Nat → R}

/-- The left-hand side of an inequality at a point. -/
def value (q : Inequality) (width : Nat) (point : Nat → R) : R :=
  dot width (fun column => (q.coeff column : R)) point

theorem value_eq_sum : q.value width point =
    ∑ column ∈ Finset.range width, (q.coeff column : R) * point column := rfl

theorem value_congr (coeffs : ∀ column < width, p.coeff column = q.coeff column)
    (points : ∀ column < width, p.coeff column ≠ 0 → point column = other column) :
    p.value width point = q.value width other := by
  rw [value_eq_sum, value_eq_sum]
  refine Finset.sum_congr rfl fun column inside => ?_
  have below := Finset.mem_range.mp inside
  rw [← coeffs column below]
  by_cases zero : p.coeff column = 0
  · rw [zero, Int.cast_zero, zero_mul, zero_mul]
  · rw [points column below zero]

/-- The part of the value that one variable contributes. -/
theorem value_update (inside : column < width) (amount : R) :
    q.value width (Function.update point column amount) =
      q.value width point + q.coeff column * (amount - point column) := by
  rw [value_eq_sum, value_eq_sum]
  have member : column ∈ Finset.range width := Finset.mem_range.mpr inside
  rw [← Finset.add_sum_erase _ _ member, ← Finset.add_sum_erase _ _ member, Function.update_self]
  have others : ∀ other ∈ (Finset.range width).erase column,
      (q.coeff other : R) * Function.update point column amount other =
        q.coeff other * point other := by
    intro other away
    rw [Function.update_of_ne (Finset.ne_of_mem_erase away)]
  rw [Finset.sum_congr rfl others]
  ring

theorem value_update_zero (zero : q.coeff column = 0) (amount : R) :
    q.value width (Function.update point column amount) = q.value width point := by
  refine value_congr (fun _ _ => rfl) fun other _ used => ?_
  refine Function.update_of_ne ?_ _ _
  rintro rfl
  exact used zero

/-- The value at a point with one variable, only this one being used. -/
theorem value_single (inside : column < width)
    (only : ∀ other < width, other ≠ column → q.coeff other = 0) :
    q.value width point = q.coeff column * point column := by
  rw [value_eq_sum]
  refine Finset.sum_eq_single column (fun other member apart => ?_)
    fun outside => absurd (Finset.mem_range.mpr inside) outside
  rw [only other (Finset.mem_range.mp member) apart, Int.cast_zero, zero_mul]

/-- A row with scaled coefficients has a scaled value. -/
theorem value_scaled {factor : Int}
    (coeffs : ∀ column < width, p.coeff column = factor * q.coeff column) :
    p.value width point = factor * q.value width point := by
  rw [value_eq_sum, value_eq_sum, Finset.mul_sum]
  refine Finset.sum_congr rfl fun column inside => ?_
  rw [coeffs column (Finset.mem_range.mp inside)]
  push_cast
  ring

/-! ## Combinations -/

/-- A combination of two inequalities. -/
def combine (first second : Int) (p q : Inequality) : Inequality where
  coeff column := first * p.coeff column + second * q.coeff column
  bound := first * p.bound + second * q.bound

theorem value_combine (first second : Int) :
    (combine first second p q).value width point =
      first * p.value width point + second * q.value width point := by
  rw [value_eq_sum, value_eq_sum, value_eq_sum]
  unfold combine
  rw [Finset.mul_sum, Finset.mul_sum, ← Finset.sum_add_distrib]
  refine Finset.sum_congr rfl fun column _ => ?_
  push_cast
  ring

end Ring

section Order

variable {R : Type*} [CommRing R] [LinearOrder R] [IsStrictOrderedRing R]
  {width column : Nat} {p q : Inequality} {point other : Nat → R}

/-- An inequality over the first columns holds at a point. -/
def Holds (q : Inequality) (width : Nat) (point : Nat → R) : Prop :=
  q.value width point ≤ (q.bound : R)

omit [IsStrictOrderedRing R] in
/-- Only the first columns, and in them the variables in use, count. -/
theorem holds_congr (coeffs : ∀ column < width, p.coeff column = q.coeff column)
    (bounds : p.bound = q.bound)
    (points : ∀ column < width, p.coeff column ≠ 0 → point column = other column) :
    p.Holds width point ↔ q.Holds width other := by
  unfold Holds
  rw [value_congr coeffs points, bounds]

/-- An inequality without variables. -/
theorem holds_of_zero (zero : ∀ column < width, q.coeff column = 0) :
    q.Holds width point ↔ 0 ≤ q.bound := by
  have vanishes : q.value width point = 0 := by
    rw [value_eq_sum]
    refine Finset.sum_eq_zero fun column inside => ?_
    rw [zero column (Finset.mem_range.mp inside), Int.cast_zero, zero_mul]
  unfold Holds
  rw [vanishes]
  exact Int.cast_nonneg_iff

/-- What follows from two inequalities by adding multiples of them. -/
theorem Holds.combine {first second : Int} (firstNonneg : 0 ≤ first)
    (secondNonneg : 0 ≤ second) (left : p.Holds width point) (right : q.Holds width point) :
    (combine first second p q).Holds width point := by
  unfold Holds at left right ⊢
  rw [value_combine]
  have firstCast : (0 : R) ≤ first := Int.cast_nonneg firstNonneg
  have secondCast : (0 : R) ≤ second := Int.cast_nonneg secondNonneg
  have leftScaled := mul_le_mul_of_nonneg_left left firstCast
  have rightScaled := mul_le_mul_of_nonneg_left right secondCast
  change _ ≤ ((first * p.bound + second * q.bound : Int) : R)
  push_cast
  exact add_le_add leftScaled rightScaled

/-- An inequality may be scaled by a positive number. -/
theorem holds_scaled {factor : Int} (positive : 0 < factor)
    (coeffs : ∀ column < width, p.coeff column = factor * q.coeff column)
    (bounds : p.bound = factor * q.bound) :
    p.Holds width point ↔ q.Holds width point := by
  unfold Holds
  rw [value_scaled coeffs, bounds]
  push_cast
  exact mul_le_mul_iff_right₀ (Int.cast_pos.mpr positive)

/-- An equation may be scaled by a number that is not zero. -/
theorem value_eq_scaled {factor : Int} (nonzero : factor ≠ 0)
    (coeffs : ∀ column < width, p.coeff column = factor * q.coeff column)
    (bounds : p.bound = factor * q.bound) :
    p.value width point = (p.bound : R) ↔ q.value width point = (q.bound : R) := by
  rw [value_scaled coeffs, bounds]
  push_cast
  exact mul_right_inj' (Int.cast_ne_zero.mpr nonzero)

/-- Where an equation holds, a multiple of it may be added to a multiple of
another. -/
theorem combine_value_eq {first second : Int} (nonzero : first ≠ 0)
    (pivot : q.value width point = (q.bound : R)) :
    (combine first second p q).value width point =
        ((combine first second p q).bound : R) ↔
      p.value width point = (p.bound : R) := by
  have bound : ((combine first second p q).bound : R) = first * p.bound + second * q.bound := by
    unfold combine
    push_cast
    rfl
  rw [value_combine, bound, pivot, add_left_inj]
  exact mul_right_inj' (Int.cast_ne_zero.mpr nonzero)

/-- Where an equation holds, a multiple of it may be added to a positive
multiple of an inequality. -/
theorem combine_holds {first second : Int} (positive : 0 < first)
    (pivot : q.value width point = (q.bound : R)) :
    (combine first second p q).Holds width point ↔ p.Holds width point := by
  have bound : ((combine first second p q).bound : R) = first * p.bound + second * q.bound := by
    unfold combine
    push_cast
    rfl
  unfold Holds
  rw [value_combine, bound, pivot, add_le_add_iff_right]
  exact mul_le_mul_iff_right₀ (Int.cast_pos.mpr positive)

end Order

/-! ## Integer points -/

section Cast

variable {K : Type*} [CommRing K] [LinearOrder K] [IsStrictOrderedRing K]
  {width : Nat} {q : Inequality} {point : Nat → Int}

omit [LinearOrder K] [IsStrictOrderedRing K] in
theorem value_intCast :
    q.value width (fun column => (point column : K)) = (q.value width point : Int) := by
  rw [value_eq_sum, value_eq_sum]
  push_cast
  rfl

/-- An integer point may be taken for a point of any ordered ring. -/
theorem holds_intCast : q.Holds width (fun column => (point column : K)) ↔ q.Holds width point := by
  unfold Holds
  rw [value_intCast]
  exact Int.cast_le

end Cast

section Integers

variable {width : Nat} {p q : Inequality} {point : Nat → Int} {factor : Int}

/-- At integer points the bound of a divided row may be rounded down. -/
theorem holds_divided (positive : 0 < factor)
    (coeffs : ∀ column < width, p.coeff column = factor * q.coeff column)
    (bounds : q.bound = p.bound / factor) :
    q.Holds width point ↔ p.Holds width point := by
  unfold Holds
  rw [value_scaled coeffs, bounds]
  simp only [Int.cast_id]
  rw [Int.le_ediv_iff_mul_le positive, mul_comm]

/-- An equation may be divided by a number that is not zero. -/
theorem value_eq_divided (nonzero : factor ≠ 0)
    (coeffs : ∀ column < width, p.coeff column = factor * q.coeff column)
    (bounds : p.bound = factor * q.bound) :
    q.value width point = q.bound ↔ p.value width point = p.bound := by
  exact (value_eq_scaled nonzero coeffs bounds).symm

end Integers

/-! ## Elimination of a variable -/

section Field

variable {K : Type*} [Field K] [LinearOrder K] [IsStrictOrderedRing K]
  {width column : Nat} {point : Nat → K}

omit [IsStrictOrderedRing K] in
/-- Finitely many values have an upper bound among them and below others. -/
theorem exists_between (lower upper : List K) (apart : ∀ a ∈ lower, ∀ b ∈ upper, a ≤ b) :
    ∃ value, (∀ a ∈ lower, a ≤ value) ∧ ∀ b ∈ upper, value ≤ b := by
  induction lower with
  | nil =>
      induction upper with
      | nil => exact ⟨0, nofun, nofun⟩
      | cons b upper ih =>
          obtain ⟨value, -, below⟩ := ih nofun
          refine ⟨min value b, nofun, fun other member => ?_⟩
          rcases List.mem_cons.mp member with rfl | later
          · exact min_le_right _ _
          · exact (min_le_left _ _).trans (below other later)
  | cons a lower ih =>
      obtain ⟨value, above, below⟩ := ih
        fun other member => apart other (List.mem_cons_of_mem _ member)
      refine ⟨max value a, fun other member => ?_, fun b member => ?_⟩
      · rcases List.mem_cons.mp member with rfl | later
        · exact le_max_right _ _
        · exact (above other later).trans (le_max_left _ _)
      · exact max_le (below b member) (apart a List.mem_cons_self b member)

/--
The other coordinates extend to a solution exactly if they satisfy the
inequalities without the variable, and for each upper and each lower bound on
it their combination.
-/
theorem exists_update_iff (system : List Inequality) (inside : column < width) :
    (∃ amount, ∀ q ∈ system,
        q.Holds width (Function.update point column amount)) ↔
      (∀ q ∈ system, q.coeff column = 0 → q.Holds width point) ∧
        ∀ p ∈ system, 0 < p.coeff column → ∀ q ∈ system, q.coeff column < 0 →
          (combine (-q.coeff column) (p.coeff column) p q).Holds width
            point := by
  -- What an inequality leaves to its variable, divided by the coefficient.
  let limit : Inequality → K := fun q =>
    ((q.bound : K) - q.value width (Function.update point column 0)) / q.coeff column
  have split : ∀ (q : Inequality) (amount : K),
      q.value width (Function.update point column amount) =
        q.value width (Function.update point column 0) + q.coeff column * amount := by
    intro q amount
    rw [value_update inside, value_update inside]
    ring
  have upper : ∀ (q : Inequality) (amount : K), 0 < q.coeff column →
      (q.Holds width (Function.update point column amount) ↔ amount ≤ limit q) := by
    intro q amount positive
    have cast : (0 : K) < q.coeff column := Int.cast_pos.mpr positive
    unfold Holds
    rw [split, le_div_iff₀ cast]
    constructor <;> intro below <;> linarith
  have lower : ∀ (q : Inequality) (amount : K), q.coeff column < 0 →
      (q.Holds width (Function.update point column amount) ↔ limit q ≤ amount) := by
    intro q amount negative
    have cast : (q.coeff column : K) < 0 := Int.cast_lt_zero.mpr negative
    unfold Holds
    rw [split, div_le_iff_of_neg cast]
    constructor <;> intro below <;> linarith
  have pair : ∀ p q : Inequality, 0 < p.coeff column → q.coeff column < 0 →
      ((combine (-q.coeff column) (p.coeff column) p q).Holds width point ↔ limit q ≤ limit p) := by
    intro p q positive negative
    have left : (0 : K) < p.coeff column := Int.cast_pos.mpr positive
    have right : (q.coeff column : K) < 0 := Int.cast_lt_zero.mpr negative
    have pValue := split p (point column)
    have qValue := split q (point column)
    rw [Function.update_eq_self] at pValue qValue
    have bound : ((combine (-q.coeff column) (p.coeff column) p q).bound : K) =
        -q.coeff column * p.bound + p.coeff column * q.bound := by
      unfold combine
      push_cast
      ring
    unfold Holds
    rw [value_combine, pValue, qValue, bound, div_le_iff_of_neg right,
      div_mul_eq_mul_div, div_le_iff₀ left]
    push_cast
    constructor <;> intro below <;> linarith
  constructor
  · rintro ⟨amount, solves⟩
    refine ⟨fun q member zero => ?_, fun p inP positive q inQ negative => ?_⟩
    · have holds := solves q member
      unfold Holds at holds ⊢
      rw [value_update_zero zero] at holds
      exact holds
    · exact (pair p q positive negative).mpr
        (((lower q amount negative).mp (solves q inQ)).trans
          ((upper p amount positive).mp (solves p inP)))
  · rintro ⟨without, pairs⟩
    obtain ⟨amount, above, below⟩ := exists_between
      ((system.filter (·.coeff column < 0)).map limit)
      ((system.filter (0 < ·.coeff column)).map limit) (by
        intro a inLower b inUpper
        obtain ⟨q, isQ, rfl⟩ := List.mem_map.mp inLower
        obtain ⟨p, isP, rfl⟩ := List.mem_map.mp inUpper
        obtain ⟨inQ, negative⟩ := List.mem_filter.mp isQ
        obtain ⟨inP, positive⟩ := List.mem_filter.mp isP
        have left := of_decide_eq_true positive
        have right := of_decide_eq_true negative
        exact (pair p q left right).mp (pairs p inP left q inQ right))
    refine ⟨amount, fun q member => ?_⟩
    rcases lt_trichotomy (q.coeff column) 0 with negative | zero | positive
    · exact (lower q amount negative).mpr (above _ (List.mem_map_of_mem
        (List.mem_filter.mpr ⟨member, decide_eq_true negative⟩)))
    · have holds := without q member zero
      unfold Holds at holds ⊢
      rw [value_update_zero zero]
      exact holds
    · exact (upper q amount positive).mpr (below _ (List.mem_map_of_mem
        (List.mem_filter.mpr ⟨member, decide_eq_true positive⟩)))

omit [LinearOrder K] [IsStrictOrderedRing K] in
/-- The combination that eliminates a variable does not depend on it. -/
theorem value_eliminated {p q : Inequality} (amount : K) :
    (combine (-q.coeff column) (p.coeff column) p q).value width
        (Function.update point column amount) =
      (combine (-q.coeff column) (p.coeff column) p q).value width point := by
  refine value_update_zero ?_ amount
  unfold combine
  dsimp only
  ring

/--
One upper bound on a variable may be replaced by its combinations with the
lower bounds.
-/
theorem exists_update_erase {p : Inequality} (system : List Inequality)
    (inside : column < width) (positive : 0 < p.coeff column) :
    (∃ amount, ∀ q ∈ p :: system,
        q.Holds width (Function.update point column amount)) ↔
      (∃ amount, ∀ q ∈ system,
        q.Holds width (Function.update point column amount)) ∧
        ∀ q ∈ system, q.coeff column < 0 →
          (combine (-q.coeff column) (p.coeff column) p q).Holds width
            point := by
  rw [exists_update_iff _ inside, exists_update_iff _ inside]
  constructor
  · rintro ⟨without, pairs⟩
    refine ⟨⟨fun q member => without q (List.mem_cons_of_mem _ member),
      fun upper inUpper isUpper lower inLower isLower => ?_⟩,
      fun lower inLower isLower => ?_⟩
    · exact pairs upper (List.mem_cons_of_mem _ inUpper) isUpper lower
        (List.mem_cons_of_mem _ inLower) isLower
    · exact pairs p List.mem_cons_self positive lower (List.mem_cons_of_mem _ inLower) isLower
  · rintro ⟨⟨without, pairs⟩, own⟩
    refine ⟨fun q member zero => ?_,
      fun upper inUpper isUpper lower inLower isLower => ?_⟩
    · rcases List.mem_cons.mp member with rfl | later
      · omega
      · exact without q later zero
    · have lowerLater : lower ∈ system := by
        rcases List.mem_cons.mp inLower with rfl | later
        · omega
        · exact later
      rcases List.mem_cons.mp inUpper with rfl | later
      · exact own lower lowerLater isLower
      · exact pairs upper later isUpper lower lowerLater isLower

end Field

end Inequality

end OpenUH.Foundation
